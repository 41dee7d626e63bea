import Espix.Umode.Futex
import Mathlib.Tactic

/-! Condition variables of `user/libespix/pthread.c`, over the waiting list of the kernel's futexes.

The mutex is taken and given back in one step each. -/

namespace Espix.User.Cond

open Function Lib.Run
open Umode.Futex
  (Waiter takeOff takeOff_perm length_of_left queue queue_eraseP queue_split mem_queue_iff_any)

/-- Where a thread is. A value of `seq` is counted without end here; the word has it modulo 2^32. -/
inductive Phase
  | outside
  | holding
  | entered (seq : Nat)
  /-- Has given the mutex back, and is about to wait while the word is what it read. -/
  | released (seq : Nat)
  | waiting
  | returning
  /-- In `cond_wake`, has raised `seq` and is about to wake. -/
  | raised (n : Int) (held : Bool)
  deriving DecidableEq

structure State where
  seq : Nat
  owner : Option Nat
  waiters : List Waiter
  threads : Nat → Phase
  /-- For each thread in `cond_wake`, those that had released the mutex and not been woken when it
  raised `seq`. -/
  there : Nat → Nat → Bool

def boot : State := ⟨0, none, [], fun _ => .outside, fun _ _ => false⟩

def word : Nat := 0

inductive Event
  | lock (i : Nat)
  | unlock (i : Nat)
  | enter (i : Nat)
  | release (i : Nat)
  | sleep (i : Nat)
  | giveUp (i : Nat)
  | relock (i : Nat)
  | raise (i : Nat) (n : Int)
  | wake (i : Nat)

def put (s : State) (i : Nat) (phase : Phase) : State :=
  { s with threads := Function.update s.threads i phase }

def inside : Phase → Bool
  | .released _ | .waiting => true
  | _ => false

def wakeAll (s : State) (taken left : List Waiter) : State :=
  { s with
    waiters := left
    threads := fun i => if taken.any (·.thread == i) then .returning else s.threads i }

def step (s : State) : Event → Option State
  | .lock i =>
    if s.threads i = .outside ∧ s.owner = none then
      some (put { s with owner := some i } i .holding) else none
  | .unlock i =>
      if s.threads i = .holding then some (put { s with owner := none } i .outside) else none
  | .enter i => if s.threads i = .holding then some (put s i (.entered s.seq)) else none
  | .release i =>
    match s.threads i with
    | .entered seq => some (put { s with owner := none } i (.released seq))
    | _ => none
  | .sleep i =>
    match s.threads i with
    | .released seq =>
      some <|
        if s.seq % 2 ^ 32 = seq % 2 ^ 32 then
          put { s with waiters := ⟨i, word⟩ :: s.waiters } i .waiting
        else put s i .returning
    | _ => none
  | .giveUp i =>
    match s.threads i with
    | .released _ => some (put s i .returning)
    | .waiting => some (put { s with waiters := s.waiters.eraseP (·.thread == i) } i .returning)
    | _ => none
  | .relock i =>
    if s.threads i = .returning ∧ s.owner = none then
      some (put { s with owner := some i } i .holding) else none
  | .raise i n =>
    if s.threads i = .outside ∨ s.threads i = .holding then
      some <| put { s with
        seq := s.seq + 1
        there := Function.update s.there i fun j =>
          inside (s.threads j) } i (.raised n (s.threads i = .holding))
    else none
  | .wake i =>
    match s.threads i with
    | .raised n held =>
      some <|
        put (wakeAll s (takeOff word n.toNat s.waiters).1 (takeOff word n.toNat s.waiters).2) i
        (if held then .holding else .outside)
    | _ => none

/-- The thread waits, or will when it comes to its futex. -/
def Sleeps (s : State) (i : Nat) : Prop :=
  s.threads i = .waiting ∨ ∃ seq, s.threads i = .released seq ∧ s.seq % 2 ^ 32 = seq % 2 ^ 32

/-- Nobody comes to `cond_wait` between the two steps of a `cond_wake`, as when it is called with
the mutex held, and no thread is held up before its futex while `seq` comes round. -/
def Orderly (s : State) : Event → Prop
  | .enter _ => ∀ i n held, s.threads i ≠ .raised n held
  | .raise _ _ =>
      ∀ i seq, s.threads i = .entered seq ∨ s.threads i = .released seq → s.seq + 1 < seq + 2 ^ 32
  | _ => True

structure Inv (s : State) : Prop where
  nodup : (queue s.waiters).Nodup
  listed : ∀ i, i ∈ queue s.waiters ↔ s.threads i = .waiting
  address : ∀ w ∈ s.waiters, w.uaddr = word
  read : ∀ i seq, s.threads i = .entered seq ∨ s.threads i = .released seq → seq ≤ s.seq ∧
    s.seq < seq + 2 ^ 32
  past : ∀ x n held, s.threads x = .raised n held →
    ∀ i seq, s.threads i = .entered seq ∨ s.threads i = .released seq → seq < s.seq
  known : ∀ x n held, s.threads x = .raised n held → ∀ i, s.threads i = .waiting →
    s.there x i = true

section Steps

variable {s t : State} {i : Nat} {e : Event}

theorem Inv.put {phase : Phase} {owner : Option Nat} {waiters : List Waiter} (inv : Inv s)
    (nodup : (queue waiters).Nodup) (others : ∀ j, j ≠ i →
      (j ∈ queue waiters ↔ j ∈ queue s.waiters))
    (here : i ∈ queue waiters ↔ phase = .waiting) (address : ∀ w ∈ waiters, w.uaddr = word)
    (reads : ∀ seq, phase = .entered seq ∨ phase = .released seq → seq ≤ s.seq ∧
      s.seq < seq + 2 ^ 32 ∧
      ∀ x n held, s.threads x = .raised n held → seq < s.seq)
    (calm : ∀ n held, phase ≠ .raised n held)
    (known : phase = .waiting → ∀ x n held, s.threads x = .raised n held → s.there x i = true) :
    Inv (put { s with owner, waiters } i phase) := by
  obtain ⟨-, listed, -, read, past, known_before⟩ := inv
  refine ⟨nodup, ?_, address, ?_, ?_, ?_⟩ <;> simp only [Cond.put, update_apply] <;> grind

theorem Inv.moves {phase : Phase} {owner : Option Nat} (inv : Inv s)
    (before : s.threads i ≠ .waiting)
    (after : phase ≠ .waiting)
    (reads : ∀ seq, phase = .entered seq ∨ phase = .released seq → seq ≤ s.seq ∧
      s.seq < seq + 2 ^ 32 ∧
      ∀ x n held, s.threads x = .raised n held → seq < s.seq)
    (calm : ∀ n held, phase ≠ .raised n held) : Inv (Cond.put { s with owner } i phase) := by
  refine inv.put inv.nodup (fun _ _ => Iff.rfl) ?_ inv.address reads calm
    (fun waits => absurd waits after)
  exact iff_of_false (fun listed => before ((inv.listed i).mp listed)) after

theorem Inv.raise (inv : Inv s) {n : Int} {held : Bool}
    (before : s.threads i = .outside ∨ s.threads i = .holding)
    (short : ∀ i seq, s.threads i = .entered seq ∨ s.threads i = .released seq →
      s.seq + 1 < seq + 2 ^ 32) :
    Inv (Cond.put { s with
      seq := s.seq + 1
      there := update s.there i fun j => inside (s.threads j) } i (.raised n held)) := by
  obtain ⟨nodup, listed, address, read, past, known⟩ := inv
  refine ⟨nodup, ?_, address, ?_, ?_, ?_⟩ <;> simp only [Cond.put, update_apply]
  · grind
  · grind
  · grind
  · intro x n held raised j waits
    split
    · grind [inside]
    · grind

theorem Inv.wake (inv : Inv s) {taken left : List Waiter}
    (perm : (taken ++ left).Perm s.waiters) {phase : Phase}
    (before : s.threads i ≠ .waiting) (after : phase = .holding ∨ phase = .outside) :
    Inv (Cond.put (wakeAll s taken left) i phase) := by
  obtain ⟨nodup, both, apart⟩ := queue_split inv.nodup perm
  obtain ⟨-, listed, address, read, past, known⟩ := inv
  refine ⟨nodup, ?_, fun w member => address w (perm.mem_iff.mp (List.mem_append_right _ member)),
    ?_, ?_, ?_⟩ <;>
    simp only [Cond.put, wakeAll, mem_queue_iff_any, update_apply] <;> grind

theorem inv_step (inv : Inv s) (orderly : Orderly s e) (next : step s e = some t) : Inv t := by
  revert orderly next
  fun_cases step s e with
  | case1 | case3 | case11 | case14 =>
    rintro - ⟨⟩
    apply inv.moves <;> grind
  | case5 i before =>
    rintro orderly ⟨⟩
    apply inv.moves <;> grind [Orderly]
  | case7 i seq before =>
    rintro - ⟨⟩
    have read := inv.read i
    have past := inv.past
    apply inv.moves <;> grind
  | case9 i seq before =>
    rintro - ⟨⟩
    have read := inv.read i seq (.inr before)
    have unlisted : i ∉ queue s.waiters := by simp [inv.listed, before]
    split
    · have past := fun x n held raised => inv.past x n held raised i seq (.inr before)
      apply inv.put <;> grind [queue, inv.nodup, inv.address]
    · apply inv.moves <;> grind
  | case12 i before =>
    rintro - ⟨⟩
    obtain ⟨nodup, erased⟩ := queue_eraseP inv.nodup i
    apply inv.put <;> grind [inv.address, List.mem_of_mem_eraseP]
  | case16 i n before =>
    rintro orderly ⟨⟩
    exact inv.raise before orderly
  | case18 i n held before =>
    rintro - ⟨⟩
    exact inv.wake (takeOff_perm ..) (by simp [before]) (by cases held <;> simp)
  | _ => rintro - ⟨⟩

theorem waits_of_sleeps (inv : Inv s) {x : Nat} {n : Int} {held : Bool}
    (raised : s.threads x = .raised n held) (sleeps : Sleeps s i) : s.threads i = .waiting := by
  rcases sleeps with waits | ⟨seq, released, same⟩
  · exact waits
  · have late := inv.past x n held raised i seq (.inr released)
    have near := (inv.read i seq (.inr released)).2
    omega

theorem left_of_sleeps (inv : Inv s) {x : Nat} {n : Int} {held : Bool}
    (raised : s.threads x = .raised n held)
    (next : step s (.wake x) = some t) (sleeps : Sleeps t i) : i ∈
    queue (takeOff word n.toNat s.waiters).2 := by
  obtain ⟨-, both, -⟩ := queue_split inv.nodup (takeOff_perm word n.toNat s.waiters)
  have listed := inv.listed i
  have read := inv.read i
  have past := inv.past x n held raised i
  simp only [step, raised, Option.some.injEq] at next
  subst next
  simp only [Sleeps, put, wakeAll, mem_queue_iff_any, update_apply] at sleeps
  rcases sleeps with waits | ⟨seq, released, same⟩
  · grind
  · have before : s.threads i = .released seq := by grind
    have late := past seq (.inr before)
    have near := (read seq (.inr before)).2
    omega

end Steps

theorem inv_boot : Inv boot := ⟨List.nodup_nil, by simp [boot, queue], nofun, nofun, nofun, nofun⟩

/-- Where `Orderly` holds throughout, a signal makes one of those return that were waiting when it
was raised, one that still sleeps if there is one, and a broadcast makes all of them. -/
theorem cond_wake_reaches {es : List Event} {s t : State} {x : Nat} {n : Int} {held : Bool}
    (done : run step boot es = some s) (along : Along step Orderly boot es)
    (raised : s.threads x = .raised n held)
    (next : step s (.wake x) = some t) :
    (0 < n → (∃ i, s.there x i = true) → ∃ i, s.there x i = true ∧ ¬Sleeps t i ∧
        ((∃ j, s.there x j = true ∧ Sleeps s j) → Sleeps s i)) ∧
      (s.waiters.length ≤ n → ∀ i, s.there x i = true → ¬Sleeps t i) := by
  have inv := run_invariant_along (fun _ _ _ => inv_step) along done inv_boot
  have left := fun i => left_of_sleeps (i := i) inv raised next
  have perm := takeOff_perm word n.toNat s.waiters
  refine ⟨fun positive present => ?_, fun many i _ sleeps => ?_⟩
  · obtain ⟨i, known⟩ := present
    cases waiters : s.waiters with
    | nil =>
      refine ⟨i, known, fun sleeps => ?_, ?_⟩
      · obtain ⟨w, member, -⟩ := List.mem_map.mp (left i sleeps)
        have listed := perm.mem_iff.mp (List.mem_append_right _ member)
        rw [waiters] at listed
        cases listed
      · rintro ⟨j, -, sleeps⟩
        have listed := (inv.listed j).mpr (waits_of_sleeps inv raised sleeps)
        simp [waiters, queue] at listed
    | cons w rest =>
      have first : w ∈ (takeOff word n.toNat s.waiters).1 := by
        obtain ⟨k, some_asked⟩ := Nat.exists_eq_succ_of_ne_zero (show n.toNat ≠ 0 by omega)
        simp [waiters, some_asked, takeOff, inv.address w (by simp [waiters])]
      have listed : w.thread ∈ queue s.waiters := by simp [waiters, queue]
      have waits := (inv.listed _).mp listed
      refine ⟨w.thread, inv.known x n held raised _ waits, fun sleeps => ?_, fun _ => .inl waits⟩
      exact (queue_split inv.nodup perm).2.2 _ (List.mem_map_of_mem first) (left _ sleeps)
  · obtain ⟨w, member, -⟩ := List.mem_map.mp (left i sleeps)
    have address := inv.address w (perm.mem_iff.mp (List.mem_append_right _ member))
    have counted := perm.length_eq
    rw [List.length_append, length_of_left member address] at counted
    have present := List.length_pos_of_mem member
    omega

def signalled : List Event :=
  [.lock 1, .enter 1, .release 1, .sleep 1, .lock 2, .enter 2, .release 2, .sleep 2, .raise 0 1]

theorem cond_wake_reaches_one : ∃ s t, run step boot signalled = some s ∧
    step s (.wake 0) = some t ∧
    ∃ i, s.there 0 i = true ∧ Sleeps s i ∧ ¬Sleeps t i := by
  have along : Along step Orderly boot signalled := by
    simp [signalled, Along, step, Orderly, boot, put, update_apply]
    grind
  refine ⟨_, _, rfl, rfl, ?_⟩
  obtain ⟨i, there, wakes, slept⟩ :=
    (cond_wake_reaches (x := 0) (n := 1) (show run step boot signalled =
      some _ from rfl) along rfl rfl).1
      (by decide) ⟨1, rfl⟩
  exact ⟨i, there, slept ⟨1, rfl, .inl rfl⟩, wakes⟩

/-- Thread 2 comes to wait between the two steps of a signal of thread 0, and is woken in place of
thread 1, which alone was waiting. -/
theorem cond_wake_misses : ∃ s t,
    run step boot [.lock 1, .enter 1, .release 1, .sleep 1, .raise 0 1, .lock 2,
      .enter 2, .release 2, .sleep 2] = some s ∧
      step s (.wake 0) = some t ∧ s.there 0 1 = true ∧ s.there 0 2 = false ∧
      t.threads 1 = .waiting ∧
      t.threads 2 = .returning :=
  ⟨_, _, rfl, rfl, rfl, rfl, rfl, rfl⟩

end Espix.User.Cond
