import Espix.Lib.Run
import Mathlib.Data.List.Perm.Basic
import Mathlib.Logic.Function.Basic

/-! The futexes of a process, `components/espix_proc/umode_futex.c`.

A waiter is queued and its word read under the lock of the process. It sleeps on a notification of
its task, and leaves under the lock again. -/

namespace Espix.Umode.Futex

open Lib.Run

structure Waiter where
  thread : Nat
  uaddr : Nat
  deriving DecidableEq

inductive Result
  | ok
  | inval
  | fault
  | again
  | intr
  | timedOut
  deriving DecidableEq

inductive Phase
  | outside
  | looping
  | asleep
  /-- Out of the loop with its result so far, and about to take the lock. -/
  | leaving (r : Result)
  deriving DecidableEq

structure Thread where
  phase : Phase
  timed : Bool
  woken : Bool
  notified : Bool
  result : Option Result

structure State where
  /-- The words of user memory, with none at an address that cannot be read. -/
  words : Nat → Option Nat
  waiters : List Waiter
  threads : Nat → Thread

def boot (words : Nat → Option Nat) : State :=
  ⟨words, [], fun _ => ⟨.outside, false, false, false, none⟩⟩

inductive Event
  | store (uaddr : Nat) (word : Option Nat)
  /-- Up to the end of the first locked part. -/
  | wait (i uaddr val : Nat) (timed : Bool)
  /-- A turn of the loop up to the sleep, with what it finds: a signal, the deadline past. -/
  | turn (i : Nat) (signal late : Bool)
  /-- The sleep ends, notified or because its time is over. -/
  | rouse (i : Nat)
  /-- A notification of the task that is not a wake. -/
  | notify (i : Nat)
  | finish (i : Nat)
  | wake (uaddr : Nat) (n : Int)

def put (s : State) (i : Nat) (thread : Thread) : State :=
  { s with threads := Function.update s.threads i thread }

def returned (s : State) (i : Nat) (r : Result) : State :=
  put s i { s.threads i with phase := .outside, result := some r }

def takeOff (uaddr : Nat) : Nat → List Waiter → List Waiter × List Waiter
  | 0, waiters => ([], waiters)
  | _, [] => ([], [])
  | n + 1, w :: waiters =>
    if w.uaddr = uaddr then ((w :: (takeOff uaddr n waiters).1), (takeOff uaddr n waiters).2)
    else ((takeOff uaddr (n + 1) waiters).1, w :: (takeOff uaddr (n + 1) waiters).2)

def wakeAll (s : State) (taken left : List Waiter) : State :=
  { s with
    waiters := left
    threads := fun i =>
      if taken.any (·.thread == i) then { s.threads i with woken := true, notified := true }
        else s.threads i }

def step (s : State) : Event → Option State
  | .store uaddr word => some { s with words := Function.update s.words uaddr word }
  | .wait i uaddr val timed =>
    if (s.threads i).phase ≠ .outside then none
    else if uaddr % 4 ≠ 0 then some (returned s i .inval)
    else
      match s.words uaddr with
      | none => some (returned s i .fault)
      | some now =>
        if now ≠ val then some (returned s i .again)
        else
          some { put s i { s.threads
            i with phase := .looping, timed := timed, woken := false, result := none } with
            waiters := ⟨i, uaddr⟩ :: s.waiters }
  | .turn i signal late =>
    let th := s.threads i
    if th.phase ≠ .looping then none
    else
      some <| put s i { th with
        phase :=
          if th.woken then .leaving .ok
          else if signal then .leaving .intr
          else if th.timed && late then .leaving .timedOut
          else .asleep }
  | .rouse i =>
    let th := s.threads i
    if th.phase = .asleep ∧ (th.notified || th.timed) then
      some (put s i { th with phase := .looping, notified := false })
    else none
  | .notify i => some (put s i { s.threads i with notified := true })
  | .finish i =>
    match (s.threads i).phase with
    | .leaving r =>
      some <|
        if (s.threads i).woken then returned s i .ok
        else returned { s with waiters := s.waiters.eraseP (·.thread == i) } i r
    | _ => none
  | .wake uaddr n =>
      some (wakeAll s (takeOff uaddr n.toNat s.waiters).1 (takeOff uaddr n.toNat s.waiters).2)

/-! The list. -/

section List

variable {uaddr n : Nat} {waiters : List Waiter} {w : Waiter}

theorem takeOff_perm (uaddr n : Nat) (waiters : List Waiter) :
    ((takeOff uaddr n waiters).1 ++ (takeOff uaddr n waiters).2).Perm waiters := by
  fun_induction takeOff uaddr n waiters with
  | case1 | case2 => rfl
  | case3 n w waiters here ih => exact ih.cons w
  | case4 n w waiters other ih => exact List.perm_middle.trans (ih.cons w)

theorem length_takeOff (uaddr n : Nat) (waiters : List Waiter) :
    (takeOff uaddr n waiters).1.length ≤ n := by
  fun_induction takeOff uaddr n waiters with
  | case1 | case2 => exact Nat.zero_le _
  | case3 n w waiters here ih => exact Nat.succ_le_succ ih
  | case4 n w waiters other ih => exact ih

theorem uaddr_of_taken (taken : w ∈ (takeOff uaddr n waiters).1) : w.uaddr = uaddr := by
  fun_induction takeOff uaddr n waiters with
  | case1 | case2 => cases taken
  | case3 n first waiters here ih =>
    rcases List.mem_cons.mp taken with rfl | later
    · exact here
    · exact ih later
  | case4 n first waiters other ih => exact ih taken

theorem length_of_left (left : w ∈ (takeOff uaddr n waiters).2) (here : w.uaddr = uaddr) :
    (takeOff uaddr n waiters).1.length = n := by
  fun_induction takeOff uaddr n waiters with
  | case1 => rfl
  | case2 => cases left
  | case3 n first waiters match_first ih => exact congrArg Nat.succ (ih left)
  | case4 n first waiters other ih =>
    rcases List.mem_cons.mp left with rfl | later
    · exact absurd here other
    · exact ih later

end List

theorem threads_put (s : State) (i : Nat) (th : Thread) : (put s i th).threads i = th :=
  Function.update_self ..

def queue (waiters : List Waiter) : List Nat := waiters.map Waiter.thread

theorem mem_queue_iff_any {waiters : List Waiter} {i : Nat} : waiters.any (·.thread == i) = true ↔
    i ∈ queue waiters := by
  simp [queue]

section Queue

variable {waiters : List Waiter} (nodup : (queue waiters).Nodup)

include nodup

theorem queue_eraseP (i : Nat) : (queue (waiters.eraseP (·.thread == i))).Nodup ∧
    ∀ j, j ∈ queue (waiters.eraseP (·.thread == i)) ↔ j ≠ i ∧ j ∈ queue waiters := by
  have erased : queue (waiters.eraseP (·.thread == i)) = (queue waiters).erase i := by
    rw [queue, queue, List.erase_eq_eraseP', List.eraseP_map]
    rfl
  rw [erased]
  exact ⟨nodup.erase i, fun j => nodup.mem_erase_iff⟩

theorem queue_split {taken left : List Waiter} (perm : (taken ++ left).Perm waiters) :
    (queue left).Nodup ∧ (∀ i, i ∈ queue waiters ↔ i ∈ queue taken ∨ i ∈ queue left) ∧
      ∀ i, i ∈ queue taken → i ∉ queue left := by
  have threads : (queue taken ++ queue left).Perm (queue waiters) := by
    rw [queue, queue, ← List.map_append]
    exact perm.map Waiter.thread
  obtain ⟨-, rest, apart⟩ := List.nodup_append.mp (threads.nodup_iff.mpr nodup)
  exact ⟨rest, fun i => threads.mem_iff.symm.trans List.mem_append, fun i first second =>
    apart i first i second rfl⟩

end Queue

structure Inv (s : State) : Prop where
  nodup : (queue s.waiters).Nodup
  listed : ∀ i, i ∈ queue s.waiters ↔ (s.threads i).phase ≠ .outside ∧ (s.threads i).woken = false
  told : ∀ i, (s.threads i).phase = .asleep → (s.threads i).woken = true →
    (s.threads i).notified = true
  thanks : ∀ i, (s.threads i).phase = .leaving .ok → (s.threads i).woken = true

section Steps

variable {s t : State} {i : Nat} {th : Thread}

theorem Inv.put {waiters : List Waiter} (inv : Inv s) (nodup : (queue waiters).Nodup)
    (others : ∀ j, j ≠ i → (j ∈ queue waiters ↔ j ∈ queue s.waiters))
    (here : i ∈ queue waiters ↔ th.phase ≠ .outside ∧ th.woken = false)
    (told : th.phase = .asleep → th.woken = true → th.notified = true)
    (thanks : th.phase = .leaving .ok → th.woken = true) : Inv { put s i th with waiters } := by
  obtain ⟨-, listed, told_before, thanks_before⟩ := inv
  refine ⟨nodup, ?_, ?_, ?_⟩ <;> simp only [Futex.put, Function.update_apply] <;> grind

theorem Inv.stays (inv : Inv s)
    (same : (s.threads i).phase ≠ .outside ∧ (s.threads i).woken = false ↔ th.phase ≠ .outside ∧
      th.woken = false)
    (told : th.phase = .asleep → th.woken = true → th.notified = true)
    (thanks : th.phase = .leaving .ok → th.woken = true) : Inv (Futex.put s i th) :=
  inv.put inv.nodup (fun _ _ => Iff.rfl) ((inv.listed i).trans same) told thanks

theorem Inv.wake (inv : Inv s) {taken left : List Waiter} (perm : (taken ++ left).Perm s.waiters) :
    Inv (wakeAll s taken left) := by
  obtain ⟨nodup, both, apart⟩ := queue_split inv.nodup perm
  obtain ⟨-, listed, told, thanks⟩ := inv
  refine ⟨nodup, ?_, ?_, ?_⟩ <;> simp only [wakeAll, mem_queue_iff_any] <;> intro i <;>
    split_ifs <;> grind

theorem inv_step {e : Event} (inv : Inv s) (next : step s e = some t) : Inv t := by
  revert next
  fun_cases step s e with
  | case1 uaddr word =>
    rintro ⟨⟩
    exact ⟨inv.nodup, inv.listed, inv.told, inv.thanks⟩
  | case3 i | case4 i | case5 i =>
    rintro ⟨⟩
    have listed := inv.listed i
    apply inv.stays <;> grind
  | case6 i =>
    rintro ⟨⟩
    have listed := inv.listed i
    apply inv.put <;> grind [queue, inv.nodup]
  | case8 | case9 =>
    rintro ⟨⟩
    apply inv.stays <;> grind
  | case11 i =>
    rintro ⟨⟩
    apply inv.stays <;> grind [inv.thanks i]
  | case12 i r leaves =>
    rintro ⟨⟩
    have listed := inv.listed i
    split
    · apply inv.stays <;> grind
    · obtain ⟨nodup, erased⟩ := queue_eraseP inv.nodup i
      apply inv.put <;> grind
  | case14 uaddr n =>
    rintro ⟨⟩
    exact inv.wake (takeOff_perm ..)
  | _ => rintro ⟨⟩

theorem woken_of_few {i uaddr n : Nat} (waits : ⟨i, uaddr⟩ ∈ s.waiters)
    (few : (s.waiters.filter fun w => w.uaddr = uaddr ∧ w.thread ≠ i).length < n) :
    i ∈ queue (takeOff uaddr n s.waiters).1 := by
  have perm := takeOff_perm uaddr n s.waiters
  rcases List.mem_append.mp (perm.mem_iff.mpr waits) with taken | left
  · exact List.mem_map_of_mem taken
  · have all := length_of_left left rfl
    by_contra other
    have counted := (perm.filter fun w => w.uaddr = uaddr ∧ w.thread ≠ i).length_eq
    have each : (takeOff uaddr n s.waiters).1.filter (fun w => w.uaddr = uaddr ∧ w.thread ≠ i) =
        (takeOff uaddr n s.waiters).1 := by
      refine List.filter_eq_self.mpr fun w taken => decide_eq_true ⟨uaddr_of_taken taken, ?_⟩
      rintro rfl
      exact other (List.mem_map_of_mem taken)
    rw [List.filter_append, List.length_append, each, all] at counted
    omega

end Steps

/-- What `espix_um_futex_wake` does to the threads from here. -/
structure Wakes (s t : State) (uaddr : Nat) (n : Int) : Prop where
  most : ∃ woken : List Nat, woken.length ≤ n.toNat ∧
    ∀ i, (t.threads i).woken = true → (s.threads i).woken = false → i ∈ woken
  waiting : ∀ i, (t.threads i).woken = true → (s.threads i).woken = false → ⟨i, uaddr⟩ ∈ s.waiters
  reaches : ∀ i, ⟨i, uaddr⟩ ∈ s.waiters →
    ((s.waiters.filter fun w => w.uaddr = uaddr ∧ w.thread ≠ i).length : Int) < n →
    (t.threads i).woken = true

theorem wakes_step {s t : State} {uaddr : Nat} {n : Int} (next : step s (.wake uaddr n) = some t) :
    Wakes s t uaddr n := by
  cases next
  have taken :
    ∀ i,
    ((wakeAll s (takeOff uaddr n.toNat s.waiters).1
      (takeOff uaddr n.toNat s.waiters).2).threads i).woken =
      true → (s.threads i).woken = false → i ∈ queue (takeOff uaddr n.toNat s.waiters).1 := by
    intro i now before
    simp only [wakeAll, mem_queue_iff_any] at now
    split at now
    · assumption
    · rw [before] at now
      cases now
  refine ⟨⟨_, ?_, taken⟩, fun i now before => ?_, fun i waits few => ?_⟩
  · rw [queue, List.length_map]
    exact length_takeOff ..
  · obtain ⟨w, member, rfl⟩ := List.mem_map.mp (taken i now before)
    rw [← uaddr_of_taken member]
    exact (takeOff_perm ..).mem_iff.mp (List.mem_append_left _ member)
  · simp only [wakeAll, mem_queue_iff_any]
    rw [if_pos (woken_of_few waits (by omega))]

theorem leaves_list {s t : State} {e : Event} {i : Nat} (inv : Inv s) (next : step s e = some t)
    (before : i ∈ queue s.waiters)
    (after : i ∉ queue t.waiters) : (∃ uaddr n, e = .wake uaddr n) ∨ e = .finish i := by
  cases e with
  | wake uaddr n => exact .inl ⟨uaddr, n, rfl⟩
  | finish j =>
    by_contra other
    have apart : i ≠ j := fun same => other (.inr (same ▸ rfl))
    simp only [step] at next
    split at next
    · cases next
      split at after
      · exact after before
      · refine after ?_
        change i ∈ queue (s.waiters.eraseP _)
        exact ((queue_eraseP inv.nodup j).2 i).mpr ⟨apart, before⟩
    · cases next
  | _ => grind [step, put, returned, queue]

/-- From any state that is reached: a wake takes off the list at most as many as it is told, all of
them waiters on its address, and each one that has fewer others there; who is woken does not sleep
on; a wait returns success exactly when its waiter is off the list by then, which only a wake can
have done; and nobody is on the list who is not waiting. -/
theorem futex_exact {words : Nat → Option Nat} {es : List Event} {s : State}
    (done : run step (boot words) es = some s) :
    (∀ uaddr n t, step s (.wake uaddr n) = some t → Wakes s t uaddr n) ∧
      (∀ i, (s.threads i).woken = true → (s.threads i).phase = .asleep →
        (s.threads i).notified = true) ∧
      (∀ i t, step s (.finish i) = some t →
        ((t.threads i).result = some .ok ↔ i ∉ queue s.waiters)) ∧
      (∀ i uaddr val timed t, step s (.wait i uaddr val timed) = some t →
        (t.threads i).result ≠ some .ok) ∧
      (∀ e t i, step s e = some t → i ∈ queue s.waiters → i ∉ queue t.waiters →
        (∃ uaddr n, e = .wake uaddr n) ∨ e = .finish i) ∧
      ∀ i, i ∈ queue s.waiters ↔ (s.threads i).phase ≠ .outside ∧ (s.threads i).woken = false := by
  have start : Inv (boot words) := ⟨List.nodup_nil, by simp [boot, queue], nofun, nofun⟩
  have inv := run_invariant (fun _ _ _ => inv_step) done start
  refine ⟨fun _ _ _ => wakes_step, fun i woken asleep => inv.told i asleep woken,
    fun i t next => ?_, ?_,
    fun _ _ _ => leaves_list inv, inv.listed⟩
  · have listed := inv.listed i
    have thanks := inv.thanks i
    simp only [step] at next
    split at next
    · cases next
      split <;> simp_all [returned, put]
    · cases next
  · grind [step, threads_put, returned]

/-- Two threads wait at one address and a third at another, and one is woken. -/
def oneWake : List Event :=
  [.wait 0 4 7 false, .turn 0 false false, .wait 1 4 7 false, .turn 1 false false,
    .wait 2 8 7 false, .wake 4 1, .rouse 1, .turn 1 false false]

theorem futex_exact_woken :
    ∃ s t, run step (boot fun _ => some 7) oneWake = some s ∧ step s (.finish 1) = some t ∧
      queue s.waiters = [2, 0] ∧ ((t.threads 1).result = some .ok ↔ 1 ∉ queue s.waiters) :=
  ⟨_, _, rfl, rfl, rfl,
    (futex_exact (show run step (boot fun _ => some 7) oneWake = some _ from rfl)).2.2.1 1 _ rfl⟩

end Espix.Umode.Futex
