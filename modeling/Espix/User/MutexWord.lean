import Espix.Lib.Run
import Mathlib.Logic.Function.Basic

/-! The mutex word of `user/libespix/pthread.c`: 0 is free, 1 held, 2 held with waiters.

The futex under it is given: a wait blocks if the word is still 2, and a wake of one releases one of
the threads that are blocked, if there is one. -/

namespace Espix.User.MutexWord

open Lib.Run

/-- Where a thread is in `word_lock` and `word_unlock`; `timed` is a lock with a deadline. -/
inductive Phase
  | outside
  | swapping (timed : Bool)
  /-- Has seen a word that is not free, and is about to look at the deadline and wait. -/
  | looping (timed : Bool)
  | blocked (timed : Bool)
  | holding
  | waking
  deriving DecidableEq

structure State where
  word : Nat
  threads : Nat → Phase
  queue : List Nat

def boot : State := ⟨0, fun _ => .outside, []⟩

inductive Event
  | lock (i : Nat) (timed : Bool)
  | trylock (i : Nat)
  | swap (i : Nat)
  | expire (i : Nat)
  | wait (i : Nat)
  /-- A wait ends that no wake has ended: its time is over, or a signal came. -/
  | giveUp (i : Nat)
  | unlock (i : Nat)
  | wake (i : Nat) (released : Option Nat)

def put (s : State) (i word : Nat) (phase : Phase) (queue : List Nat) : State :=
  ⟨word, Function.update s.threads i phase, queue⟩

def step (s : State) : Event → Option State
  | .lock i timed =>
    if s.threads i = .outside then
      some <|
        if s.word = 0 then put s i 1 .holding s.queue
        else put s i s.word (if s.word = 2 then .looping timed else .swapping timed) s.queue
    else none
  | .trylock i =>
    if s.threads i = .outside then some (if s.word = 0 then put s i 1 .holding s.queue else s)
      else none
  | .swap i =>
    match s.threads i with
    | .swapping timed => some (put s i 2 (if s.word = 0 then .holding else .looping timed) s.queue)
    | _ => none
  | .expire i =>
      if s.threads i = .looping true then some (put s i s.word .outside s.queue) else none
  | .wait i =>
    match s.threads i with
    | .looping timed =>
      some (if s.word = 2 then
        put s i 2 (.blocked timed) (i :: s.queue) else put s i s.word (.swapping timed) s.queue)
    | _ => none
  | .giveUp i =>
    match s.threads i with
    | .blocked timed => some (put s i s.word (.swapping timed) (s.queue.erase i))
    | _ => none
  | .unlock i =>
    if s.threads i = .holding then
      some (put s i 0 (if s.word = 2 then .waking else .outside) s.queue) else none
  | .wake i released =>
    if s.threads i = .waking then
      match released with
      | none => if s.queue = [] then some (put s i s.word .outside s.queue) else none
      | some j =>
        match s.threads j with
        | .blocked timed =>
          let rest := s.queue.erase j
          some (put (put s j s.word (.swapping timed) rest) i s.word .outside rest)
        | _ => none
    else none

/-- The thread is about to take the word, or to wake one that will. -/
def Acts (s : State) (i : Nat) : Prop :=
  s.threads i = .waking ∨ ∃ timed, s.threads i = .swapping timed

def Stuck (s : State) : Prop := s.word = 0 ∧ (∃ i timed, s.threads i = .blocked timed) ∧
    ∀ i, ¬Acts s i

structure Inv (s : State) : Prop where
  alone : ∀ i j, s.threads i = .holding → s.threads j = .holding → i = j
  held : ∀ i, s.threads i = .holding → s.word ≠ 0
  listed : ∀ i timed, s.threads i = .blocked timed → i ∈ s.queue
  owed : s.queue ≠ [] → s.word = 2 ∨ ∃ i, Acts s i

section Steps

variable {s t : State} {i word : Nat} {phase : Phase} {queue : List Nat}

theorem Inv.put (inv : Inv s) (takes : phase = .holding → s.word = 0 ∧ word ≠ 0)
    (frees : word = 0 → s.word = 0 ∨ s.threads i = .holding)
    (lists : ∀ j, j ≠ i → j ∈ s.queue → j ∈ queue)
    (blocks : ∀ timed, phase = .blocked timed → i ∈ queue)
    (owed : queue ≠ [] → word = 2 ∨ (∃ j, j ≠ i ∧ Acts s j) ∨ phase = .waking ∨
      ∃ timed, phase = .swapping timed) :
    Inv (put s i word phase queue) := by
  have free : s.word = 0 → ∀ j, s.threads j ≠ .holding := fun zero j holds => inv.held j holds zero
  refine ⟨?alone, ?held, ?listed, ?owed⟩ <;> simp only [MutexWord.put, Acts, Function.update_apply]
  case alone => have := inv.alone; grind
  case held => have := inv.alone; have := inv.held; grind
  case listed => have := inv.listed; grind
  case owed =>
    intro some_wait
    rcases owed some_wait with contended | ⟨j, apart, acts⟩ | acts
    · exact .inl contended
    · exact .inr ⟨j, by simpa [apart, Acts] using acts⟩
    · exact .inr ⟨i, by simpa using acts⟩

theorem Inv.others (inv : Inv s) (idle : ¬Acts s i) (some_wait : s.queue ≠ []) :
    s.word = 2 ∨ ∃ j, j ≠ i ∧ Acts s j := by
  rcases inv.owed some_wait with contended | ⟨j, acts⟩
  · exact .inl contended
  · exact .inr ⟨j, fun same => idle (same ▸ acts), acts⟩

theorem inv_step {e : Event} (inv : Inv s) (next : step s e = some t) : Inv t := by
  revert next
  fun_cases step s e with
  | case1 i timed before | case9 i timed before =>
    rintro ⟨⟩
    have others := inv.others (i := i) (by simp [Acts, before])
    split
    · apply inv.put <;> grind
    · apply inv.put <;> grind
  | case3 i before =>
    rintro ⟨⟩
    have others := inv.others (i := i) (by simp [Acts, before])
    split
    · apply inv.put <;> grind
    · exact inv
  | case5 | case11 | case15 =>
    rintro ⟨⟩
    apply inv.put <;> grind
  | case7 i before | case13 i before =>
    rintro ⟨⟩
    have others := inv.others (i := i) (by simp [Acts, before])
    apply inv.put <;> grind
  | case17 i wakes j timed blocks rest =>
    rintro ⟨⟩
    have apart : j ≠ i := by
      rintro rfl
      cases blocks.symm.trans wakes
    have released : Inv (put s j s.word (.swapping timed) rest) := by apply inv.put <;> grind
    have acts : Acts (put s j s.word (.swapping timed) rest) j :=
      .inr ⟨timed, Function.update_self ..⟩
    apply released.put <;> grind [MutexWord.put]
  | _ => rintro ⟨⟩

end Steps

/-- At most one thread holds the mutex, and while it is free nobody is blocked unless a thread is
about to take it or to wake one. -/
theorem mutex_word_safe {es : List Event} {s : State} (done : run step boot es = some s) :
    (∀ i j, s.threads i = .holding → s.threads j = .holding → i = j) ∧ ¬Stuck s := by
  have start : Inv boot := ⟨nofun, nofun, nofun, fun some_wait => absurd rfl some_wait⟩
  have inv := run_invariant (fun _ _ _ => inv_step) done start
  refine ⟨inv.alone, fun ⟨free, ⟨i, timed, blocked⟩, nobody⟩ => ?_⟩
  rcases inv.owed (List.ne_nil_of_mem (inv.listed i timed blocked)) with contended | ⟨j, acts⟩
  · rw [free] at contended
    cases contended
  · exact nobody j acts

def handedOn : List Event :=
  [.lock 0 false, .lock 1 true, .swap 1, .wait 1, .lock 2 false, .wait 2, .giveUp 1,
    .swap 1, .expire 1, .unlock 0,
    .wake 0 (some 2), .swap 2]

theorem mutex_word_handed_on : ∃ s, run step boot handedOn = some s ∧ s.threads 2 = .holding ∧
    (∀ i j, s.threads i = .holding → s.threads j = .holding → i = j) ∧ ¬Stuck s :=
  ⟨_, rfl, rfl, mutex_word_safe (show run step boot handedOn = some _ from rfl)⟩

end Espix.User.MutexWord
