import Espix.Lib.Run
import Mathlib.Logic.Function.Basic

/-! Stop and continue.

Every task of a stopped process parks itself in `sig_park` on one binary semaphore, which a
continuing signal gives once. A task that wakes hands it on, so that one give wakes them all. -/

namespace Espix.Proc.Park

open Lib.Run

inductive Phase
  | outside
  | entered
  | tidied
  /-- Has seen the stop again, and is about to take the semaphore. -/
  | parking
  | blocked
  | woken
  /-- Has seen that the stop is lifted, and is about to give. -/
  | passing
  | dispatching
  deriving DecidableEq

structure State where
  stopReq : Bool
  made : Bool
  token : Bool
  /-- Signallers out of the table lock and about to give. -/
  givers : Nat
  tasks : Nat → Phase

def boot : State := ⟨false, false, false, 0, fun _ => .outside⟩

inductive Event
  /-- `espix_proc_signal` under the table lock: a signal that stops, with memory for the semaphore
  or none, or any other. -/
  | stop (memory : Bool)
  | signal
  | give
  | test (w : Nat)
  | tidy (w : Nat)
  | recheck (w : Nat)
  | take (w : Nat)
  | block (w : Nat)
  | wake (w : Nat)
  | pass (w : Nat)

def moved (s : State) (w : Nat) (phase : Phase) : State :=
  { s with tasks := Function.update s.tasks w phase }

def step (s : State) : Event → Option State
  | .stop memory => some (if s.made || memory then { s with made := true, stopReq := true } else s)
  -- `kill_unwind` lifts a stop the same way
  | .signal =>
      some { s with stopReq := false, givers := s.givers + if s.stopReq && s.made then 1 else 0 }
  | .give => if s.givers = 0 then none else some { s with givers := s.givers - 1, token := true }
  | .test w =>
    if s.tasks w = .outside ∨ s.tasks w = .dispatching then
      some (moved s w (if s.stopReq then .entered else .outside))
    else none
  | .tidy w =>
    if s.tasks w = .entered then
      -- without a semaphore there is nothing to park on
      some (if s.made then
        moved { s with token := false } w .tidied else moved { s with stopReq := false } w .outside)
    else none
  | .recheck w =>
      if s.tasks w = .tidied then some (moved s w (if s.stopReq then .parking else .outside))
        else none
  | .take w =>
    if (s.tasks w = .parking ∨ s.tasks w = .blocked) ∧ s.token then
      some (moved { s with token := false } w .woken)
    else none
  | .block w => if s.tasks w = .parking ∧ s.token = false then some (moved s w .blocked) else none
  | .wake w =>
      if s.tasks w = .woken then some (moved s w (if s.stopReq then .dispatching else .passing))
        else none
  | .pass w =>
      if s.tasks w = .passing then some (moved { s with token := true } w .dispatching) else none

/-- The semaphore is available, or somebody is about to give it. -/
def Supplied (s : State) : Prop :=
  s.token = true ∨ 0 < s.givers ∨ ∃ w, s.tasks w = .woken ∨ s.tasks w = .passing

def Lost (s : State) : Prop := s.stopReq = false ∧ (∃ w, s.tasks w = .blocked) ∧ ¬Supplied s

def Safe (s : State) : Prop := ¬Lost s ∧ ∀ w t, step s (.block w) = some t → ¬Lost t

/-- A task that saw a stop throws away the token of the signal that has lifted it since, which was
the last one, while another task is parked. -/
def Discards (s : State) : Event → Prop
  | .tidy w =>
    s.tasks w = .entered ∧ s.stopReq = false ∧ s.givers = 0 ∧
      (∀ v, s.tasks v ≠ .woken ∧ s.tasks v ≠ .passing) ∧
      ∃ v, s.tasks v = .parking ∨ s.tasks v = .blocked
  | _ => False

structure Owed (s : State) : Prop where
  made : s.stopReq = true → s.made = true
  entered : ∀ w, s.tasks w = .entered → s.made = true
  supplied : s.stopReq = false → (∃ w, s.tasks w = .parking ∨ s.tasks w = .blocked) → Supplied s

variable {w v : Nat} {phase : Phase} {e : Event}

section Steps

variable {s t : State}

theorem tasks_moved : (moved s w phase).tasks v = if v = w then phase else s.tasks v :=
  Function.update_apply ..

theorem Owed.moves (owed : Owed s) {token : Bool} (entered : phase = .entered → s.made = true)
    (parks : phase = .parking → s.stopReq = true) (blocks : phase = .blocked → s.tasks w = .parking)
    (supply : s.stopReq = false → (∃ v, s.tasks v = .parking ∨ s.tasks v = .blocked) → Supplied s →
      Supplied (moved { s with token } w phase)) : Owed (moved { s with token } w phase) := by
  refine ⟨owed.made, fun v at_it => ?_, fun lifted ⟨v, waits⟩ => ?_⟩
  · rw [tasks_moved] at at_it
    split at at_it
    · exact entered at_it
    · exact owed.entered v at_it
  · have waited : ∃ v, s.tasks v = .parking ∨ s.tasks v = .blocked := by
      rw [tasks_moved] at waits
      split at waits
      · rcases waits with parking | blocked
        · rw [show s.stopReq = false from lifted] at parks
          cases parks parking
        · exact ⟨w, .inl (blocks blocked)⟩
      · exact ⟨v, waits⟩
    exact supply lifted waited (owed.supplied lifted waited)

theorem Supplied.moved (supplied : Supplied s) (before : s.tasks w ≠ .woken ∧
    s.tasks w ≠ .passing) :
    Supplied (moved s w phase) := by
  rcases supplied with token | givers | ⟨giver, gives⟩
  · exact .inl token
  · exact .inr (.inl givers)
  · have differs : giver ≠ w := by
      rintro rfl
      exact gives.elim before.1 before.2
    exact .inr (.inr ⟨giver, by rw [tasks_moved, if_neg differs]; exact gives⟩)

theorem owed_step (owed : Owed s) (kept : ¬Discards s e) (stepped : step s e = some t) :
    Owed t := by
  cases e
  case stop memory =>
    cases stepped
    split
    · exact ⟨fun _ => rfl, fun _ _ => rfl, nofun⟩
    · exact owed
  case signal =>
    cases stepped
    refine ⟨nofun, owed.entered, fun _ waits => ?_⟩
    cases stopped : s.stopReq with
    | true => exact .inr (.inl (by simp [owed.made stopped]))
    | false =>
      rcases owed.supplied stopped waits with token | givers | gives
      · exact .inl token
      · exact .inr (.inl (by simpa [stopped] using givers))
      · exact .inr (.inr gives)
  case give =>
    dsimp only [step] at stepped
    split at stepped
    · cases stepped
    · cases stepped
      exact ⟨owed.made, owed.entered, fun _ _ => .inl rfl⟩
  -- the others are a waiter's, from where it stands
  all_goals obtain ⟨before, ⟨⟩⟩ := Option.ite_none_right_eq_some.mp stepped
  case test w =>
    refine owed.moves ?_ ?_ ?_ (fun _ _ supplied => supplied.moved ?_) <;> grind [owed.made]
  case tidy w =>
    rw [if_pos (owed.entered w before)]
    refine owed.moves nofun nofun nofun fun lifted waits _ => Supplied.moved ?_ (by simp [before])
    by_contra dry
    refine kept ⟨before, lifted, ?_, fun v => ⟨fun woken => ?_, fun passing => ?_⟩, waits⟩
    · exact Nat.eq_zero_of_not_pos fun givers => dry (.inr (.inl givers))
    · exact dry (.inr (.inr ⟨v, .inl woken⟩))
    · exact dry (.inr (.inr ⟨v, .inr passing⟩))
  case recheck w =>
    refine owed.moves ?_ ?_ ?_ (fun _ _ supplied => supplied.moved ?_) <;> grind
  case take w =>
    exact owed.moves nofun nofun nofun fun _ _ _ =>
      .inr (.inr ⟨w, .inl (by rw [tasks_moved, if_pos rfl])⟩)
  case block w =>
    exact owed.moves nofun nofun (fun _ => before.1) fun _ _ supplied =>
      supplied.moved (by simp [before.1])
  case wake w =>
    refine owed.moves ?_ ?_ ?_ fun lifted _ _ => .inr (.inr ⟨w, .inr ?_⟩)
    · split <;> nofun
    · split <;> nofun
    · split <;> nofun
    · rw [tasks_moved, if_pos rfl, lifted]
      rfl
  case pass w =>
    exact owed.moves nofun nofun nofun fun _ _ _ => .inl rfl

theorem Owed.safe (owed : Owed s) : Safe s := by
  have never : ∀ {u : State}, Owed u → ¬Lost u := fun owed ⟨lifted, ⟨w, blocked⟩, dry⟩ =>
    dry (owed.supplied lifted ⟨w, .inr blocked⟩)
  exact ⟨never owed, fun w t stepped => never (owed_step owed id stepped)⟩

theorem discards_lost (owed : Owed s) (discards : Discards s e) (stepped : step s e = some t) :
    ¬Safe t := by
  rintro ⟨now, next⟩
  cases e with
  | tidy w =>
    obtain ⟨entered, lifted, quiet, dry, v, waits⟩ := discards
    have apart : v ≠ w := by
      rintro rfl
      rw [entered] at waits
      rcases waits with impossible | impossible <;> cases impossible
    dsimp only [step] at stepped
    rw [if_pos entered, if_pos (owed.entered w entered)] at stepped
    cases stepped
    have still : (moved { s with token := false } w .tidied).tasks v = s.tasks v := by
      rw [tasks_moved, if_neg apart]
    have gone : ∀ u, (moved { s with token := false } w .tidied).tasks u ≠ .woken ∧
        (moved { s with token := false } w .tidied).tasks u ≠ .passing := by
      intro u
      rw [tasks_moved]
      split
      · exact ⟨nofun, nofun⟩
      · exact dry u
    rcases waits with parking | blocked
    · have stepped : step (moved { s with token := false } w .tidied) (.block v) =
          some (moved (moved { s with token := false } w .tidied) v .blocked) :=
            if_pos ⟨still.trans parking, rfl⟩
      refine next v _ stepped ⟨lifted, ⟨v, by rw [tasks_moved, if_pos rfl]⟩, ?_⟩
      rintro (token | givers | ⟨u, gives⟩)
      · cases token
      · exact absurd quiet (Nat.ne_of_gt givers)
      · rw [tasks_moved] at gives
        split at gives
        · rcases gives with impossible | impossible <;> cases impossible
        · exact gives.elim (gone u).1 (gone u).2
    · refine now ⟨lifted, ⟨v, still.trans blocked⟩, ?_⟩
      rintro (token | givers | ⟨u, gives⟩)
      · cases token
      · exact absurd quiet (Nat.ne_of_gt givers)
      · exact gives.elim (gone u).1 (gone u).2
  | _ => exact discards.elim

end Steps

theorem owed_boot : Owed boot := by
  refine ⟨nofun, nofun, fun _ ⟨w, waits⟩ => ?_⟩
  rcases waits with impossible | impossible <;> cases impossible

/-- No task is lost, at any moment of the run, exactly where none throws away the last token of a
signal that has lifted the stop while another one is parked. -/
theorem no_task_lost_iff {es : List Event} {s : State} (done : run step boot es = some s) :
    (∀ before t, before <+: es → run step boot before = some t → Safe t) ↔
      Along step (fun s e => ¬Discards s e) boot es :=
  safe_throughout_iff (fun _ _ _ owed kept stepped => owed_step owed kept stepped)
  (fun _ owed => owed.safe)
    (fun _ _ _ owed discards stepped => discards_lost owed discards stepped) owed_boot done

/-- Two tasks are parked, and each passes the signal on. -/
def continued : List Event :=
  [.stop true, .test 0, .tidy 0, .recheck 0, .block 0, .test 1, .tidy 1, .recheck 1, .block 1,
    .signal, .give, .take 0, .wake 0, .pass 0, .take 1, .wake 1, .pass 1]

theorem no_task_lost_both : (run step boot continued).isSome ∧
    ∀ before t, before <+: continued → run step boot before = some t → Safe t := by
  obtain ⟨s, done⟩ : ∃ s, run step boot continued = some s := ⟨_, rfl⟩
  refine ⟨by rw [done]; rfl, (no_task_lost_iff done).mpr ?_⟩
  simp [continued, Along, Discards, step, boot, moved]

/-- The first task is parked, the second has just seen the stop when it is lifted, and throws away
the token meant for the first. -/
def tokenThrownAway : List Event :=
  [.stop true, .test 0, .tidy 0, .recheck 0, .block 0, .test 1, .signal, .give, .tidy 1, .recheck 1]

theorem task_lost : ∃ s, run step boot tokenThrownAway = some s ∧ Lost s := by
  refine ⟨_, rfl, rfl, ⟨0, rfl⟩, ?_⟩
  rintro (token | givers | ⟨w, gives⟩)
  · cases token
  · cases givers
  · match w with
    | 0 | 1 | _ + 2 => rcases gives with impossible | impossible <;> cases impossible

end Espix.Proc.Park
