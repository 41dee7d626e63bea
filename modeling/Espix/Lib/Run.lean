import Mathlib.Data.Option.Basic

/-! Runs of a partial step function.

An invariant rule for whole runs, with or without a condition that every step of
the run meets in the state it is taken from. -/

namespace Espix.Lib.Run

variable {S E : Type*} {step : S → E → Option S}

def run (step : S → E → Option S) : S → List E → Option S
  | s, [] => some s
  | s, e :: es => (step s e).bind fun t => run step t es

/-- Every step of the run meets the condition in the state it is taken from. -/
def Along (step : S → E → Option S) (ok : S → E → Prop) : S → List E → Prop
  | _, [] => True
  | s, e :: es => ok s e ∧ ∀ t, step s e = some t → Along step ok t es

variable {ok : S → E → Prop} {s : S} {es : List E}

theorem Along.mem {all : List E} (along : Along step ok s es)
    (listed : es ⊆ all) : Along step (fun s e => ok s e ∧ e ∈ all) s es := by
  induction es generalizing s with
  | nil => trivial
  | cons e es ih =>
    obtain ⟨here, later⟩ := List.cons_subset.mp listed
    exact ⟨⟨along.1, here⟩, fun t next => ih (along.2 t next) later⟩

theorem Along.append_left {fs : List E} (along : Along step ok s (es ++ fs)) :
    Along step ok s es := by
  induction es generalizing s with
  | nil => trivial
  | cons e es ih => exact ⟨along.1, fun t taken => ih (along.2 t taken)⟩

theorem Along.of_forall {ok : E → Prop} (each : ∀ e ∈ es, ok e) (s : S) :
    Along step (fun _ e => ok e) s es := by
  induction es generalizing s with
  | nil => trivial
  | cons e es ih =>
    obtain ⟨here, later⟩ := List.forall_mem_cons.mp each
    exact ⟨here, fun t _ => ih later t⟩

variable {P : S → Prop}

/-- A condition that follows from another where an invariant holds, which that other keeps. -/
theorem Along.imp {other : S → E → Prop} (keep : ∀ s e t, P s → ok s e → step s e = some t → P t)
    (follows : ∀ s e, P s → ok s e → other s e) (start : P s)
    (along : Along step ok s es) : Along step other s es := by
  induction es generalizing s with
  | nil => trivial
  | cons e es ih =>
    refine ⟨follows s e start along.1, fun t next => ?_⟩
    exact ih (keep s e t start along.1 next) (along.2 t next)

/-- Two conditions that are the same where an invariant holds, which a third one keeps. -/
theorem Along.congr {within other : S → E → Prop}
    (keep : ∀ s e t, P s → within s e → step s e = some t → P t)
    (same : ∀ s e, P s → within s e → (ok s e ↔ other s e)) (start : P s)
    (along : Along step within s es) : Along step ok s es ↔ Along step other s es := by
  induction es generalizing s with
  | nil => exact Iff.rfl
  | cons e es ih =>
    have later : ∀ t, step s e = some t → (Along step ok t es ↔ Along step other t es) :=
      fun t next =>
      ih (keep s e t start along.1 next) (along.2 t next)
    constructor
    · intro holds
      exact ⟨(same s e start along.1).mp holds.1, fun t next => (later t next).mp (holds.2 t next)⟩
    · intro holds
      exact ⟨(same s e start along.1).mpr holds.1, fun t next =>
        (later t next).mpr (holds.2 t next)⟩

variable {t : S}

theorem run_cons {e : E} (done : run step s (e :: es) = some t) :
    ∃ u, step s e = some u ∧ run step u es = some t := by
  simpa [run, Option.bind_eq_some_iff] using done

theorem run_append (s : S) (es fs : List E) :
    run step s (es ++ fs) = (run step s es).bind fun t => run step t fs := by
  induction es generalizing s with
  | nil => rfl
  | cons e es ih => simp only [List.cons_append, run, ih, Option.bind_assoc]

theorem run_invariant_along (keep : ∀ s e t, P s → ok s e → step s e = some t → P t)
    (along : Along step ok s es) (done : run step s es = some t) (start : P s) : P t := by
  induction es generalizing s with
  | nil =>
    cases done
    exact start
  | cons e es ih =>
    obtain ⟨u, first, rest⟩ := run_cons done
    exact ih (along.2 u first) rest (keep s e u start along.1 first)

/-- Where a bad step breaks safety at once and the others keep an invariant that implies it, a run
is safe throughout exactly when it takes no bad step. -/
theorem safe_throughout_iff {bad : S → E → Prop} {Safe : S → Prop}
    (keep : ∀ s e t, P s → ¬bad s e → step s e = some t → P t) (safe : ∀ s, P s → Safe s)
    (breaks : ∀ s e t, P s → bad s e → step s e = some t → ¬Safe t) (start : P s)
    (done : run step s es = some t) :
    (∀ before u, before <+: es → run step s before = some u → Safe u) ↔
    Along step (fun s e => ¬bad s e) s es := by
  induction es generalizing s with
  | nil =>
    refine ⟨fun _ => trivial, fun _ before u begins reached => ?_⟩
    cases List.prefix_nil.mp begins
    cases reached
    exact safe s start
  | cons e es ih =>
    obtain ⟨u, first, rest⟩ := run_cons done
    constructor
    · intro throughout
      have fine : ¬bad s e := fun bad =>
        breaks s e u start bad first (throughout [e] u ⟨es, rfl⟩ (by rw [run, first]; rfl))
      refine ⟨fine, fun v stepped => ?_⟩
      cases first.symm.trans stepped
      refine (ih (keep s e u start fine first) rest).mp fun before v begins reached => ?_
      refine throughout (e :: before) v (List.cons_prefix_cons.mpr ⟨rfl, begins⟩) ?_
      rw [run, first]
      exact reached
    · intro along before v begins reached
      cases before with
      | nil =>
        cases reached
        exact safe s start
      | cons f before =>
        obtain ⟨rfl, later⟩ := List.cons_prefix_cons.mp begins
        obtain ⟨w, stepped, reached⟩ := run_cons reached
        cases first.symm.trans stepped
        exact (ih (keep s f u start along.1 first) rest).mpr
          (along.2 u first) before v later reached

theorem run_invariant (keep : ∀ s e t, P s → step s e = some t → P t)
    (done : run step s es = some t) (start : P s) : P t := by
  induction es generalizing s with
  | nil =>
    cases done
    exact start
  | cons e es ih =>
    obtain ⟨u, first, rest⟩ := run_cons done
    exact ih rest (keep s e u start first)

def Path {A : Type*} (next : A → E → A → Prop) : A → List E → A → Prop
  | a, [], b => a = b
  | a, e :: es, b => ∃ c, next a e c ∧ Path next c es b

/-- Refinement by an abstraction function, under an invariant. -/
theorem run_refines {A : Type*} {next : A → E → A → Prop} (abs : S → A)
    (each : ∀ s e t, P s → step s e = some t → P t ∧ next (abs s) e (abs t))
    (done : run step s es = some t) (start : P s) : Path next (abs s) es (abs t) := by
  induction es generalizing s with
  | nil =>
    cases done
    rfl
  | cons e es ih =>
    obtain ⟨u, first, rest⟩ := run_cons done
    obtain ⟨kept, simulated⟩ := each s e u start first
    exact ⟨abs u, simulated, ih rest kept⟩

end Espix.Lib.Run
