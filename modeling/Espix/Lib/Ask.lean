import Mathlib.Data.List.Basic

/-! Programs that ask their surroundings and go on with the answers.

What holds of a program holds for every course of answers: of what was asked and answered, in
order, and of the result. -/

namespace Espix.Lib.Ask

inductive Prog {Q : Type} (A : Q → Type) (R : Type) : Type
  | ret (r : R) : Prog A R
  | ask (q : Q) (next : A q → Prog A R) : Prog A R

variable {Q : Type} {A : Q → Type} {R S : Type}

abbrev Trace (A : Q → Type) := List (Sigma A)

def bind : Prog A R → (R → Prog A S) → Prog A S
  | .ret r, k => k r
  | .ask q next, k => .ask q fun a => bind (next a) k

instance : Monad (Prog A) where
  pure := Prog.ret
  bind := bind

def ask (q : Q) : Prog A (A q) := .ask q .ret

def Always : Prog A R → (Trace A → R → Prop) → Prop
  | .ret r, P => P [] r
  | .ask q next, P => ∀ a, Always (next a) fun trace r => P (⟨q, a⟩ :: trace) r

def Asks (allowed : Q → Prop) : Prog A R → Prop
  | .ret _ => True
  | .ask q next => allowed q ∧ ∀ a, Asks allowed (next a)

def follow (answers : (q : Q) → A q) : Prog A R → Trace A × R
  | .ret r => ([], r)
  | .ask q next =>
    let rest := follow answers (next (answers q))
    (⟨q, answers q⟩ :: rest.1, rest.2)

variable {k : R → Prog A S} {allowed : Q → Prop}

section Rules

variable {p : Prog A R} {P P' : Trace A → R → Prop}

theorem always_bind {P : Trace A → S → Prop} :
    Always (p >>= k) P ↔
      Always p fun trace r => Always (k r) fun later s => P (trace ++ later) s := by
  induction p generalizing P with
  | ret r => exact Iff.rfl
  | ask q next ih => exact forall_congr' fun a => ih a

theorem always_ask {q : Q} {k : A q → Prog A S} {P : Trace A → S → Prop}
    (each : ∀ a, Always (k a) fun trace s => P (⟨q, a⟩ :: trace) s) : Always (ask q >>= k) P := each

theorem always_of_forall (each : ∀ trace r, P trace r) : Always p P := by
  induction p generalizing P with
  | ret r => exact each [] r
  | ask q next ih => exact fun a => ih a fun trace r => each _ r

theorem Always.imp (always : Always p P) (follows : ∀ trace r, P trace r → P' trace r) :
    Always p P' := by
  induction p generalizing P P' with
  | ret r => exact follows [] r always
  | ask q next ih => exact fun a => ih a (always a) fun trace r => follows _ r

theorem asks_pure (r : R) : Asks allowed (pure r : Prog A R) := trivial

theorem asks_ask {q : Q} (good : allowed q) : Asks allowed (ask q : Prog A (A q)) :=
  ⟨good, fun _ => trivial⟩

theorem Asks.bind (first : Asks allowed p) (rest : ∀ r, Asks allowed (k r)) :
    Asks allowed (p >>= k) := by
  induction p with
  | ret r => exact rest r
  | ask q next ih => exact ⟨first.1, fun a => ih a (first.2 a)⟩

theorem asks_then {q : Q} {k : A q → Prog A R} (good : allowed q) (rest : ∀ a, Asks allowed (k a)) :
    Asks allowed (ask q >>= k) :=
  Asks.bind (asks_ask good) rest

theorem Asks.always (asks : Asks allowed p) :
    Always p fun trace _ => ∀ event ∈ trace, allowed event.1 := by
  induction p with
  | ret r => exact fun _ impossible => absurd impossible List.not_mem_nil
  | ask q next ih =>
    exact fun a => (ih a (asks.2 a)).imp fun _ _ later => List.forall_mem_cons.mpr ⟨asks.1, later⟩

theorem Always.follow (always : Always p P) (answers : (q : Q) → A q) :
    P (follow answers p).1 (follow answers p).2 := by
  induction p generalizing P with
  | ret r => exact always
  | ask q next ih => exact ih (answers q) (always (answers q))

theorem follow_ask (answers : (q : Q) → A q) (q : Q) (k : A q → Prog A S) :
    follow answers (ask q >>= k) =
      (⟨q, answers q⟩ :: (follow answers (k (answers q))).1, (follow answers (k (answers q))).2) :=
  rfl

theorem answer_of_mem_follow
    {answers : (q : Q) → A q} {event : Sigma A} (asked : event ∈ (follow answers p).1) :
    event.2 = answers event.1 := by
  induction p with
  | ret r => cases asked
  | ask q next ih =>
    cases asked with
    | head => rfl
    | tail _ later => exact ih (answers q) later

end Rules

section Machine

variable {H : Type} (machine : H → (q : Q) → A q → Option H)

/-- The run with these answers, if they are those of a machine that changes as it answers. -/
def exec [DecidableEq Q] : Prog A R → H → Trace A → Option (H × R)
  | .ret r, h, [] => some (h, r)
  | .ask q next, h, ⟨asked, a⟩ :: rest =>
    if same : asked = q then (machine h q (same ▸ a)).bind fun t => exec (next (same ▸ a)) t rest
      else none
  | _, _, _ => none

def After : Prog A R → H → (H → R → Prop) → Prop
  | .ret r, h, P => P h r
  | .ask q next, h, P => ∀ a t, machine h q a = some t → After (next a) t P

variable {machine} {p : Prog A R} {h : H}

theorem after_bind {P : H → S → Prop} :
    After machine (p >>= k) h P ↔ After machine p h fun t r => After machine (k r) t P := by
  induction p generalizing h with
  | ret r => exact Iff.rfl
  | ask q next ih => exact forall_congr' fun a => forall_congr' fun t => forall_congr' fun _ => ih a

theorem After.imp {P P' : H → R → Prop} (after : After machine p h P)
    (follows : ∀ t r, P t r → P' t r) :
    After machine p h P' := by
  induction p generalizing h with
  | ret r => exact follows h r after
  | ask q next ih => exact fun a t answered => ih a (after a t answered)

theorem After.exec [DecidableEq Q] {P : H → R → Prop} {trace : Trace A} {t : H} {r : R}
    (after : After machine p h P) (ran : exec machine p h trace = some (t, r)) : P t r := by
  induction p generalizing h trace with
  | ret last =>
    cases trace with
    | nil =>
      cases ran
      exact after
    | cons => cases ran
  | ask q next ih =>
    cases trace with
    | nil => cases ran
    | cons event rest =>
      obtain ⟨asked, a⟩ := event
      unfold Ask.exec at ran
      split at ran
      · rename_i same
        subst same
        obtain ⟨u, answered, later⟩ := Option.bind_eq_some_iff.mp ran
        exact ih a (after a u answered) later
      · cases ran

end Machine

end Espix.Lib.Ask
