import Mathlib.Control.Monad.Basic

/-! Programs over a state that keep an invariant, and what is known of their results. -/

namespace Espix.Lib.Programs

variable {S A B : Type} {inv : S → Prop} {P : A → Prop}

/-- From a state that meets the invariant the program ends in one that does, with a
result as stated. -/
def Keeps (inv : S → Prop) (prog : StateM S A) (result : A → Prop) : Prop :=
  ∀ s, inv s → inv (prog.run s).2 ∧ result (prog.run s).1

theorem Keeps.pure {a : A} (result : P a) : Keeps inv (pure a) P := fun _ holds => ⟨holds, result⟩

theorem Keeps.bind {prog : StateM S A} {next : A → StateM S B} {R : B → Prop}
    (first : Keeps inv prog P)
    (second : ∀ a, P a → Keeps inv (next a) R) : Keeps inv (prog >>= next) R := by
  intro s holds
  obtain ⟨holds', result⟩ := first s holds
  exact second _ result _ holds'

theorem Keeps.get : Keeps inv (get : StateM S S) inv := fun _ holds => ⟨holds, holds⟩

theorem Keeps.modify {f : S → S} (step : ∀ s, inv s → inv (f s)) :
    Keeps inv (modify f : StateM S Unit) fun _ => True := fun s holds => ⟨step s holds, trivial⟩

abbrev Stable (inv : S → Prop) (prog : StateM S A) : Prop := Keeps inv prog fun _ => True

theorem stable_pure (a : A) : Stable inv (pure a) := Keeps.pure trivial

theorem Keeps.done {prog : StateM S A} {last : A → B} (first : Keeps inv prog P) :
    Stable inv (prog >>= fun a => Pure.pure (last a)) := first.bind fun _ _ => stable_pure _

section Choice

variable {p : Prop} [Decidable p] {a : A} {prog : StateM S A} (kept : Stable inv prog)
include kept

theorem stable_when : Stable inv (if p then prog else pure a) := by
  split
  · exact kept
  · exact stable_pure a

theorem stable_unless : Stable inv (if p then pure a else prog) := by
  split
  · exact stable_pure a
  · exact kept

end Choice

theorem Keeps.forM {items : List B} {body : B → StateM S Unit}
    (each : ∀ b ∈ items, Stable inv (body b)) :
    Stable inv (items.forM body) := by
  induction items with
  | nil => exact stable_pure _
  | cons b items ih =>
    obtain ⟨here, later⟩ := List.forall_mem_cons.mp each
    exact Keeps.bind here fun _ _ => ih later

end Espix.Lib.Programs
