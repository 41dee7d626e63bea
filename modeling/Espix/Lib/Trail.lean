import Mathlib.Data.List.Basic
import Mathlib.Data.List.Induction

/-! Computations that power may be taken from.

A computation leaves a trail: what it did at each atomic step, with the persistent
state right after it. Cut anywhere, it leaves the state of the last step taken. -/

namespace Espix.Lib.Trail

variable {A S : Type*}

def after (s : S) (trail : List (A × S)) : S := (trail.getLast?.map Prod.snd).getD s

theorem after_singleton (s : S) (m : A × S) : after s [m] = m.2 := rfl

theorem after_append (s : S) (trail rest : List (A × S)) :
    after s (trail ++ rest) = after (after s trail) rest := by
  cases rest using List.reverseRecOn with
  | nil => simp [after]
  | append_singleton rest m => simp [after, ← List.append_assoc]

theorem after_cons (s : S) (m : A × S) (rest : List (A × S)) :
    after s (m :: rest) = after m.2 rest :=
  after_append s [m] rest

theorem after_mem (s : S) (trail : List (A × S)) :
    after s trail = s ∨ ∃ m ∈ trail, after s trail = m.2 := by
  cases trail using List.reverseRecOn with
  | nil => exact Or.inl rfl
  | append_singleton trail m => exact Or.inr ⟨m, by simp, by simp [after]⟩

theorem cut_holds {P : S → Prop} {s : S} {trail : List (A × S)} (start : P s)
    (all : ∀ m ∈ trail, P m.2) (n : Nat) : P (after s (trail.take n)) := by
  rcases after_mem s (trail.take n) with same | ⟨m, member, last⟩
  · rw [same]
    exact start
  · rw [last]
    exact all m (List.mem_of_mem_take member)

end Espix.Lib.Trail
