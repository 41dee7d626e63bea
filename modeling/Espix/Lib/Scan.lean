import Mathlib.Data.List.Basic
import Mathlib.Data.List.TakeWhile
import Mathlib.Tactic

/-! Scanning a text up to a stop character.

A scanner that stops inside a prefix of its input reads the same whatever
follows the prefix; one that runs through the prefix goes on with the rest. -/

namespace Espix.Lib.Scan

/-- Decided along the text, not by trying every character there is. -/
instance decidableForallMem {q : Char → Prop} [DecidablePred q] (text : List Char) :
    Decidable (∀ c ∈ text, q c) :=
  List.decidableBAll q text

variable {α : Type*} {p : α → Bool} {xs ys : List α}

theorem bne_of_notMem [BEq α] [LawfulBEq α] {c : α} (absent : c ∉ xs) :
    ∀ d ∈ xs, (d != c) = true := by
  intro d member
  rw [bne_iff_ne]
  rintro rfl
  exact absent member

/-- A scan for a character comes to its end or to the character. -/
theorem dropWhile_bne [BEq α] [LawfulBEq α] (c : α) (xs : List α) :
    xs.dropWhile (· != c) = [] ∨ ∃ rest, xs.dropWhile (· != c) = c :: rest := by
  cases stop : xs.dropWhile (· != c) with
  | nil => exact .inl rfl
  | cons d rest =>
    have head := List.dropWhile_get_zero_not (· != c) xs (by simp [stop])
    obtain rfl : d = c := by simpa [stop] using head
    exact .inr ⟨rest, rfl⟩

/-- A scan over the values of a function stops at its first stop value. -/
theorem takeWhile_map_range {g : Nat → α} {c : Nat} (stop : ∃ m, m < c ∧ p (g m) = false) :
    ∃ m, m < c ∧ ((List.range c).map g).takeWhile p = (List.range m).map g ∧
      p (g m) = false ∧ ∀ k < m, p (g k) = true := by
  classical
  obtain ⟨inside, stopped⟩ := Nat.find_spec stop
  have through : ∀ k < Nat.find stop, p (g k) = true := by
    intro k early
    by_contra stopped_early
    exact Nat.find_min stop early ⟨early.trans inside, by simpa using stopped_early⟩
  refine ⟨Nat.find stop, inside, ?_, stopped, through⟩
  have split : c = Nat.find stop + (1 + (c - Nat.find stop - 1)) := by omega
  conv_lhs => rw [split]
  rw [List.range_add, List.map_append, List.takeWhile_append_of_pos]
  · simp [List.range_add, stopped]
  · intro x member
    obtain ⟨k, early, rfl⟩ := List.mem_map.mp member
    exact through k (List.mem_range.mp early)

end Espix.Lib.Scan
