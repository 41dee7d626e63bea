import Mathlib.Data.List.Basic

/-! Taking in a sequence block by block.

Whole blocks are taken in, and what is less than a block waits for more. It does not matter into
which parts the sequence comes. -/

namespace Espix.Lib.Absorb

variable {D α : Type*} (n : Nat) (f : D → List α → D)

def whole (d : D) (xs : List α) : D × List α :=
  if 0 < n ∧ n ≤ xs.length then whole (f d (xs.take n)) (xs.drop n) else (d, xs)
termination_by xs.length
decreasing_by
  rw [List.length_drop]
  omega

variable {n f} {d : D}

theorem whole_short {xs : List α} (short : xs.length < n) : whole n f d xs = (d, xs) := by
  rw [whole, if_neg (by omega)]

theorem whole_long {xs : List α} (positive : 0 < n) (long : n ≤ xs.length) :
    whole n f d xs = whole n f (f d (xs.take n)) (xs.drop n) := by
  rw [whole, if_pos ⟨positive, long⟩]

theorem length_whole (positive : 0 < n) (d : D) (xs : List α) : (whole n f d xs).2.length < n := by
  induction d, xs using whole.induct n f with
  | case1 d xs long ih =>
    rw [whole_long long.1 long.2]
    exact ih
  | case2 d xs short =>
    rw [whole, if_neg short]
    simpa only [positive, true_and, Nat.not_le] using short

theorem whole_block {xs : List α} (positive : 0 < n) (full : xs.length = n) (d : D) (ys : List α) :
    whole n f d (xs ++ ys) = whole n f (f d xs) ys := by
  rw [whole_long positive (by rw [List.length_append]; omega), List.take_left' full,
    List.drop_left' full]

theorem whole_last {xs : List α} (positive : 0 < n) (full : xs.length = n) (d : D) :
    (whole n f d xs).1 = f d xs := by
  rw [← List.append_nil xs, whole_block positive full, List.append_nil, whole_short positive]

theorem whole_append (positive : 0 < n) (d : D) (xs ys : List α) :
    whole n f d (xs ++ ys) = whole n f (whole n f d xs).1 ((whole n f d xs).2 ++ ys) := by
  induction d, xs using whole.induct n f with
  | case1 d xs long ih =>
    rw [whole_long positive (by rw [List.length_append]; omega),
      List.take_append_of_le_length long.2,
      List.drop_append_of_le_length long.2, ih, ← whole_long positive long.2]
  | case2 d xs short =>
    have same : whole n f d xs = (d, xs) := by rw [whole, if_neg short]
    rw [same]

theorem length_whole_mod (positive : 0 < n) (d : D) (xs : List α) :
    (whole n f d xs).2.length = xs.length % n := by
  induction d, xs using whole.induct n f with
  | case1 d xs long ih =>
    rw [whole_long long.1 long.2, ih, List.length_drop, ← Nat.mod_eq_sub_mod long.2]
  | case2 d xs short =>
    rw [whole, if_neg short, Nat.mod_eq_of_lt (by omega)]

end Espix.Lib.Absorb
