import Mathlib.Data.List.Basic

/-! Words of 32 bits: their bytes in memory, lowest first, and their bits as a set. -/

namespace Espix.Lib.Words

abbrev Word := BitVec 32

def bytesOf (w : Word) : List UInt8 :=
  [UInt8.ofNat w.toNat, UInt8.ofNat (w.toNat / 256), UInt8.ofNat (w.toNat / 65536),
    UInt8.ofNat (w.toNat / 16777216)]

def wordOf (a b c d : UInt8) : Word :=
  BitVec.ofNat 32 (a.toNat + 256 * b.toNat + 65536 * c.toNat + 16777216 * d.toNat)

def wordsOf : List UInt8 → List Word
  | a :: b :: c :: d :: rest => wordOf a b c d :: wordsOf rest
  | _ => []

def textOf (words : List Word) : List UInt8 := words.flatMap bytesOf

theorem length_textOf (words : List Word) : (textOf words).length = 4 * words.length := by
  induction words with
  | nil => rfl
  | cons w words ih =>
    rw [textOf, List.flatMap_cons, List.length_append, ← textOf, ih, List.length_cons]
    simp only [bytesOf, List.length_cons, List.length_nil]
    omega

theorem wordOf_bytesOf (w : Word) : wordOf (UInt8.ofNat w.toNat) (UInt8.ofNat (w.toNat / 256))
    (UInt8.ofNat (w.toNat / 65536)) (UInt8.ofNat (w.toNat / 16777216)) = w := by
  have small := w.isLt
  apply BitVec.eq_of_toNat_eq
  simp only [wordOf, BitVec.toNat_ofNat, UInt8.toNat_ofNat']
  omega

theorem wordsOf_textOf (words : List Word) : wordsOf (textOf words) = words := by
  induction words with
  | nil => rfl
  | cons w words ih =>
    rw [textOf, List.flatMap_cons, ← textOf]
    simp only [bytesOf, List.cons_append, List.nil_append, wordsOf, wordOf_bytesOf, ih]

/-- The set with the one bit, or the empty set for a number that is not a bit's. -/
def single (n : Nat) : Word := if 0 < n ∧ n < 32 then BitVec.twoPow 32 n else 0

def lowest (m : Word) : Nat := ((List.range 32).find? fun i => m.getLsbD i).getD 0

theorem getLsbD_single (n i : Nat) : (single n).getLsbD i = decide (i = n ∧ 0 < n ∧ n < 32) := by
  unfold single
  split
  · rename_i member
    rw [BitVec.getLsbD_twoPow]
    simp [member.1, member.2, eq_comm]
  · rename_i outside
    have no : ¬(i = n ∧ 0 < n ∧ n < 32) := fun all => outside all.2
    rw [decide_eq_false no]
    simp

theorem getLsbD_lowest {m : Word} (member : lowest m ≠ 0) : m.getLsbD (lowest m) = true := by
  unfold lowest at member ⊢
  cases found : (List.range 32).find? fun i => m.getLsbD i with
  | none =>
    rw [found] at member
    exact absurd rfl member
  | some i => exact List.find?_some found

theorem lowest_lt (m : Word) : lowest m < 32 := by
  unfold lowest
  cases found : (List.range 32).find? fun i => m.getLsbD i with
  | none => decide
  | some i => exact List.mem_range.mp (List.mem_of_find?_eq_some found)

theorem and_eq_zero_iff {a b : Word} :
    a &&& b = 0 ↔ ∀ i < 32, a.getLsbD i = true → b.getLsbD i = false := by
  constructor
  · intro apart i small inA
    have none_at : (a &&& b).getLsbD i = false := by rw [apart]; simp
    rw [BitVec.getLsbD_and, inA, Bool.true_and] at none_at
    exact none_at
  · intro apart
    apply BitVec.eq_of_getLsbD_eq
    intro i small
    rw [BitVec.getLsbD_and, show (0 : Word).getLsbD i = false by simp]
    cases inA : a.getLsbD i with
    | false => rfl
    | true => exact apart i small inA

end Espix.Lib.Words
