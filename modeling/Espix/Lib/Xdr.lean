import Mathlib.Data.List.Basic
import Mathlib.Tactic

/-! Types of the external data representation, and which byte strings are their encodings.

A decoder goes over an encoding and leaves what follows it. A string of bytes is an encoding if
the decoder takes it whole, so that no encoding goes on after the end of another. -/

namespace Espix.Lib.Xdr

abbrev Bytes := List UInt8

def word (v : Nat) : Bytes :=
  [UInt8.ofNat (v / 2 ^ 24), UInt8.ofNat (v / 2 ^ 16), UInt8.ofNat (v / 2 ^ 8), UInt8.ofNat v]

def readWord : Bytes → Option (Nat × Bytes)
  | a :: b :: c :: d :: rest =>
    some (a.toNat * 2 ^ 24 + b.toNat * 2 ^ 16 + c.toNat * 2 ^ 8 + d.toNat, rest)
  | _ => none

def padded (n : Nat) : Nat := (n + 3) / 4 * 4

def pad (bytes : Bytes) : Bytes := bytes ++ List.replicate (padded bytes.length - bytes.length) 0

inductive Ty
  | fixed (n : Nat)
  | bool
  | bytes
  | seq (first second : Ty)
  | optional (item : Ty)
  /-- Items with a flag before each, and a cleared flag at the end. -/
  | list (item : Ty)
  /-- A word that chooses: zero, or any other. -/
  | switch (zero other : Ty)

def items (skipItem : Bytes → Option Bytes) : Nat → Bytes → Option (Nat × Bytes)
  | 0, _ => none
  | fuel + 1, bs =>
    match readWord bs with
    | some (0, rest) => some (0, rest)
    | some (1, rest) =>
      (skipItem rest).bind fun rest => (items skipItem fuel rest).map fun found =>
        (found.1 + 1, found.2)
    | _ => none

def skip : Ty → Bytes → Option Bytes
  | .fixed n, bs => if n ≤ bs.length then some (bs.drop n) else none
  | .bool, bs =>
    match readWord bs with
    | some (0, rest) => some rest
    | some (1, rest) => some rest
    | _ => none
  | .bytes, bs =>
    match readWord bs with
    | some (n, rest) =>
      if padded n ≤ rest.length ∧ ((rest.take (padded n)).drop n).all (· == 0) then
        some (rest.drop (padded n))
      else none
    | none => none
  | .seq first second, bs => (skip first bs).bind (skip second)
  | .optional item, bs =>
    match readWord bs with
    | some (0, rest) => some rest
    | some (1, rest) => skip item rest
    | _ => none
  | .list item, bs => (items (skip item) bs.length bs).map (·.2)
  | .switch zero other, bs =>
    match readWord bs with
    | some (0, rest) => skip zero rest
    | some (_ + 1, rest) => skip other rest
    | none => none

attribute [local simp] skip

def Encodes (t : Ty) (bs : Bytes) : Prop := skip t bs = some []

section Words

@[simp] theorem length_word (v : Nat) : (word v).length = 4 := rfl

@[simp] theorem readWord_word (v : Nat) (rest : Bytes) :
    readWord (word v ++ rest) = some (v % 2 ^ 32, rest) := by
  have value : v / 2 ^ 24 % 256 * 2 ^ 24 + v / 2 ^ 16 % 256 * 2 ^ 16 + v / 2 ^ 8 %
    256 * 2 ^ 8 + v % 256 =
      v % 2 ^ 32 := by omega
  simpa [word, readWord] using value

theorem readWord_zero (rest : Bytes) : readWord (word 0 ++ rest) = some (0, rest) := by
  rw [readWord_word, Nat.zero_mod]

theorem readWord_one (rest : Bytes) : readWord (word 1 ++ rest) = some (1, rest) := by
  rw [readWord_word, Nat.mod_eq_of_lt (by decide)]

theorem readWord_append {bs rest : Bytes} {v : Nat}
    (found : readWord bs = some (v, rest)) (more : Bytes) :
    readWord (bs ++ more) = some (v, rest ++ more) := by
  unfold readWord at found
  split at found
  · cases found
    rfl
  · cases found

theorem le_padded (n : Nat) : n ≤ padded n := by
  unfold padded
  omega

theorem padded_lt (n : Nat) : padded n < n + 4 := by
  unfold padded
  omega

@[simp] theorem length_pad (bytes : Bytes) : (pad bytes).length = padded bytes.length := by
  have longer := le_padded bytes.length
  simp only [pad, List.length_append, List.length_replicate]
  omega

end Words

section Skip

variable {t a b : Ty} {bs bytes rest : Bytes}

theorem items_append {f : Bytes → Option Bytes}
    (step : ∀ bs rest more, f bs = some rest → f (bs ++ more) = some (rest ++ more)) {fuel n : Nat}
    (found : items f fuel bs = some (n, rest)) (more : Bytes) (extra : Nat) :
    items f (fuel + extra) (bs ++ more) = some (n, rest ++ more) := by
  induction fuel generalizing bs n with
  | zero => cases found
  | succ fuel ih =>
    rw [Nat.add_right_comm]
    simp only [items] at found ⊢
    split at found
    · rename_i here
      cases found
      rw [readWord_append here more]
      rfl
    · rename_i after here
      rw [readWord_append here more]
      obtain ⟨behind, item, later⟩ := Option.bind_eq_some_iff.mp found
      obtain ⟨⟨k, after_items⟩, count, same⟩ := Option.map_eq_some_iff.mp later
      cases same
      have longer := ih count
      simp [step _ _ more item, longer]
    · cases found

theorem skip_append (found : skip t bs = some rest) (more : Bytes) :
    skip t (bs ++ more) = some (rest ++ more) := by
  induction t generalizing bs rest more with
  | fixed n =>
    simp only [skip, Option.ite_none_right_eq_some, Option.some.injEq] at found ⊢
    obtain ⟨enough, rfl⟩ := found
    refine ⟨by rw [List.length_append]; omega, ?_⟩
    rw [List.drop_append_of_le_length enough]
  | bool =>
    simp only [skip] at found ⊢
    split at found
    · rename_i here
      cases found
      rw [readWord_append here more]
      rfl
    · rename_i here
      cases found
      rw [readWord_append here more]
      rfl
    · cases found
  | bytes =>
    simp only [skip] at found ⊢
    split at found
    · rename_i n after here
      rw [readWord_append here more]
      simp only [Option.ite_none_right_eq_some, Option.some.injEq] at found ⊢
      obtain ⟨⟨enough, zeros⟩, rfl⟩ := found
      refine ⟨⟨by rw [List.length_append]; omega, ?_⟩, ?_⟩
      · rwa [List.take_append_of_le_length enough]
      · rw [List.drop_append_of_le_length enough]
    · cases found
  | seq first second first_ih second_ih =>
    simp only [skip] at found ⊢
    obtain ⟨between, start, finish⟩ := Option.bind_eq_some_iff.mp found
    rw [first_ih start more, Option.bind_some, second_ih finish more]
  | optional item ih =>
    simp only [skip] at found ⊢
    split at found
    · rename_i here
      cases found
      rw [readWord_append here more]
      rfl
    · rename_i here
      rw [readWord_append here more]
      exact ih found more
    · cases found
  | list item ih =>
    simp only [skip] at found ⊢
    obtain ⟨⟨n, after⟩, counted, rfl⟩ := Option.map_eq_some_iff.mp found
    have longer := items_append (fun bs rest more found => ih found more) counted more more.length
    rw [List.length_append, longer]
    rfl
  | switch zero other zero_ih other_ih =>
    simp only [skip] at found ⊢
    split at found
    · rename_i here
      rw [readWord_append here more]
      exact zero_ih found more
    · rename_i here
      rw [readWord_append here more]
      exact other_ih found more
    · cases found

theorem Encodes.skip (encodes : Encodes t bs) (rest : Bytes) : skip t (bs ++ rest) = some rest :=
  skip_append encodes rest

theorem Encodes.unique_end {more : Bytes} (encodes : Encodes t bs) (also : Encodes t (bs ++ more)) :
    more = [] := by
  have longer := encodes.skip more
  rw [also] at longer
  exact (Option.some.inj longer).symm

theorem encodes_fixed {n : Nat} (length : bs.length = n) : Encodes (.fixed n) bs := by
  simp [Encodes, length]

theorem encodes_bool (flag : Bool) : Encodes .bool (word (if flag then 1 else 0)) := by
  cases flag
  · have here := readWord_zero []
    rw [List.append_nil] at here
    simp [Encodes, here]
  · have here := readWord_one []
    rw [List.append_nil] at here
    simp [Encodes, here]

theorem encodes_bytes (short : bytes.length < 2 ^ 32) :
    Encodes .bytes (word bytes.length ++ pad bytes) := by
  have length := length_pad bytes
  have longer := le_padded bytes.length
  simp only [Encodes, skip, readWord_word, Nat.mod_eq_of_lt short]
  rw [if_pos, ← length, List.drop_length]
  refine ⟨length.ge, ?_⟩
  rw [List.take_of_length_le length.le, pad, List.drop_left]
  simp

theorem Encodes.seq {x y : Bytes} (first : Encodes a x) (second : Encodes b y) :
    Encodes (.seq a b) (x ++ y) := by
  rw [Encodes, Xdr.skip, first.skip y, Option.bind_some]
  exact second

theorem encodes_absent : Encodes (.optional t) (word 0) := by
  have here := readWord_zero []
  rw [List.append_nil] at here
  simp [Encodes, here]

theorem Encodes.present (item : Encodes t bs) : Encodes (.optional t) (word 1 ++ bs) := by
  simp only [Encodes, Xdr.skip, readWord_one]
  exact item

theorem Encodes.zero (arm : Encodes a bs) : Encodes (.switch a b) (word 0 ++ bs) := by
  simp only [Encodes, Xdr.skip, readWord_zero]
  exact arm

theorem skip_switch {v : Nat} (found : readWord bs = some (v, rest)) (chosen : v ≠ 0) :
    skip (.switch a b) bs = skip b rest := by
  cases v with
  | zero => exact absurd rfl chosen
  | succ k => simp only [skip, found]

theorem Encodes.other {v : Nat} (arm : Encodes b bs) (chosen : v % 2 ^ 32 ≠ 0) :
    Encodes (.switch a b) (word v ++ bs) := by
  rw [Encodes, skip_switch (readWord_word v bs) chosen]
  exact arm

def listing (all : List Bytes) : Bytes := (all.flatMap fun item => word 1 ++ item) ++ word 0

theorem items_listing {all : List Bytes} (each : ∀ item ∈ all, Encodes t item)
    (rest : Bytes) {fuel : Nat}
    (enough : all.length < fuel) : items (Xdr.skip t) fuel (listing all ++
      rest) = some (all.length, rest) := by
  induction all generalizing fuel with
  | nil =>
    obtain ⟨fuel, rfl⟩ := Nat.exists_eq_succ_of_ne_zero (Nat.ne_of_gt enough)
    have only_end : listing [] ++ rest = word 0 ++ rest := rfl
    simp only [only_end, items, readWord_zero, List.length_nil]
  | cons item all ih =>
    obtain ⟨fuel, rfl⟩ := Nat.exists_eq_succ_of_ne_zero (Nat.ne_of_gt (Nat.zero_lt_of_lt enough))
    obtain ⟨here, later⟩ := List.forall_mem_cons.mp each
    have split_first : listing (item :: all) ++ rest = word 1 ++
        (item ++ (listing all ++ rest)) := by
      simp [listing]
    simp only [split_first, items, readWord_one, here.skip, Option.bind_some,
      ih later (Nat.lt_of_succ_lt_succ enough), Option.map_some, List.length_cons]

theorem length_listing (all : List Bytes) :
    (listing all).length = (all.map fun item => item.length + 4).sum + 4 := by
  induction all with
  | nil => rfl
  | cons item all ih =>
    simp only [listing, List.flatMap_cons, List.append_assoc, List.length_append,
      length_word, List.map_cons,
      List.sum_cons] at ih ⊢
    omega

theorem length_lt_listing (all : List Bytes) : all.length < (listing all).length := by
  have many := List.length_le_sum_of_one_le (all.map fun item => item.length + 4) (by simp)
  rw [List.length_map] at many
  rw [length_listing]
  omega

theorem encodes_listing {all : List Bytes} (each : ∀ item ∈ all, Encodes t item) :
    Encodes (.list t) (listing all) := by
  have counted := items_listing each [] (length_lt_listing all)
  rw [List.append_nil] at counted
  rw [Encodes, Xdr.skip, counted]
  rfl

end Skip

end Espix.Lib.Xdr
