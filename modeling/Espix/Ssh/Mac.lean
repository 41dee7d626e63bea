import Espix.Lib.Absorb
import Espix.Lib.Xdr

/-! The cipher and the MAC of a direction.

The hash engine takes in blocks. Sender and receiver give it the same bytes in different parts. -/

namespace Espix.Ssh

open Lib.Absorb
open Lib.Xdr (Bytes word)

def hashBlock : Nat := 64
def macLen : Nat := 32

/-- The cipher and the hash engine. Of the cipher it is assumed that what one of two mirrored states
makes the other undoes. -/
structure Suite where
  Cipher : Type
  update : Cipher → Bytes → Option (Cipher × Bytes)
  Mirrors : Cipher → Cipher → Prop
  undoes : ∀ {w r : Cipher} (plain : Bytes), Mirrors w r →
    ∃ w' r' bytes, update w plain = some (w', bytes) ∧
    bytes.length = plain.length ∧ update r bytes = some (r', plain) ∧ Mirrors w' r'
  Digest : Type
  block : Digest → Bytes → Digest
  digest : Digest → Bytes
  length_digest : ∀ d, (digest d).length = macLen

variable {suite : Suite}

variable (suite) in
structure Dir where
  active : Bool
  cipher : suite.Cipher
  macInner : suite.Digest
  macOuter : suite.Digest

variable (suite) in
structure ShaStream where
  engine : suite.Digest
  buf : Bytes
  total : Nat

def shaStreamStart (engine : suite.Digest) : ShaStream suite := ⟨engine, [], hashBlock⟩

def shaStreamUpdate (s : ShaStream suite) (data : Bytes) : ShaStream suite :=
  if data.length = 0 then s
  else
    let total := (s.total + data.length) % 2 ^ 64
    if s.buf.length ≠ 0 then
      let fill := hashBlock - s.buf.length
      if data.length < fill then { s with buf := s.buf ++ data, total }
      else
        let (engine, rest) :=
          whole hashBlock suite.block (suite.block s.engine (s.buf ++ data.take fill))
          (data.drop fill)
        ⟨engine, rest, total⟩
    else
      let (engine, rest) := whole hashBlock suite.block s.engine data
      ⟨engine, rest, total⟩

def zeros (n : Nat) : Bytes := List.replicate n 0

def shaStreamFinish (s : ShaStream suite) : Bytes :=
  let bits := s.total * 8 % 2 ^ 64
  let buf := s.buf ++ [0x80]
  let (engine, buf) :=
    if buf.length > 56 then (suite.block s.engine (buf ++ zeros (hashBlock - buf.length)), [])
    else (s.engine, buf)
  suite.digest (suite.block engine (buf ++ zeros (56 - buf.length) ++
    word (bits / 2 ^ 32) ++ word bits))

def macParts (d : Dir suite) (a b c : Bytes) : Bytes :=
  let inner :=
    shaStreamFinish
    (shaStreamUpdate (shaStreamUpdate (shaStreamUpdate (shaStreamStart d.macInner) a) b) c)
  shaStreamFinish (shaStreamUpdate (shaStreamStart d.macOuter) inner)

def macEqual (a b : Bytes) : Bool := (List.zipWith (· ^^^ ·) a b).foldl (· ||| ·) 0 == 0

theorem length_macParts (d : Dir suite) (a b c : Bytes) : (macParts d a b c).length = macLen :=
  suite.length_digest _

section Parts

variable {s : ShaStream suite} {data : Bytes}

structure Ready (s : ShaStream suite) : Prop where
  waiting : s.buf.length < hashBlock
  total : s.total < 2 ^ 64

theorem ready_start (engine : suite.Digest) : Ready (shaStreamStart engine) :=
  ⟨show 0 < hashBlock by decide, show hashBlock < 2 ^ 64 by decide⟩

theorem shaStreamUpdate_eq (ready : Ready s) (data : Bytes) :
    shaStreamUpdate s data = ⟨(whole hashBlock suite.block s.engine (s.buf ++ data)).1,
      (whole hashBlock suite.block s.engine (s.buf ++ data)).2,
      (s.total + data.length) % 2 ^ 64⟩ := by
  have waiting := ready.waiting
  unfold shaStreamUpdate
  split
  · rename_i empty
    rw [List.length_eq_zero_iff.mp empty, List.append_nil, whole_short waiting,
      List.length_nil, Nat.add_zero,
      Nat.mod_eq_of_lt ready.total]
  · dsimp only
    split
    · split
      · rename_i few
        rw [whole_short (by rw [List.length_append]; omega)]
      · rename_i enough
        have positive : 0 < hashBlock := by decide
        have together : whole hashBlock suite.block s.engine (s.buf ++ data) =
          whole hashBlock suite.block
            (suite.block s.engine (s.buf ++ data.take (hashBlock - s.buf.length)))
                (data.drop (hashBlock - s.buf.length)) := by
          rw [whole_long positive (by rw [List.length_append]; omega), List.take_append,
            List.drop_append,
            List.take_of_length_le (Nat.le_of_lt waiting),
            List.drop_of_length_le (Nat.le_of_lt waiting), List.nil_append]
        rw [together]
    · rename_i none_waiting
      rw [List.length_eq_zero_iff.mp (not_not.mp none_waiting), List.nil_append]

theorem Ready.update (ready : Ready s) (data : Bytes) : Ready (shaStreamUpdate s data) := by
  rw [shaStreamUpdate_eq ready]
  exact ⟨length_whole (by decide) _ _, Nat.mod_lt _ (by decide)⟩

theorem shaStreamUpdate_append (ready : Ready s) (xs ys : Bytes) :
    shaStreamUpdate (shaStreamUpdate s xs) ys = shaStreamUpdate s (xs ++ ys) := by
  rw [shaStreamUpdate_eq (ready.update xs), shaStreamUpdate_eq ready, shaStreamUpdate_eq ready,
    ← List.append_assoc,
    whole_append (by decide) _ (s.buf ++ xs) ys, List.length_append, Nat.mod_add_mod, Nat.add_assoc]

def lengthField (n : Nat) : Bytes := word (n * 8 % 2 ^ 64 / 2 ^ 32) ++ word (n * 8 % 2 ^ 64)

/-- What is put behind a message: a bit, zeros up to the last eight bytes of a block, and the
length. -/
def padding (n : Nat) : Bytes := [0x80] ++ zeros ((119 - n % hashBlock) % hashBlock) ++
    lengthField n

/-- The hash of a message behind a block that has been taken in. -/
def digestFrom (state : suite.Digest) (m : Bytes) : Bytes :=
  suite.digest (whole hashBlock suite.block state (m ++ padding (hashBlock + m.length))).1

/-- The MAC of RFC 2104, from the two states that the key gives. -/
def tag (d : Dir suite) (m : Bytes) : Bytes := digestFrom d.macOuter (digestFrom d.macInner m)

theorem shaStreamFinish_eq {s : ShaStream suite} {n : Nat} (total : s.total = n % 2 ^ 64)
    (rest : s.buf.length = n % hashBlock) :
    shaStreamFinish s = suite.digest
    (whole hashBlock suite.block s.engine (s.buf ++ padding n)).1 := by
  have bits : s.total * 8 % 2 ^ 64 = n * 8 % 2 ^ 64 := by rw [total, Nat.mod_mul_mod]
  have field : (lengthField n).length = 8 := rfl
  simp only [shaStreamFinish, bits, List.length_append, List.length_singleton]
  unfold hashBlock at rest
  have small := Nat.mod_lt n (show 0 < 64 by decide)
  split
  · -- the length goes into a block of its own
    rename_i many
    have zeroed : zeros ((119 - n % 64) % 64) = zeros (64 - (s.buf.length + 1)) ++ zeros 56 := by
      rw [zeros, zeros, zeros, List.replicate_append_replicate]
      congr 1
      omega
    have spread : s.buf ++ padding n = (s.buf ++ [0x80] ++ zeros (64 - (s.buf.length + 1))) ++
        (zeros 56 ++ lengthField n) := by
      simp only [padding, hashBlock, zeroed, List.append_assoc]
    rw [spread, whole_block (by decide) (by simp [zeros, hashBlock]; omega),
      whole_last (by decide) (by simp [zeros, field, hashBlock])]
    simp [hashBlock, lengthField]
  · rename_i few
    have zeroed : (119 - n % 64) % 64 = 56 - (s.buf.length + 1) := by omega
    rw [whole_last (by decide) (by simp [padding, zeros, field, hashBlock]; omega)]
    simp [padding, hashBlock, zeroed, lengthField]

theorem shaStream_digestFrom (state : suite.Digest) (m : Bytes) :
    shaStreamFinish (shaStreamUpdate (shaStreamStart state) m) = digestFrom state m := by
  have taken : shaStreamUpdate (shaStreamStart state) m = ⟨(whole hashBlock suite.block state m).1,
      (whole hashBlock suite.block state m).2, (hashBlock + m.length) % 2 ^ 64⟩ :=
    shaStreamUpdate_eq (ready_start state) m
  rw [taken, shaStreamFinish_eq rfl, digestFrom, whole_append (by decide) _ m]
  rw [length_whole_mod (by decide), Nat.add_mod_left]

theorem macParts_tag (d : Dir suite) (a b c : Bytes) : macParts d a b c = tag d (a ++ b ++ c) := by
  have ready := ready_start d.macInner
  rw [macParts, shaStreamUpdate_append ready, shaStreamUpdate_append ready, shaStream_digestFrom,
    shaStream_digestFrom, tag]

end Parts

theorem foldl_or_eq_zero (xs : Bytes) (start : UInt8) :
    xs.foldl (· ||| ·) start = 0 ↔ start = 0 ∧ ∀ x ∈ xs, x = 0 := by
  induction xs generalizing start with
  | nil => simp
  | cons x xs ih =>
    rw [List.foldl_cons, ih, UInt8.or_eq_zero_iff, List.forall_mem_cons, and_assoc]

theorem macEqual_iff {a b : Bytes} (length : a.length = b.length) : macEqual a b = true ↔
    a = b := by
  rw [macEqual, beq_iff_eq, foldl_or_eq_zero]
  refine ⟨fun each => ?_, fun same => ⟨rfl, ?_⟩⟩
  · refine List.ext_getElem length fun i inside also => ?_
    have zero :=
      each.2 _ (List.getElem_mem (l := List.zipWith (· ^^^ ·) a b) (n := i)
        (by rw [List.length_zipWith]; omega))
    rw [List.getElem_zipWith] at zero
    exact UInt8.xor_eq_zero_iff.mp zero
  · subst same
    rw [List.zipWith_self]
    intro x member
    obtain ⟨y, -, rfl⟩ := List.mem_map.mp member
    exact UInt8.xor_self

end Espix.Ssh
