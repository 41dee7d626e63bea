import Espix.Ssh.Packet

/-! HMAC-SHA256 over the hash engine.

`ssh_mac_prepare` and `mac_parts` of `components/espix_ssh/ssh_transport.c`, against the one-shot
definition with the engine's block function for the compression function. -/

namespace Espix.Ssh

open Lib.Absorb
open Lib.Xdr (Bytes word readWord readWord_word)

variable {suite : Suite}

def keyPad (c : UInt8) (key : Bytes) : Bytes :=
  (key.take hashBlock).map (c ^^^ ·) ++ List.replicate (hashBlock - key.length) c

def macPrepare (iv : suite.Digest) (key : Bytes) (d : Dir suite) : Dir suite :=
  { d with macInner := suite.block iv (keyPad 0x36 key), macOuter :=
    suite.block iv (keyPad 0x5c key) }

def macList (d : Dir suite) (parts : List Bytes) : Bytes :=
  let inner := shaStreamFinish (parts.foldl shaStreamUpdate (shaStreamStart d.macInner))
  shaStreamFinish (shaStreamUpdate (shaStreamStart d.macOuter) inner)

def sha256 (iv : suite.Digest) (m : Bytes) : Bytes :=
  suite.digest (whole hashBlock suite.block iv (m ++ padding m.length)).1

def hmac (iv : suite.Digest) (key m : Bytes) : Bytes :=
  let full := key ++ zeros (hashBlock - key.length)
  sha256 iv (full.map (· ^^^ 0x5c) ++ sha256 iv (full.map (· ^^^ 0x36) ++ m))

theorem keyPad_eq (c : UInt8) {key : Bytes} (short : key.length ≤ hashBlock) :
    keyPad c key = (key ++ zeros (hashBlock - key.length)).map (· ^^^ c) := by
  rw [keyPad, List.take_of_length_le short, List.map_append, zeros, List.map_replicate,
    UInt8.zero_xor]
  exact congrArg (· ++ _) (List.map_congr_left fun b _ => UInt8.xor_comm c b)

theorem length_keyPad (c : UInt8) {key : Bytes} (short : key.length ≤ hashBlock) :
    (keyPad c key).length = hashBlock := by
  rw [keyPad, List.length_append, List.length_map, List.length_take, List.length_replicate]
  omega

theorem lengthField_exact {n : Nat} (small : n * 8 < 2 ^ 64) : ∃ hi lo rest,
    readWord (lengthField n) = some (hi, rest) ∧
    readWord rest = some (lo, []) ∧ hi * 2 ^ 32 + lo = n * 8 := by
  have low := readWord_word (n * 8 % 2 ^ 64) []
  rw [List.append_nil] at low
  exact ⟨_, _, _, readWord_word _ _, low, by omega⟩

theorem shaStream_sha256 (iv : suite.Digest) {first : Bytes} (full : first.length = hashBlock)
    (parts : List Bytes) :
    shaStreamFinish (parts.foldl shaStreamUpdate (shaStreamStart (suite.block iv first))) =
      sha256 iv (first ++ parts.flatten) := by
  have together : ∀ (parts : List Bytes) {s : ShaStream suite}, Ready s →
      parts.foldl shaStreamUpdate s = shaStreamUpdate s parts.flatten := by
    intro parts
    induction parts with
    | nil =>
      intro s _
      simp [shaStreamUpdate]
    | cons part parts ih =>
      intro s ready
      rw [List.foldl_cons, ih (ready.update part), shaStreamUpdate_append ready, List.flatten_cons]
  have ready := ready_start (suite.block iv first)
  rw [together parts ready, shaStream_digestFrom, digestFrom, sha256, List.append_assoc,
    whole_block (by decide) full, List.length_append, full]

/-- The tag over any parts is the HMAC of what they are together, and the length in its last block
is exact. -/
theorem macList_hmac (iv : suite.Digest) {key : Bytes} (short : key.length ≤ hashBlock)
    (d : Dir suite) (parts : List Bytes) :
    macList (macPrepare iv key d) parts = hmac iv key parts.flatten ∧
    (∀ a b c, macParts (macPrepare iv key d) a b c = hmac iv key (a ++ b ++ c)) ∧
    ((hashBlock + parts.flatten.length) * 8 < 2 ^ 64 →
      ∃ hi lo rest, readWord (lengthField (hashBlock + parts.flatten.length)) = some (hi, rest) ∧
      readWord rest = some (lo, []) ∧
        hi * 2 ^ 32 + lo = (hashBlock + parts.flatten.length) * 8) := by
  have tag (parts : List Bytes) : macList (macPrepare iv key d) parts =
      hmac iv key parts.flatten := by
    have outer (inner : Bytes) := shaStream_sha256 iv (length_keyPad 0x5c short) [inner]
    simp only [List.foldl_cons, List.foldl_nil, List.flatten_cons, List.flatten_nil,
      List.append_nil] at outer
    rw [macList, macPrepare, shaStream_sha256 iv (length_keyPad 0x36 short), outer,
      keyPad_eq _ short, keyPad_eq _ short, hmac]
  refine ⟨tag parts, fun a b c => ?_, lengthField_exact⟩
  have three := tag [a, b, c]
  rw [List.flatten_cons, List.flatten_cons, List.flatten_cons, List.flatten_nil,
    List.append_nil, ← List.append_assoc] at three
  exact three

theorem macList_hmac_keyed :
    macList (@macPrepare sumSuite (1 : UInt8) [1, 2] keyed.tx) [[3], [4, 5]] =
      @hmac sumSuite (1 : UInt8) [1, 2] [3, 4, 5] :=
  (@macList_hmac sumSuite (1 : UInt8) [1, 2] (by decide) keyed.tx [[3], [4, 5]]).1

end Espix.Ssh
