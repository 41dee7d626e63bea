import Espix.Auth.Users
import Espix.Ssh.Hmac

/-! `pbkdf2_sha256` of `components/espix_auth/auth.c`, against PBKDF2 over the one-shot hash.

The engine's block function stands for the compression function. A password is its bytes before the
terminator, and `psa_hash_compute` gives a hash or fails. -/

namespace Espix.Auth.Pbkdf2

open Lib.Absorb Users
open Ssh hiding Err
open Lib.Xdr (Bytes word)
open Accounts (hashLen)

variable {suite : Suite}

/-- The count is written from the last byte of the block down. -/
def finalBlock (tail : Bytes) : Bytes :=
  let bits := (hashBlock + tail.length) * 8 % 2 ^ 64
  (List.range 8).foldl (fun block i =>
    block.set (hashBlock - 1 - i) (UInt8.ofNat (bits / 2 ^ (8 * i))))
    (tail ++ [0x80] ++ zeros (hashBlock - 1 - tail.length))

def shaResume (state : suite.Digest) (block : Bytes) : Bytes :=
  suite.digest (suite.block state block)

def prf (inner outer : suite.Digest) (tail : Bytes) : Bytes :=
  shaResume outer (finalBlock (shaResume inner (finalBlock tail)))

def xor (a b : Bytes) : Bytes := List.zipWith (· ^^^ ·) a b

def turn (inner outer : suite.Digest) (s : Bytes × Bytes) : Bytes × Bytes :=
  (prf inner outer s.1, xor s.2 (prf inner outer s.1))

def batches (batch : Nat) (inner outer : suite.Digest) (left : Nat) (s : Bytes × Bytes) :
    Bytes × Bytes :=
  if 0 < batch ∧ 0 < left then
    batches batch inner outer (left - min left batch) ((turn inner outer)^[min left batch] s)
  else s
termination_by left
decreasing_by omega

def pbkdf2Sha256 (batch : Nat) (iv : suite.Digest) (psa : Bytes → Option Bytes)
    (password salt : Bytes)
    (iters outLen : Nat) : Except Err Bytes :=
  if outLen ≠ hashLen ∨ iters = 0 then .error .invalidArg
  else if salt.length + 4 > hashBlock - 9 then .error .invalidArg
  else
    match if password.length > hashBlock then (psa password).filter (·.length == hashLen)
      else some password with
    | none => .error .fail
    | some key =>
      let inner := suite.block iv (keyPad 0x36 key)
      let outer := suite.block iv (keyPad 0x5c key)
      let u := prf inner outer (salt ++ [0, 0, 0, 1])
      .ok (batches batch inner outer (iters - 1) (u, u)).2

/-! PBKDF2 with HMAC-SHA256. -/

def hmacSha256 (iv : suite.Digest) (key m : Bytes) : Bytes :=
  hmac iv (if key.length > hashBlock then sha256 iv key else key) m

section Derived

variable (iv : suite.Digest) (password salt : Bytes)

/-- `U_1` is the one of number zero. -/
def u : Nat → Bytes
  | 0 => hmacSha256 iv password (salt ++ word 1)
  | i + 1 => hmacSha256 iv password (u i)

/-- The first block of the key after one iteration and so many more. -/
def firstBlock : Nat → Bytes
  | 0 => u iv password salt 0
  | i + 1 => List.zipWith (· ^^^ ·) (firstBlock i) (u iv password salt (i + 1))

end Derived

theorem finalBlock_eq {tail : Bytes} (short : tail.length + 9 ≤ hashBlock) :
    finalBlock tail = tail ++ padding (hashBlock + tail.length) := by
  unfold hashBlock at short
  have rest : (119 - (64 + tail.length) % 64) % 64 = 55 - tail.length := by omega
  have zeroed : zeros (63 - tail.length) = zeros (55 - tail.length) ++ zeros 8 := by
    rw [zeros, zeros, zeros, List.replicate_append_replicate]
    congr 1
    omega
  have front : (tail ++ [0x80] ++ zeros (55 - tail.length)).length = 56 := by
    simp [zeros]
    omega
  simp only [finalBlock, padding, hashBlock, rest, zeroed, ← List.append_assoc]
  generalize tail ++ [0x80] ++ zeros (55 - tail.length) = start at front
  simp [List.range_succ, front, zeros, lengthField, word, Nat.div_div_eq_div_mul]

theorem shaResume_eq (iv : suite.Digest) {pad tail : Bytes} (full : pad.length = hashBlock)
    (short : tail.length + 9 ≤ hashBlock) : shaResume (suite.block iv pad) (finalBlock tail) =
    sha256 iv (pad ++ tail) := by
  have one : (tail ++ padding (hashBlock + tail.length)).length = hashBlock := by
    have field (n : Nat) : (lengthField n).length = 8 := rfl
    unfold hashBlock at short
    simp [padding, zeros, hashBlock, field]
    omega
  rw [sha256, List.length_append, full, List.append_assoc, whole_block (by decide) full,
    whole_last (by decide) one,
    shaResume, finalBlock_eq short]

theorem prf_hmac (iv : suite.Digest) {key tail : Bytes} (fits : key.length ≤ hashBlock)
    (short : tail.length + 9 ≤ hashBlock) :
    prf (suite.block iv (keyPad 0x36 key)) (suite.block iv (keyPad 0x5c key)) tail =
    hmac iv key tail := by
  have digest : (sha256 iv (keyPad 0x36 key ++ tail)).length + 9 ≤ hashBlock := by
    rw [sha256, suite.length_digest]
    decide
  rw [prf, shaResume_eq iv (length_keyPad _ fits) short,
    shaResume_eq iv (length_keyPad _ fits) digest, keyPad_eq _ fits,
    keyPad_eq _ fits, hmac]

theorem batches_eq {batch : Nat} (positive : 0 < batch) (inner outer : suite.Digest)
    (left : Nat) (s : Bytes × Bytes) :
    batches batch inner outer left s = (turn inner outer)^[left] s := by
  fun_induction batches batch inner outer left s with
  | case1 left s more ih =>
    rw [ih, ← Function.iterate_add_apply]
    congr 1
    omega
  | case2 left s done =>
    obtain rfl : left = 0 := by omega
    rfl

theorem turns_eq {iv inner outer : suite.Digest} {password salt : Bytes}
    (next : ∀ i, prf inner outer (u iv password salt i) = u iv password salt (i + 1)) (i : Nat) :
    (turn inner outer)^[i] (u iv password salt 0, u iv password salt 0) =
    (u iv password salt i, firstBlock iv password salt i) := by
  induction i with
  | zero => rfl
  | succ i ih => rw [Function.iterate_succ_apply', ih, turn, next, firstBlock, xor]

/-- Whatever the password and the batch, what is derived is the first block of PBKDF2. -/
theorem pbkdf2Sha256_firstBlock {batch iters : Nat} {iv : suite.Digest} {psa : Bytes → Option Bytes}
    {salt : Bytes}
    (positive : 0 < batch) (hashes : ∀ m, psa m = some (sha256 iv m)) (password : Bytes)
    (accepted : salt.length + 4 ≤ hashBlock - 9) (some_iters : 0 < iters) :
    pbkdf2Sha256 batch iv psa password salt iters hashLen = .ok
    (firstBlock iv password salt (iters - 1)) := by
  have digest (m : Bytes) : (sha256 iv m).length = hashLen := suite.length_digest _
  generalize keyed : (if password.length > hashBlock then sha256 iv password else password) = key
  have chosen : (if password.length > hashBlock then
    (psa password).filter (·.length == hashLen) else some password) =
      some key := by
    rw [← keyed, hashes]
    split
    · rw [Option.filter_some, digest, if_pos (beq_self_eq_true _)]
    · rfl
  have fits : key.length ≤ hashBlock := by
    rw [← keyed]
    split
    · rw [digest]
      decide
    · omega
  have hash {m : Bytes} (short : m.length + 9 ≤ hashBlock) :
      prf (suite.block iv (keyPad 0x36 key)) (suite.block iv (keyPad 0x5c key)) m =
      hmacSha256 iv password m := by
    rw [prf_hmac iv fits short, hmacSha256, keyed]
  have next (i : Nat) :=
    hash (m := u iv password salt i) (by cases i <;> exact (digest _).symm ▸ by decide)
  have first : (salt ++ [0, 0, 0, 1]).length + 9 ≤ hashBlock := by
    unfold hashBlock at *
    simp
    omega
  rw [pbkdf2Sha256, if_neg (by omega), if_neg (by omega), chosen]
  dsimp only
  rw [hash first, batches_eq positive]
  exact congrArg (fun s => Except.ok s.2) (turns_eq next (iters - 1))

/-- A password longer than a block, in two batches. -/
theorem pbkdf2Sha256_firstBlock_sum :
    @pbkdf2Sha256 sumSuite 64 (1 : UInt8) (fun m => some (@sha256 sumSuite (1 : UInt8) m))
        (List.replicate 70 7) [3] 100 hashLen =
      .ok (@firstBlock sumSuite (1 : UInt8) (List.replicate 70 7) [3] 99) :=
  @pbkdf2Sha256_firstBlock sumSuite 64 100 (1 : UInt8) _ [3] (by decide) (fun _ => rfl)
    (List.replicate 70 7) (by decide) (by decide)

end Espix.Auth.Pbkdf2
