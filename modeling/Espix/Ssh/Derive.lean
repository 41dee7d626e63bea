import Espix.Lib.Xdr

/-! Key derivation after the key exchange.

`derive_key` of `components/espix_ssh/ssh_kex.c` with `ssh_put_mpint` of `ssh_transport.c`, against
the blocks of RFC 4253 §7.2. -/

namespace Espix.Ssh.Derive

open Lib.Xdr (Bytes word length_word)

def x25519Len : Nat := 32
def hashLen : Nat := 32

structure Out where
  cap : Nat
  data : Bytes
  bad : Bool

def room (b : Out) (n : Nat) : Bool := !b.bad && (b.data.length + n) % 2 ^ 32 ≤ b.cap

def putRaw (b : Out) (data : Bytes) : Out :=
  if room b data.length then { b with data := b.data ++ data } else { b with bad := true }

def mpintPieces (be : Bytes) : List Bytes :=
  match be.dropWhile (· = 0) with
  | [] => [word 0]
  | top :: rest =>
    if top &&& 0x80 ≠ 0 then [word (rest.length + 2), [0], top :: rest]
      else [word (rest.length + 1), top :: rest]

def putMpint (b : Out) (be : Bytes) : Out := (mpintPieces be).foldl putRaw b

def mpint (be : Bytes) : Bytes :=
  let digits := be.dropWhile (· = 0)
  let body := if digits.headD 0 &&& 0x80 ≠ 0 then 0 :: digits else digits
  word body.length ++ body

def memcpy (buf : Bytes) (pos : Nat) (bytes : Bytes) : Bytes :=
  buf.take pos ++ bytes ++ buf.drop (pos + bytes.length)

/-- What a derivation is over besides the secret: the hash, `H`, the session's id and the letter of
the key. -/
structure Exchange where
  hash : Bytes → { block : Bytes // block.length = hashLen }
  h : Bytes
  sessionId : Bytes
  letter : UInt8

variable (x : Exchange)

def fed (produced : Nat) (before : Bytes) : Bytes :=
  if produced = 0 then x.letter :: x.sessionId else before

/-- `K1 ‖ ... ‖ Kn`. -/
def blocks (k : Bytes) : Nat → Bytes
  | 0 => []
  | 1 => (x.hash (k ++ x.h ++ x.letter :: x.sessionId)).1
  | n + 2 => blocks k (n + 1) ++ (x.hash (k ++ x.h ++ blocks k (n + 1))).1

/-- The rounds of `derive_key` from where `out` holds `produced` bytes on. Any of them can fail in
the engine. -/
def rounds (engine : Nat → Bool) (mp : Bytes) (want : Nat) (out : Bytes) (produced : Nat) :
    Bool × Bytes :=
  if produced < want then
    if engine produced then
      let block := x.hash (mp ++ x.h ++ fed x produced (out.take produced))
      let take := if want - produced < block.1.length then want - produced else block.1.length
      rounds engine mp want (memcpy out produced (block.1.take take)) (produced + take)
    else (false, out)
  else (true, out)
termination_by want - produced
decreasing_by
  have full := (x.hash (mp ++ x.h ++ fed x produced (out.take produced))).2
  unfold hashLen at full
  split <;> omega

def deriveKey (engine : Nat → Bool) (secret : Bytes) (out : Bytes) (want : Nat) : Bool × Bytes :=
  let mb := putMpint ⟨x25519Len + 8, [], false⟩ secret
  if mb.bad then (false, out) else rounds x engine mb.data want out 0

/-- What is behind the first `want` bytes is left alone, and they are those of the blocks if all
went well. -/
structure Derived (k : Bytes) (want : Nat) (out : Bytes) (r : Bool × Bytes) : Prop where
  behind : r.2.drop want = out.drop want
  length : r.2.length = out.length
  bytes : r.1 = true → ∀ n, want ≤ n * hashLen → r.2.take want = (blocks x k n).take want

variable {x}

theorem blocks_succ (k : Bytes) (n : Nat) :
    blocks x k (n + 1) = blocks x k n ++ (x.hash (k ++ x.h ++ fed x n (blocks x k n))).1 := by
  cases n <;> rfl

theorem length_blocks (k : Bytes) (n : Nat) : (blocks x k n).length = n * hashLen := by
  induction n with
  | zero => rw [blocks, List.length_nil, Nat.zero_mul]
  | succ n ih => rw [blocks_succ, List.length_append, ih, (x.hash _).2, Nat.succ_mul]

theorem blocks_take {k : Bytes} {n m : Nat} (le : n ≤ m) :
    (blocks x k m).take (n * hashLen) = blocks x k n := by
  induction m, le using Nat.le_induction with
  | base => rw [← length_blocks, List.take_length]
  | succ m le ih =>
    rw [blocks_succ,
      List.take_append_of_le_length (by rw [length_blocks]; exact Nat.mul_le_mul_right _ le), ih]

theorem blocks_agree {k : Bytes} {want n m : Nat} (enough : want ≤ n * hashLen)
    (also : want ≤ m * hashLen) :
    (blocks x k n).take want = (blocks x k m).take want := by
  have shorter {n m : Nat} (le : n ≤ m) (enough : want ≤ n * hashLen) :
      (blocks x k n).take want = (blocks x k m).take want := by
    rw [← blocks_take le, List.take_take, Nat.min_eq_left enough]
  rcases Nat.le_total n m with le | le
  · exact shorter le enough
  · exact (shorter le also).symm

section Memcpy

variable {buf bytes : Bytes} {pos : Nat} (fits : pos + bytes.length ≤ buf.length)

include fits

theorem length_memcpy : (memcpy buf pos bytes).length = buf.length := by
  simp [memcpy]
  omega

theorem take_memcpy : (memcpy buf pos bytes).take (pos + bytes.length) = buf.take pos ++ bytes := by
  rw [memcpy, List.take_left' (by simp; omega)]

theorem drop_memcpy {n : Nat} (after : pos + bytes.length ≤ n) :
    (memcpy buf pos bytes).drop n = buf.drop n := by
  have front : (buf.take pos ++ bytes).length = pos + bytes.length := by
    simp
    omega
  rw [memcpy, List.drop_append, List.drop_eq_nil_of_le (by omega), List.nil_append,
    List.drop_drop, front, Nat.add_sub_cancel' after]

end Memcpy

theorem rounds_derived (engine : Nat → Bool) (k : Bytes) {want : Nat} {out : Bytes}
    {produced n : Nat} (fits : want ≤ out.length)
    (here : produced = min want (n * hashLen)) (sofar : out.take produced =
      (blocks x k n).take produced) :
    Derived x k want out (rounds x engine k want out produced) := by
  fun_induction rounds x engine k want out produced generalizing n with
  | case1 out produced more runs block take =>
    rename_i ih
    have whole : produced = n * hashLen := by omega
    have before : out.take produced = blocks x k n := by
      rw [sofar, whole, ← length_blocks, List.take_length]
    have same : fed x produced (out.take produced) = fed x n (blocks x k n) := by
      rw [before]
      simp [fed, whole, hashLen]
    have fresh : blocks x k (n + 1) = blocks x k n ++ block.1 := by rw [blocks_succ, ← same]
    have size : (block.1.take take).length = take ∧ take = min (want - produced) hashLen := by
      rw [List.length_take]
      simp only [take, block.2]
      split <;> omega
    have inside : produced + (block.1.take take).length ≤ out.length := by omega
    have next : produced + take = min want ((n + 1) * hashLen) := by
      rw [Nat.succ_mul]
      omega
    have got := take_memcpy inside
    rw [size.1, before] at got
    have rest := ih (length_memcpy inside ▸ fits) next (by
      rw [got, fresh, whole, ← length_blocks, List.take_length_add_append])
    exact ⟨rest.behind.trans (drop_memcpy inside (by omega)),
      rest.length.trans (length_memcpy inside), rest.bytes⟩
  | case2 => exact ⟨rfl, rfl, nofun⟩
  | case3 out produced all =>
    have whole : produced = want := by omega
    refine ⟨rfl, rfl, fun _ m enough => ?_⟩
    rw [blocks_agree enough (m := n) (by omega), ← whole, sofar]

theorem rounds_done {engine : Nat → Bool} (runs : ∀ n, engine n = true) (k : Bytes)
    (want : Nat) (out : Bytes) (produced : Nat) :
    (rounds x engine k want out produced).1 = true := by
  fun_induction rounds x engine k want out produced with
  | case1 _ _ _ _ _ _ ih => exact ih
  | case2 _ _ _ stops => exact absurd (runs _) stops
  | case3 => rfl

theorem flatten_pieces (be : Bytes) : (mpintPieces be).flatten = mpint be := by
  unfold mpintPieces mpint
  split
  · rename_i zero
    simp [zero]
  · rename_i digits
    split <;> simp_all

section

variable {pieces : List Bytes} {b : Out}

theorem bad_pieces (bad : b.bad = true) : (pieces.foldl putRaw b).bad = true := by
  induction pieces generalizing b with
  | nil => exact bad
  | cons piece pieces ih => exact ih (by simp [putRaw, room, bad])

theorem data_pieces (good : (pieces.foldl putRaw b).bad = false) :
    (pieces.foldl putRaw b).data = b.data ++ pieces.flatten := by
  induction pieces generalizing b with
  | nil => simp
  | cons piece pieces ih =>
    rw [List.foldl_cons] at good ⊢
    rw [ih good, List.flatten_cons, ← List.append_assoc]
    by_cases fits : room b piece.length = true
    · rw [putRaw, if_pos fits]
    · rw [putRaw, if_neg fits, bad_pieces rfl] at good
      cases good

theorem good_pieces (good : b.bad = false) (small : b.cap < 2 ^ 32)
    (fits : b.data.length + pieces.flatten.length ≤ b.cap) : (pieces.foldl putRaw b).bad =
    false := by
  induction pieces generalizing b with
  | nil => exact good
  | cons piece pieces ih =>
    rw [List.flatten_cons, List.length_append] at fits
    have here : room b piece.length = true := by
      simp [room, good]
      omega
    rw [List.foldl_cons, putRaw, if_pos here]
    refine ih good small (Nat.le_trans (Nat.le_of_eq ?_) fits)
    rw [List.length_append, Nat.add_assoc]

end

theorem length_mpint (be : Bytes) : (mpint be).length ≤ be.length + 5 := by
  have digits := (List.dropWhile_suffix (l := be) (· = 0)).length_le
  simp only [mpint, List.length_append, length_word]
  split <;> simp <;> omega

/-- The bytes asked for are the first ones of the blocks of RFC 4253 §7.2, and nothing is written
behind them. Only the engine can be in the way of a secret no longer than one of X25519. -/
theorem deriveKey_blocks (engine : Nat → Bool) (secret : Bytes) {out : Bytes}
    {want : Nat} (fits : want ≤ out.length) :
    Derived x (mpint secret) want out (deriveKey x engine secret out want) ∧
      (secret.length ≤ x25519Len → (∀ n, engine n = true) →
        (deriveKey x engine secret out want).1 = true) := by
  unfold deriveKey
  dsimp only
  cases bad : (putMpint ⟨x25519Len + 8, [], false⟩ secret).bad with
  | true =>
    rw [if_pos rfl]
    refine ⟨⟨rfl, rfl, nofun⟩, fun short _ => ?_⟩
    have good : (putMpint ⟨x25519Len + 8, [], false⟩ secret).bad = false := by
      refine good_pieces rfl (by decide) ?_
      rw [flatten_pieces]
      refine Nat.le_trans (Nat.add_le_add_left (length_mpint secret) _) ?_
      simp only [List.length_nil, x25519Len] at short ⊢
      omega
    cases bad.symm.trans good
  | false =>
    have written := data_pieces bad
    rw [flatten_pieces, List.nil_append] at written
    rw [if_neg Bool.false_ne_true, putMpint, written]
    exact ⟨rounds_derived (n := 0) engine _ fits (by simp) rfl, fun _ runs =>
      rounds_done runs _ _ _ _⟩

def sums : Exchange :=
  ⟨fun m => ⟨List.replicate hashLen (m.foldl (· + ·) 0), List.length_replicate⟩, [1], [2], 65⟩

theorem deriveKey_sums : Derived sums (mpint [9]) 40 (List.replicate 41 0)
    (deriveKey sums (fun _ => true) [9] (List.replicate 41 0) 40) :=
  (deriveKey_blocks (fun _ => true) [9] (by decide)).1

end Espix.Ssh.Derive
