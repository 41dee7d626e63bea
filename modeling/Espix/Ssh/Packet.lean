import Espix.Ssh.Mac

/-! The packets of the transport.

A packet is its length, and then padding length, payload and padding; with keys those are encrypted
and a MAC follows that covers what is sent and the number of the packet. -/

namespace Espix.Ssh

open Lib.Xdr (Bytes word readWord readWord_word length_word)

def maxPacket : Nat := 4096
def aesIvLen : Nat := 16
def cipherBlock : Nat := 8
def minPadding : Nat := 4
def txFrame : Nat := maxPacket + macLen + 8

inductive Err
  | invalidState
  | invalidSize
  | invalidMac
  | fail
  deriving DecidableEq

variable {suite : Suite}

variable (suite) in
structure Conn where
  rx : Dir suite
  tx : Dir suite
  seqIn : Nat
  seqOut : Nat

def blockSize (d : Dir suite) : Nat := if d.active then aesIvLen else cipherBlock

def alignedLen (d : Dir suite) (packetLen : Nat) : Nat :=
  if d.active then packetLen else 4 + packetLen

def wordAt (bytes : Bytes) : Nat := ((readWord bytes).map (·.1)).getD 0

section Read

variable {S : Type} (readExact : S → Nat → S × Option Bytes)

/-- With keys, the MAC is read and checked before anything is decrypted. -/
def openBody (c : Conn suite) (s : S) (header body : Bytes) : Conn suite × S × Except Err Bytes :=
  if c.rx.active then
    match readExact s macLen with
    | (s, none) => (c, s, .error .invalidState)
    | (s, some mac) =>
      if macEqual (macParts c.rx (word c.seqIn) header body) mac = false then
        (c, s, .error .invalidMac)
      else
        match suite.update c.rx.cipher body with
        | none => (c, s, .error .fail)
        | some (cipher, plain) =>
          ({ c with rx := { c.rx with cipher } }, s, if plain.length ≠ body.length then
            .error .fail else .ok plain)
  else (c, s, .ok body)

def handUp (c : Conn suite) (packetLen : Nat) (plain : Bytes) : Conn suite × Except Err Bytes :=
  let padding := (plain.headD 0).toNat
  if padding < minPadding ∨ padding + 1 > packetLen then (c, .error .invalidSize)
  else
    let payload := plain.tail.take (packetLen - padding - 1)
    ({ c with seqIn := (c.seqIn + 1) % 2 ^ 32 }, if payload.length = 0 then
      .error .invalidSize else .ok payload)

def handUpOpened {S : Type} (packetLen : Nat) : Conn suite × S × Except Err Bytes →
    Conn suite × S × Except Err Bytes
  | (c, s, .error e) => (c, s, .error e)
  | (c, s, .ok plain) => ((handUp c packetLen plain).1, s, (handUp c packetLen plain).2)

def packetRead (c : Conn suite) (s : S) : Conn suite × S × Except Err Bytes :=
  match readExact s 4 with
  | (s, none) => (c, s, .error .invalidState)
  | (s, some header) =>
    let packetLen := wordAt header
    let blk := blockSize c.rx
    if packetLen < blk ∨ packetLen > maxPacket - 4 ∨ alignedLen c.rx packetLen % blk ≠ 0 then
      (c, s, .error .invalidSize)
    else
      match readExact s packetLen with
      | (s, none) => (c, s, .error .invalidState)
      | (s, some body) =>
        handUpOpened packetLen (openBody readExact c s header body)

end Read

def takeExact (input : Bytes) (n : Nat) : Bytes × Option Bytes :=
  if n ≤ input.length then (input.drop n, some (input.take n)) else ([], none)

structure Buf where
  bytes : Bytes
  bad : Bool

abbrev Random := (n : Nat) → Option { bytes : Bytes // bytes.length = n }

def paddingFor (d : Dir suite) (len : Nat) : Nat :=
  let padding := blockSize d - alignedLen d (1 + len) % blockSize d
  if padding < minPadding then padding + blockSize d else padding

def packetLenFor (d : Dir suite) (len : Nat) : Nat := 1 + len + paddingFor d len

def writeAll (c : Conn suite) (took : Option Nat) (frame : Bytes) :
    Conn suite × Bytes × Except Err Unit :=
  match took with
  | none => ({ c with seqOut := (c.seqOut + 1) % 2 ^ 32 }, frame, .ok ())
  | some k => (c, frame.take k, .error .fail)

def writeSealed (c : Conn suite) (random : Random) (took : Option Nat) (payload : Bytes) :
    Conn suite × Bytes × Except Err Unit :=
  let padding := paddingFor c.tx payload.length
  let packetLen := packetLenFor c.tx payload.length
  match random padding with
  | none => (c, [], .error .fail)
  | some noise =>
    match suite.update c.tx.cipher (UInt8.ofNat padding :: (payload ++ noise.val)) with
    | none => (c, [], .error .fail)
    | some (cipher, body) =>
      let c := { c with tx := { c.tx with cipher } }
      if body.length ≠ packetLen then (c, [], .error .fail)
      else
        let mac := macParts c.tx (word c.seqOut ++ word packetLen ++ body) [] []
        writeAll c took (word packetLen ++ body ++ mac)

def packetWrite (c : Conn suite) (random : Random) (took : Option Nat) (b : Buf) :
    Conn suite × Bytes × Except Err Unit :=
  if b.bad then (c, [], .error .invalidSize)
  else
    let blk := blockSize c.tx
    let padding := paddingFor c.tx b.bytes.length
    let packetLen := packetLenFor c.tx b.bytes.length
    if alignedLen c.tx packetLen % blk ≠ 0 ∨ padding > 255 ∨ packetLen + macLen + 8 > txFrame then
      (c, [], .error .fail)
    else if c.tx.active then writeSealed c random took b.bytes
    else writeAll c took (word packetLen ++ UInt8.ofNat padding :: (b.bytes ++ zeros padding))

section Padding

variable (d : Dir suite) (len : Nat)

theorem paddingFor_bounds : minPadding ≤ paddingFor d len ∧ paddingFor d len ≤ 255 := by
  unfold paddingFor blockSize alignedLen minPadding aesIvLen cipherBlock
  cases d.active with
  | false =>
    simp only [Bool.false_eq_true, ↓reduceIte]
    split <;> omega
  | true =>
    simp only [↓reduceIte]
    split <;> omega

theorem aligned_packetLenFor : alignedLen d (packetLenFor d len) % blockSize d = 0 := by
  unfold packetLenFor paddingFor blockSize alignedLen minPadding aesIvLen cipherBlock
  cases d.active with
  | false =>
    simp only [Bool.false_eq_true, ↓reduceIte]
    split <;> omega
  | true =>
    simp only [↓reduceIte]
    split <;> omega

theorem blockSize_le_packetLenFor : blockSize d ≤ packetLenFor d len := by
  have aligned := aligned_packetLenFor d len
  have enough : 1 + minPadding ≤ packetLenFor d len := by
    have padding := (paddingFor_bounds d len).1
    unfold packetLenFor
    omega
  unfold blockSize alignedLen at *
  cases active : d.active with
  | false =>
    simp only [active, Bool.false_eq_true, ↓reduceIte] at aligned ⊢
    unfold minPadding cipherBlock at *
    omega
  | true =>
    simp only [active, ↓reduceIte] at aligned ⊢
    unfold minPadding aesIvLen at *
    omega

end Padding

theorem wordAt_word {n : Nat} (small : n < 2 ^ 32) : wordAt (word n) = n := by
  have found := readWord_word n []
  rw [List.append_nil] at found
  rw [wordAt, found, Option.map_some, Option.getD_some, Nat.mod_eq_of_lt small]

theorem takeExact_append {n : Nat} {bytes : Bytes} (length : bytes.length = n) (rest : Bytes) :
    takeExact (bytes ++ rest) n = (rest, some bytes) := by
  subst length
  rw [takeExact, if_pos (by rw [List.length_append]; omega), List.drop_left, List.take_left]

section Frames

variable {c : Conn suite} {payload pad rest : Bytes} {padding : UInt8}

theorem handUp_plain (enough : minPadding ≤ padding.toNat) (padded : pad.length = padding.toNat)
    (some_bytes : payload ≠ []) :
    handUp c (1 + payload.length + padding.toNat) (padding :: (payload ++ pad)) =
      ({ c with seqIn := (c.seqIn + 1) % 2 ^ 32 }, .ok payload) := by
  have exactly : 1 + payload.length + padding.toNat - padding.toNat - 1 = payload.length := by omega
  unfold handUp
  dsimp only [List.headD_cons, List.tail_cons]
  rw [if_neg (by omega), exactly, List.take_left, if_neg (by rwa [List.length_eq_zero_iff])]

def Fits (d : Dir suite) (packetLen : Nat) : Prop :=
  blockSize d ≤ packetLen ∧ packetLen ≤ maxPacket - 4 ∧ alignedLen d packetLen % blockSize d = 0

theorem packetRead_frame {header body tail : Bytes} (four : header.length = 4)
    (fits : Fits c.rx (wordAt header))
    (length : body.length = wordAt header) :
    packetRead takeExact c (header ++ (body ++ tail)) =
      handUpOpened (wordAt header) (openBody takeExact c tail header body) := by
  obtain ⟨block, most, aligned⟩ := fits
  unfold packetRead
  rw [takeExact_append four]
  dsimp only
  rw [if_neg (by simp only [not_or, not_lt, not_not]; exact ⟨block, most, aligned⟩),
    takeExact_append length]

end Frames

section RoundTrip

structure Mirrored (w r : Conn suite) : Prop where
  active : r.rx.active = w.tx.active
  cipher : suite.Mirrors w.tx.cipher r.rx.cipher
  inner : r.rx.macInner = w.tx.macInner
  outer : r.rx.macOuter = w.tx.macOuter
  seq : r.seqIn = w.seqOut

variable {w r : Conn suite} {payload : Bytes}

section

variable (mirrored : Mirrored w r)

include mirrored

theorem Mirrored.blockSize : blockSize r.rx = blockSize w.tx := by
  rw [Ssh.blockSize, Ssh.blockSize, mirrored.active]

theorem Mirrored.alignedLen (n : Nat) : alignedLen r.rx n = alignedLen w.tx n := by
  rw [Ssh.alignedLen, Ssh.alignedLen, mirrored.active]

theorem Mirrored.macParts (a b c : Bytes) : macParts r.rx a b c = macParts w.tx a b c := by
  rw [Ssh.macParts, Ssh.macParts, mirrored.inner, mirrored.outer]

theorem Mirrored.fits {len : Nat} (small : packetLenFor w.tx len ≤ maxPacket - 4) :
    Fits r.rx (packetLenFor w.tx len) := by
  refine ⟨?_, small, ?_⟩
  · rw [mirrored.blockSize]
    exact blockSize_le_packetLenFor _ _
  · rw [mirrored.blockSize, mirrored.alignedLen]
    exact aligned_packetLenFor _ _

end

structure Framed (d : Dir suite) (len : Nat) (wire : Bytes) : Prop where
  number : wordAt wire = packetLenFor d len
  length : wire.length = 4 + wordAt wire + if d.active then 32 else 0
  least : 1 + len + 4 ≤ wordAt wire
  most : wordAt wire ≤ 1 + len + 255
  aligned : (if d.active then wordAt wire % 16 else (4 + wordAt wire) % 8) = 0

theorem framed {d : Dir suite} {len : Nat} {body : Bytes} (small : packetLenFor d len < 2 ^ 32)
    (length : body.length = packetLenFor d len + if d.active then macLen else 0) :
    Framed d len (word (packetLenFor d len) ++ body) := by
  have number : wordAt (word (packetLenFor d len) ++ body) = packetLenFor d len := by
    rw [wordAt, readWord_word, Option.map_some, Option.getD_some, Nat.mod_eq_of_lt small]
  have bounds := paddingFor_bounds d len
  have aligned := aligned_packetLenFor d len
  refine ⟨number, ?_, ?_, ?_, ?_⟩
  · rw [List.length_append, length_word, length, number, Nat.add_assoc]
    rfl
  · rw [number, packetLenFor]
    exact Nat.add_le_add_left bounds.1 _
  · rw [number, packetLenFor]
    exact Nat.add_le_add_left bounds.2 _
  · rw [number]
    cases active : d.active <;>
      simpa [alignedLen, blockSize, active, aesIvLen, cipherBlock] using aligned

def ReadBack (w r w' : Conn suite) (wire payload : Bytes) : Prop :=
  ∃ r', (∀ rest, packetRead takeExact r (wire ++ rest) = (r', rest, .ok payload)) ∧ Mirrored w' r' ∧
    w'.seqOut = (w.seqOut + 1) % 2 ^ 32 ∧ r'.seqIn = (r.seqIn + 1) % 2 ^ 32 ∧
    w'.tx.active = w.tx.active

theorem toNat_paddingFor (d : Dir suite) (len : Nat) :
    (UInt8.ofNat (paddingFor d len)).toNat = paddingFor d len := by
  have most := (paddingFor_bounds d len).2
  rw [UInt8.toNat_ofNat', Nat.mod_eq_of_lt (by omega)]

theorem packetWrite_goes_on (random : Random)
    (small : packetLenFor w.tx payload.length ≤ maxPacket - 4) :
    packetWrite w random none ⟨payload, false⟩ =
      if w.tx.active then writeSealed w random none payload
      else writeAll w none (word (packetLenFor w.tx payload.length) ++
        UInt8.ofNat (paddingFor w.tx payload.length) :: (payload ++
          zeros (paddingFor w.tx payload.length))) := by
  have padding := paddingFor_bounds w.tx payload.length
  have aligned := aligned_packetLenFor w.tx payload.length
  unfold packetWrite
  rw [if_neg Bool.false_ne_true]
  dsimp only
  rw [if_neg]
  simp only [not_or, not_lt, not_not]
  refine ⟨aligned, padding.2, ?_⟩
  unfold txFrame
  omega

theorem packetLenFor_lt (small : packetLenFor w.tx payload.length ≤ maxPacket - 4) :
    packetLenFor w.tx payload.length < 2 ^ 32 :=
  Nat.lt_of_le_of_lt small (by decide)

theorem handUp_packetLenFor (c : Conn suite) {pad : Bytes} (d : Dir suite)
    (padded : pad.length = paddingFor d payload.length)
    (some_bytes : payload ≠ []) :
    handUp c (packetLenFor d payload.length)
    (UInt8.ofNat (paddingFor d payload.length) :: (payload ++ pad)) =
      ({ c with seqIn := (c.seqIn + 1) % 2 ^ 32 }, .ok payload) := by
  have number := toNat_paddingFor d payload.length
  have enough : minPadding ≤ (UInt8.ofNat (paddingFor d payload.length)).toNat := by
    rw [number]
    exact (paddingFor_bounds d _).1
  have result := handUp_plain (c := c) enough (padded.trans number.symm) some_bytes
  rwa [number] at result

theorem read_back_clear (mirrored : Mirrored w r) (clear : w.tx.active = false)
    (random : Random) (some_bytes : payload ≠ [])
    (small : packetLenFor w.tx payload.length ≤ maxPacket - 4) :
    ∃ w' wire, packetWrite w random none ⟨payload, false⟩ = (w', wire, .ok ()) ∧
      Framed w.tx payload.length wire ∧ ReadBack w r w' wire payload := by
  rw [packetWrite_goes_on random small, if_neg (by rw [clear]; exact Bool.false_ne_true)]
  have padded : (zeros (paddingFor w.tx payload.length)).length = paddingFor w.tx payload.length :=
    List.length_replicate
  have whole : (UInt8.ofNat (paddingFor w.tx payload.length) :: (payload ++
    zeros (paddingFor w.tx payload.length))).length =
      packetLenFor w.tx payload.length := by
    rw [List.length_cons, List.length_append, padded, packetLenFor]
    omega
  have number := wordAt_word (packetLenFor_lt small)
  refine ⟨_, _, rfl, framed (packetLenFor_lt small) ?_, { r with seqIn := (r.seqIn + 1) % 2 ^ 32 },
    fun rest => ?_, ?_,
    rfl, rfl, rfl⟩
  · rw [whole, if_neg (by rw [clear]; exact Bool.false_ne_true), Nat.add_zero]
  · rw [List.append_assoc,
      packetRead_frame (length_word _) (by rw [number]; exact mirrored.fits small)]
    · rw [openBody, if_neg (by rw [mirrored.active, clear]; exact Bool.false_ne_true)]
      dsimp only [handUpOpened]
      rw [number, handUp_packetLenFor r w.tx padded some_bytes]
    · rw [number]
      exact whole
  · exact ⟨mirrored.active, mirrored.cipher, mirrored.inner, mirrored.outer,
      congrArg (fun n => (n + 1) % 2 ^ 32) mirrored.seq⟩

theorem read_back_sealed (mirrored : Mirrored w r) (active : w.tx.active = true) {random : Random}
    {noise : { bytes : Bytes // bytes.length = paddingFor w.tx payload.length }}
    (drawn : random (paddingFor w.tx payload.length) = some noise) (some_bytes : payload ≠ [])
    (small : packetLenFor w.tx payload.length ≤ maxPacket - 4) :
    ∃ w' wire, packetWrite w random none ⟨payload, false⟩ = (w', wire, .ok ()) ∧
      Framed w.tx payload.length wire ∧ ReadBack w r w' wire payload := by
  obtain ⟨after, before, body, made, length, undone, still⟩ :=
    suite.undoes (UInt8.ofNat (paddingFor w.tx payload.length) :: (payload ++
      noise.val)) mirrored.cipher
  have whole : body.length = packetLenFor w.tx payload.length := by
    rw [length, List.length_cons, List.length_append, noise.property, packetLenFor]
    omega
  have number := wordAt_word (packetLenFor_lt small)
  have written : packetWrite w random none ⟨payload, false⟩ =
      writeAll { w with tx := { w.tx with cipher := after } } none
      (word (packetLenFor w.tx payload.length) ++ body ++
        macParts w.tx (word w.seqOut ++ word (packetLenFor w.tx payload.length) ++
            body) [] []) := by
    rw [packetWrite_goes_on random small, if_pos active, writeSealed]
    dsimp only
    rw [drawn]
    dsimp only
    rw [made]
    dsimp only
    rw [if_neg (not_not.mpr whole)]
    rfl
  refine ⟨_, _, written, ?_, { r with rx := { r.rx with cipher := before }, seqIn := (r.seqIn + 1) %
    2 ^ 32 }, fun rest => ?_, ?_,
    rfl, rfl, rfl⟩
  · rw [List.append_assoc]
    refine framed (packetLenFor_lt small) ?_
    rw [List.length_append, whole, length_macParts, if_pos active]
  · rw [List.append_assoc, List.append_assoc,
      packetRead_frame (length_word _) (by rw [number]; exact mirrored.fits small)
      (by rw [number]; exact whole)]
    -- the MAC over three parts is the one over the frame
    have same : macParts r.rx (word r.seqIn) (word (packetLenFor w.tx payload.length)) body =
        macParts w.tx (word w.seqOut ++ word (packetLenFor w.tx payload.length) ++ body) [] [] := by
      rw [mirrored.macParts, macParts_tag, macParts_tag, mirrored.seq, List.append_nil,
        List.append_nil]
    rw [openBody, if_pos (by rw [mirrored.active, active]),
      takeExact_append (length_macParts _ _ _ _), same]
    dsimp only
    rw [(macEqual_iff rfl).mpr rfl, if_neg Bool.true_eq_false.mp, undone]
    dsimp only [handUpOpened]
    rw [if_neg (not_not.mpr length.symm)]
    dsimp only [handUpOpened]
    rw [number, handUp_packetLenFor _ w.tx noise.property some_bytes]
  · exact ⟨mirrored.active, still, mirrored.inner, mirrored.outer,
      congrArg (fun n => (n + 1) % 2 ^ 32) mirrored.seq⟩

def Draws (w : Conn suite) (random : Random) (payload : Bytes) : Prop :=
  w.tx.active = true → (random (paddingFor w.tx payload.length)).isSome

theorem read_back {random : Random} (mirrored : Mirrored w r) (some_bytes : payload ≠ [])
    (small : packetLenFor w.tx payload.length ≤ maxPacket - 4) (draws : Draws w random payload) :
    ∃ w' wire, packetWrite w random none ⟨payload, false⟩ = (w', wire, .ok ()) ∧
      Framed w.tx payload.length wire ∧ ReadBack w r w' wire payload := by
  cases active : w.tx.active with
  | false => exact read_back_clear mirrored active random some_bytes small
  | true =>
    obtain ⟨noise, drawn⟩ := Option.isSome_iff_exists.mp (draws active)
    exact read_back_sealed mirrored active drawn some_bytes small

end RoundTrip

section Authentic

variable {S : Type} {readExact : S → Nat → S × Option Bytes} {c c' : Conn suite}
    {s s' : S} {payload : Bytes}

theorem packetRead_ok (handed : packetRead readExact c s = (c', s', .ok payload)) :
    ∃ s₁ s₂ header body c₁ plain, readExact s 4 = (s₁, some header) ∧ Fits c.rx (wordAt header) ∧
      readExact s₁ (wordAt header) = (s₂, some body) ∧
      openBody readExact c s₂ header body = (c₁, s', .ok plain) ∧
      handUp c₁ (wordAt header) plain = (c', .ok payload) := by
  revert handed
  fun_cases packetRead readExact c s with
  | case1 | case2 | case3 => exact nofun
  | case4 s₁ header first packetLen blk fits s₂ body second =>
    intro handed
    simp only [not_or, not_lt, not_not] at fits
    unfold handUpOpened at handed
    split at handed
    · cases handed
    · rename_i c₁ s₃ plain opened
      rw [Prod.mk.injEq, Prod.mk.injEq] at handed
      obtain ⟨rfl, rfl, up⟩ := handed
      exact ⟨s₁, s₂, header, body, c₁, plain, first, fits, second, opened, Prod.ext rfl up⟩

theorem openBody_ok {header body plain : Bytes} (active : c.rx.active = true)
    (opened : openBody readExact c s header body = (c', s', .ok plain)) :
    ∃ mac cipher, readExact s macLen = (s', some mac) ∧
    macEqual (macParts c.rx (word c.seqIn) header body) mac = true ∧
      suite.update c.rx.cipher body = some (cipher, plain) := by
  revert opened
  fun_cases openBody readExact c s header body with
  | case1 | case2 | case3 => exact nofun
  | case4 _ s₁ mac third verified cipher made decrypted =>
    intro opened
    rw [Prod.mk.injEq, Prod.mk.injEq] at opened
    obtain ⟨-, rfl, whole⟩ := opened
    split at whole
    · cases whole
    · cases whole
      exact ⟨mac, cipher, third, Bool.eq_true_of_not_eq_false verified, decrypted⟩
  | case5 inactive => exact absurd active inactive

theorem handUp_infix {packetLen : Nat} {plain : Bytes}
    (up : handUp c packetLen plain = (c', .ok payload)) :
    payload <:+: plain := by
  unfold handUp at up
  dsimp only at up
  split at up
  · cases up
  · rw [Prod.mk.injEq] at up
    obtain ⟨-, result⟩ := up
    split at result
    · cases result
    · cases result
      exact (List.take_prefix _ _).isInfix.trans (List.tail_suffix _).isInfix

theorem takeExact_some {input rest bytes : Bytes} {n : Nat}
    (taken : takeExact input n = (rest, some bytes)) :
    input = bytes ++ rest ∧ bytes.length = n := by
  unfold takeExact at taken
  split at taken
  · rename_i enough
    cases taken
    exact ⟨(List.take_append_drop n input).symm, List.length_take_of_le enough⟩
  · cases taken

/-- A packet of the length that its header says, with the MAC over its number, header and
ciphertext. -/
def Verified (c : Conn suite) (input rest payload : Bytes) : Prop :=
  ∃ header body mac cipher plain, input = header ++ (body ++ (mac ++ rest)) ∧
  header.length = 4 ∧ body.length = wordAt header ∧
    mac = tag c.rx (word c.seqIn ++ header ++ body) ∧
    suite.update c.rx.cipher body = some (cipher, plain) ∧
    payload <:+: plain

theorem verified_of_handed {input rest : Bytes} (active : c.rx.active = true)
    (handed : packetRead takeExact c input = (c', rest, .ok payload)) : Verified
    c input rest payload := by
  obtain ⟨s₁, s₂, header, body, c₁, plain, first, -, second, opened, up⟩ := packetRead_ok handed
  obtain ⟨mac, cipher, third, equal, decrypted⟩ := openBody_ok active opened
  obtain ⟨rfl, four⟩ := takeExact_some first
  obtain ⟨rfl, length⟩ := takeExact_some second
  obtain ⟨rfl, last⟩ := takeExact_some third
  have same := (macEqual_iff ((length_macParts _ _ _ _).trans last.symm)).mp equal
  rw [macParts_tag] at same
  exact ⟨header, body, mac, cipher, plain, rfl, four, length, same.symm, decrypted, handUp_infix up⟩

end Authentic

/-- Between two sides that mirror each other every payload that fits comes back whole and the
numbers go on together; and with keys nothing is handed up from a packet whose MAC is not the one of
that packet. -/
theorem packet_round_trip (suite : Suite) :
    (∀ (w r : Conn suite) (random : Random) (payload : Bytes), Mirrored w r → payload ≠ [] →
      packetLenFor w.tx payload.length ≤ maxPacket - 4 → Draws w random payload →
      ∃ w' wire, packetWrite w random none ⟨payload, false⟩ = (w', wire, .ok ()) ∧
        Framed w.tx payload.length wire ∧ ReadBack w r w' wire payload) ∧
    ∀ (c c' : Conn suite) (input rest payload : Bytes), c.rx.active = true →
      packetRead takeExact c input = (c', rest, .ok payload) → Verified c input rest payload :=
  ⟨fun _ _ _ _ mirrored some_bytes small draws => read_back mirrored some_bytes small draws,
    fun _ _ _ _ _ active handed => verified_of_handed active handed⟩

def sumSuite : Suite where
  Cipher := UInt8
  update k bytes := some (k + 1, bytes.map (· ^^^ k))
  Mirrors := Eq
  undoes := by
    rintro w _ plain rfl
    refine ⟨w + 1, w + 1, plain.map (· ^^^ w), rfl, List.length_map _, ?_, rfl⟩
    rw [List.map_map, List.map_congr_left (g := id) fun x _ => ?_, List.map_id]
    rw [Function.comp, UInt8.xor_assoc, UInt8.xor_self, UInt8.xor_zero, id]
  Digest := UInt8
  block d bytes := bytes.foldl (· + ·) d
  digest d := List.replicate macLen d
  length_digest _ := List.length_replicate

def keyed : Conn sumSuite :=
  ⟨⟨true, (7 : UInt8), (1 : UInt8), (2 : UInt8)⟩,
    ⟨true, (7 : UInt8), (1 : UInt8), (2 : UInt8)⟩, 0, 0⟩

def noNoise : Random := fun n => some ⟨zeros n, List.length_replicate⟩

theorem packet_round_trip_keyed : ∃ w' r' wire, packetWrite keyed noNoise none ⟨[5, 6], false⟩ =
    (w', wire, .ok ()) ∧
    packetRead takeExact keyed wire = (r', [], .ok [5, 6]) ∧ Verified keyed wire [] [5, 6] := by
  obtain ⟨w', wire, written, -, r', back, -⟩ :=
    (packet_round_trip sumSuite).1 keyed keyed noNoise [5, 6]
    ⟨rfl, rfl, rfl, rfl, rfl⟩ (List.cons_ne_nil _ _) (by decide) fun _ => rfl
  have read := back []
  rw [List.append_nil] at read
  exact ⟨w', r', wire, written, read, (packet_round_trip sumSuite).2 keyed r' wire
    [] [5, 6] rfl read⟩

end Espix.Ssh
