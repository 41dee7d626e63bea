import Espix.Lib.Xdr

/-! The header of an RPC call.

`rpc_parse_call` of `components/espix_nfsd/rpc.c`, in the 32 bits of a `size_t`. The message is
memory from its first byte on, as nothing but the length says where it ends. -/

namespace Espix.Nfsd.CallHeader

open Lib.Xdr (padded le_padded)

abbrev Memory := Nat → UInt8

def wrap (n : Nat) : Nat := n % 2 ^ 32

def roundUp (n : Nat) : Nat := wrap (n + 3) / 4 * 4

def rpcMsgCall : Nat := 0
def rpcVersion : Nat := 2
def rpcAuthSys : Nat := 1

/-- `rpc_call_t`, and where the ids of an `AUTH_SYS` credential were read. -/
structure Call where
  len : Nat
  pos : Nat
  xid : Nat
  prog : Nat
  vers : Nat
  proc : Nat
  credFlavor : Nat
  uid : Nat
  gid : Nat
  haveAuthSys : Bool
  idsAt : Nat
deriving DecidableEq

section Parse

variable (mem : Memory)

def rd32 (p : Nat) : Nat :=
  (mem p).toNat * 2 ^ 24 + (mem (p + 1)).toNat * 2 ^ 16 + (mem (p + 2)).toNat * 2 ^ 8 +
    (mem (p + 3)).toNat

def rpcGetU32 (c : Call) : Option (Nat × Call) :=
  if wrap (c.pos + 4) > c.len then none
  else some (rd32 mem c.pos, { c with pos := wrap (c.pos + 4) })

def readIds (c : Call) : Call :=
  match rpcGetU32 mem c with
  | none => c
  | some (uid, next) =>
    match rpcGetU32 mem { next with uid } with
    | none => { next with uid }
    | some (gid, last) => { last with gid, haveAuthSys := true, idsAt := c.pos }

def readAuthSys (c : Call) (credEnd : Nat) : Call :=
  match rpcGetU32 mem c with
  | none => c
  | some (_, c) =>
    match rpcGetU32 mem c with
    | none => c
    | some (machlen, c) =>
      if wrap (c.pos + roundUp machlen) ≤ credEnd then
        readIds mem { c with pos := wrap (c.pos + roundUp machlen) } else c

def readCredential (c : Call) : Option Call := do
  let (flavor, c) ← rpcGetU32 mem c
  let (clen, c) ← rpcGetU32 mem c
  let c := { c with credFlavor := flavor }
  let credEnd := wrap (c.pos + roundUp clen)
  if credEnd > c.len then none
  else some { (if flavor = rpcAuthSys then readAuthSys mem c credEnd else c) with pos := credEnd }

def skipVerifier (c : Call) : Option Call := do
  let (_, c) ← rpcGetU32 mem c
  let (clen, c) ← rpcGetU32 mem c
  if wrap (c.pos + roundUp clen) > c.len then none
    else some { c with pos := wrap (c.pos + roundUp clen) }

def readFixed (c : Call) : Option Call := do
  let (xid, c) ← rpcGetU32 mem c
  let (kind, c) ← rpcGetU32 mem c
  if kind ≠ rpcMsgCall then none
  else
    let (version, c) ← rpcGetU32 mem c
    if version ≠ rpcVersion then none
    else
      let (prog, c) ← rpcGetU32 mem c
      let (vers, c) ← rpcGetU32 mem c
      let (proc, c) ← rpcGetU32 mem c
      some { c with xid, prog, vers, proc }

def rpcParseCall (len : Nat) : Option Call := do
  let c ← readFixed mem ⟨len, 0, 0, 0, 0, 0, 0, 0, 0, false, 0⟩
  let c ← readCredential mem c
  skipVerifier mem c

end Parse

/-! The layout of a message, in plain numbers. -/

section Layout

variable (mem : Memory)

def credFlavorOf : Nat := rd32 mem 24

def credLen : Nat := rd32 mem 28

def verifierAt : Nat := 32 + padded (credLen mem)

def verifierLen : Nat := rd32 mem (verifierAt mem + 4)

def argsAt : Nat := verifierAt mem + 8 + padded (verifierLen mem)

/-- Where 32 bits put the end of the machine name, whose length stands behind the stamp. -/
def nameEnd : Nat := wrap (40 + roundUp (rd32 mem 36))

/-- What an accepted message is to be: the two lengths fit, the cursor is at the arguments, and the
ids are in the credential's body. -/
structure Contained (len : Nat) (c : Call) : Prop where
  fits : argsAt mem ≤ len
  cursor : c.pos = argsAt mem
  inBody : c.haveAuthSys = true →
    32 ≤ c.idsAt ∧ c.idsAt + 8 ≤ 32 + credLen mem ∧ c.uid = rd32 mem c.idsAt ∧
    c.gid = rd32 mem (c.idsAt + 4)

/-- No length reaches the end of the 32 bits, and a machine name that ends in the credential leaves
room for the ids in its body. -/
structure Plain : Prop where
  unwrapped : argsAt mem < 2 ^ 32
  room : credFlavorOf mem = rpcAuthSys → nameEnd mem ≤ verifierAt mem →
    32 ≤ nameEnd mem ∧ nameEnd mem + 8 ≤ 32 + credLen mem

end Layout

theorem wrap_of_lt {n : Nat} (small : n < 2 ^ 32) : wrap n = n :=
  Nat.mod_eq_of_lt small

theorem roundUp_of_lt {n : Nat} (small : n + 3 < 2 ^ 32) : roundUp n = padded n := by
  unfold roundUp padded
  rw [wrap_of_lt small]

section Reads

variable {mem : Memory} {c next : Call} {v : Nat}

theorem getU32_some (read : rpcGetU32 mem c = some (v, next)) :
    wrap (c.pos + 4) ≤ c.len ∧ v = rd32 mem c.pos ∧ next = { c with pos := wrap (c.pos + 4) } := by
  unfold rpcGetU32 at read
  split at read
  · cases read
  · next inside =>
      cases read
      exact ⟨Nat.le_of_not_lt inside, rfl, rfl⟩

theorem getU32_inside (inside : wrap (c.pos + 4) ≤ c.len) :
    rpcGetU32 mem c = some (rd32 mem c.pos, { c with pos := wrap (c.pos + 4) }) :=
  if_neg (Nat.not_lt.mpr inside)

theorem readFixed_some (at_zero : c.pos = 0) (read : readFixed mem c = some next) :
    next.len = c.len ∧ next.pos = 24 ∧ next.haveAuthSys = c.haveAuthSys := by
  unfold readFixed at read
  simp only [Option.bind_eq_bind, Option.bind_eq_some_iff, Prod.exists] at read
  obtain ⟨_, c₁, first, _, c₂, second, rest⟩ := read
  obtain ⟨-, -, rfl⟩ := getU32_some first
  obtain ⟨-, -, rfl⟩ := getU32_some second
  split at rest
  · cases rest
  simp only [Option.bind_eq_some_iff, Prod.exists] at rest
  obtain ⟨_, c₃, third, rest⟩ := rest
  obtain ⟨-, -, rfl⟩ := getU32_some third
  split at rest
  · cases rest
  simp only [Option.bind_eq_some_iff, Prod.exists] at rest
  obtain ⟨_, c₄, fourth, _, c₅, fifth, _, c₆, sixth, rest⟩ := rest
  obtain ⟨-, -, rfl⟩ := getU32_some fourth
  obtain ⟨-, -, rfl⟩ := getU32_some fifth
  obtain ⟨-, -, rfl⟩ := getU32_some sixth
  cases rest
  refine ⟨rfl, ?_, rfl⟩
  simp [at_zero, wrap]

theorem readIds_len (c : Call) : (readIds mem c).len = c.len := by
  unfold readIds
  split
  · rfl
  · next first =>
      obtain ⟨-, -, rfl⟩ := getU32_some first
      split
      · rfl
      · next second =>
          obtain ⟨-, -, rfl⟩ := getU32_some second
          rfl

/-- The ids that are reported stand at `place`. -/
def IdsFrom (mem : Memory) (place : Nat) (c : Call) : Prop :=
  c.haveAuthSys = true → c.idsAt = place ∧ c.uid = rd32 mem place ∧
  c.gid = rd32 mem (wrap (place + 4))

theorem idsFrom_fresh {place : Nat} (fresh : c.haveAuthSys = false) : IdsFrom mem place c := by
  intro reported
  rw [fresh] at reported
  cases reported

theorem IdsFrom.moved {place : Nat} (ids : IdsFrom mem place c) (pos : Nat) :
    IdsFrom mem place { c with pos } :=
  fun reported => ids reported

theorem readIds_reported (fresh : c.haveAuthSys = false) : IdsFrom mem c.pos (readIds mem c) := by
  unfold readIds
  split
  · exact idsFrom_fresh fresh
  · next first =>
      obtain ⟨-, rfl, rfl⟩ := getU32_some first
      split
      · exact idsFrom_fresh fresh
      · next second =>
          obtain ⟨-, rfl, rfl⟩ := getU32_some second
          exact fun _ => ⟨rfl, rfl, rfl⟩

theorem readIds_inside (short : c.len < 2 ^ 32) (inside : c.pos + 8 ≤ c.len) :
    (readIds mem c).haveAuthSys = true := by
  have behind : wrap (c.pos + 4) = c.pos + 4 := wrap_of_lt (by omega)
  unfold readIds
  rw [getU32_inside (by omega)]
  dsimp only
  rw [getU32_inside]
  dsimp only
  rw [behind, wrap_of_lt (by omega)]
  omega

theorem readAuthSys_reported {credEnd : Nat} (fresh : c.haveAuthSys = false) (start : c.pos = 32) :
    IdsFrom mem (nameEnd mem) (readAuthSys mem c credEnd) ∧
      ((readAuthSys mem c credEnd).haveAuthSys = true → nameEnd mem ≤ credEnd) := by
  have nothing {r : Call} (same : r.haveAuthSys = c.haveAuthSys) :
      IdsFrom mem (nameEnd mem) r ∧ (r.haveAuthSys = true → nameEnd mem ≤ credEnd) := by
    have still : r.haveAuthSys = false := same.trans fresh
    exact ⟨idsFrom_fresh still, fun reported =>
      absurd (still.symm.trans reported) Bool.false_ne_true⟩
  unfold readAuthSys
  split
  · exact nothing rfl
  · next first =>
      obtain ⟨-, -, rfl⟩ := getU32_some first
      split
      · exact nothing rfl
      · next second =>
          obtain ⟨-, rfl, rfl⟩ := getU32_some second
          simp only [start, show wrap (32 + 4) = 36 from rfl, show wrap (36 + 4) = 40 from rfl]
          split
          · next inside =>
              refine ⟨readIds_reported ?_, fun _ => inside⟩
              exact fresh
          · exact nothing rfl

theorem readAuthSys_inside {credEnd : Nat} (start : c.pos = 32) (short : c.len < 2 ^ 32)
    (body : 40 ≤ c.len)
    (name : nameEnd mem ≤ credEnd) (room : nameEnd mem + 8 ≤ c.len) :
    (readAuthSys mem c credEnd).haveAuthSys = true := by
  unfold readAuthSys
  rw [getU32_inside (by rw [start]; unfold wrap; omega)]
  dsimp only
  rw [getU32_inside (by simp only [start]; unfold wrap; omega)]
  simp only [start, show wrap (32 + 4) = 36 from rfl, show wrap (36 + 4) = 40 from rfl]
  change wrap (40 + roundUp (rd32 mem 36)) ≤ credEnd at name
  rw [if_pos name]
  exact readIds_inside short room

theorem readAuthSys_len {credEnd : Nat} (c : Call) : (readAuthSys mem c credEnd).len = c.len := by
  unfold readAuthSys
  split
  · rfl
  · next first =>
      obtain ⟨-, -, rfl⟩ := getU32_some first
      split
      · rfl
      · next second =>
          obtain ⟨-, -, rfl⟩ := getU32_some second
          split
          · exact readIds_len _
          · rfl

/-- What the credential leaves, from the cursor at its flavour on. -/
structure Credential (mem : Memory) (c next : Call) : Prop where
  len : next.len = c.len
  header : 32 ≤ c.len
  pos : next.pos = wrap (32 + roundUp (credLen mem))
  inside : next.pos ≤ c.len
  ids : IdsFrom mem (nameEnd mem) next
  reported : next.haveAuthSys = true → credFlavorOf mem = rpcAuthSys ∧ nameEnd mem ≤ next.pos
  reports : credFlavorOf mem = rpcAuthSys → 40 ≤ c.len → nameEnd mem ≤ next.pos →
    nameEnd mem + 8 ≤ c.len →
    next.haveAuthSys = true

theorem readCredential_some (short : c.len < 2 ^ 32) (fresh : c.haveAuthSys = false)
    (start : c.pos = 24)
    (read : readCredential mem c = some next) : Credential mem c next := by
  unfold readCredential at read
  simp only [Option.bind_eq_bind, Option.bind_eq_some_iff, Prod.exists] at read
  obtain ⟨_, c₁, first, _, c₂, second, rest⟩ := read
  obtain ⟨-, rfl, rfl⟩ := getU32_some first
  obtain ⟨header, rfl, rfl⟩ := getU32_some second
  simp only [start, show wrap (24 + 4) = 28 from rfl, show wrap (28 + 4) =
    32 from rfl] at header rest
  split at rest
  · cases rest
  next inside =>
    cases rest
    by_cases sys : rd32 mem 24 = rpcAuthSys
    · rw [if_pos sys]
      refine ⟨readAuthSys_len _, header, rfl, Nat.le_of_not_lt inside,
        (readAuthSys_reported ?_ rfl).1.moved _,
        fun reported => ⟨sys, (readAuthSys_reported ?_ rfl).2 reported⟩, ?_⟩
      · exact fresh
      · exact fresh
      intro _ body name room
      exact readAuthSys_inside rfl short body name room
    · rw [if_neg sys]
      refine ⟨rfl, header, rfl, Nat.le_of_not_lt inside, idsFrom_fresh fresh, ?_,
        fun other => absurd other sys⟩
      intro reported
      exact absurd (fresh.symm.trans reported) Bool.false_ne_true

theorem skipVerifier_some (read : skipVerifier mem c = some next) :
    wrap (c.pos + 4) ≤ c.len ∧ wrap (wrap (c.pos + 4) + 4) ≤ c.len ∧
      next =
      { c with pos := wrap (wrap (wrap (c.pos + 4) + 4) + roundUp (rd32 mem (wrap (c.pos + 4)))) } ∧
      next.pos ≤ c.len := by
  unfold skipVerifier at read
  simp only [Option.bind_eq_bind, Option.bind_eq_some_iff, Prod.exists] at read
  obtain ⟨_, c₁, first, _, c₂, second, rest⟩ := read
  obtain ⟨flavor, -, rfl⟩ := getU32_some first
  obtain ⟨length, rfl, rfl⟩ := getU32_some second
  split at rest
  · cases rest
  next inside =>
    cases rest
    exact ⟨flavor, length, rfl, Nat.le_of_not_lt inside⟩

end Reads

section Containment

variable {mem : Memory} {len : Nat} {c : Call}

theorem parseCall_some (short : len < 2 ^ 32) (accepted : rpcParseCall mem len = some c) :
    ∃ start credential : Call, start.len = len ∧ Credential mem start credential ∧
      skipVerifier mem credential = some c := by
  unfold rpcParseCall at accepted
  simp only [Option.bind_eq_bind, Option.bind_eq_some_iff] at accepted
  obtain ⟨start, fixed, credential, read, verifier⟩ := accepted
  obtain ⟨length, pos, fresh⟩ := readFixed_some rfl fixed
  exact ⟨start, credential, length, readCredential_some (by rwa [length]) fresh pos read, verifier⟩

/-- An accepted message is contained exactly when no length wraps and the ids have room in the body.
-/
theorem parseCall_contained_iff (short : len < 2 ^ 32) (accepted : rpcParseCall mem len = some c) :
    Contained mem len c ↔ Plain mem := by
  obtain ⟨start, credential, rfl, cred, verifier⟩ := parseCall_some short accepted
  obtain ⟨flavor, length, rfl, inside⟩ := skipVerifier_some verifier
  have grown := le_padded (credLen mem)
  constructor
  · intro contained
    have unwrapped : argsAt mem < 2 ^ 32 := lt_of_le_of_lt contained.fits short
    refine ⟨unwrapped, fun sys name => ?_⟩
    have fits := contained.fits
    unfold argsAt verifierAt at unwrapped fits
    unfold verifierAt at name
    have pos : credential.pos = 32 + padded (credLen mem) := by
      rw [cred.pos, roundUp_of_lt (by omega), wrap_of_lt (by omega)]
    have reported := cred.reports sys (by omega) (by omega) (by omega)
    have place := (cred.ids reported).1
    have body := contained.inBody reported
    rw [← place]
    exact ⟨body.1, body.2.1⟩
  · intro plain
    have unwrapped := plain.unwrapped
    unfold argsAt verifierAt at unwrapped
    have larger := le_padded (verifierLen mem)
    have pos : credential.pos = verifierAt mem := by
      rw [cred.pos, roundUp_of_lt (by omega), wrap_of_lt (by omega)]
      rfl
    have behind : wrap (credential.pos + 4) = verifierAt mem + 4 := by
      rw [pos]
      exact wrap_of_lt (by unfold verifierAt; omega)
    have args :
      wrap (wrap (wrap (credential.pos + 4) + 4) + roundUp (rd32 mem (wrap (credential.pos + 4)))) =
        argsAt mem := by
      rw [behind]
      change wrap (wrap (verifierAt mem + 4 + 4) + roundUp (verifierLen mem)) = argsAt mem
      have between : wrap (verifierAt mem + 4 + 4) = verifierAt mem + 8 :=
        wrap_of_lt (by unfold verifierAt; omega)
      rw [between, roundUp_of_lt (by omega)]
      exact wrap_of_lt plain.unwrapped
    refine ⟨?_, args, fun reported => ?_⟩
    · rw [← args, ← cred.len]
      exact inside
    · obtain ⟨sys, name⟩ := cred.reported reported
      obtain ⟨place, uid, gid⟩ := cred.ids reported
      rw [pos] at name
      obtain ⟨low, high⟩ := plain.room sys name
      refine ⟨?_, ?_, ?_, ?_⟩
      · exact place ▸ low
      · exact place ▸ high
      · exact place ▸ uid
      · show credential.gid = rd32 mem (credential.idsAt + 4)
        rw [place, gid, wrap_of_lt (by unfold verifierAt at name; omega)]

def message (words : List Nat) : Memory :=
  fun i => UInt8.ofNat (words.getD (i / 4) 0 / 2 ^ (8 * (3 - i % 4)))

/-- A mount by user 1000 of group 100, from the machine `esp`. -/
theorem parseCall_contained_mount :
    Contained (message [1, 0, 2, 100005, 3, 1, 1, 20, 9, 3, 0x65737000, 1000, 100, 0, 0]) 60
      ⟨60, 60, 1, 100005, 3, 1, 1, 1000, 100, true, 44⟩ := by
  have plain : Plain (message [1, 0, 2, 100005, 3, 1, 1, 20, 9, 3, 0x65737000, 1000, 100, 0, 0]) :=
    ⟨by decide, fun _ _ => by decide⟩
  exact (parseCall_contained_iff (by decide) (by decide)).mpr plain

/-- A credential of `0xfffffff0` bytes takes the cursor back into the words before it, and one of
eight bytes is credited with the verifier's words as its ids. -/
theorem parseCall_outside :
    (∃ c, rpcParseCall (message [1, 0, 2, 100003, 3, 0, 0, 0xfffffff0]) 32 = some c ∧ c.pos = 24 ∧
        ¬ Contained (message [1, 0, 2, 100003, 3, 0, 0, 0xfffffff0]) 32 c) ∧
      ∃ c, rpcParseCall (message [1, 0, 2, 100003, 3, 0, 1, 8, 9, 0, 0, 0]) 48 = some c ∧
      c.haveAuthSys = true ∧
        c.uid = 0 ∧ c.idsAt = 40 ∧
        ¬ Contained (message [1, 0, 2, 100003, 3, 0, 1, 8, 9, 0, 0, 0]) 48 c := by
  constructor
  · refine ⟨⟨32, 24, 1, 100003, 3, 0, 0, 0, 0, false, 0⟩, by decide, rfl, fun contained => ?_⟩
    exact absurd contained.fits (by decide)
  · refine ⟨⟨48, 48, 1, 100003, 3, 0, 1, 0, 0, true, 40⟩, by
      decide, rfl, rfl, rfl, fun contained => ?_⟩
    exact absurd (contained.inBody rfl).2.1 (by decide)

end Containment

end Espix.Nfsd.CallHeader
