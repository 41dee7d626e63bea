import Espix.Lib.CText

/-! Accounts and groups of `components/espix_auth/auth.c`, read from the texts of
`/etc/passwd` and `/etc/group`. -/

namespace Espix.Auth.Accounts

open Lib.CText

def userMax : Nat := 17
def homeMax : Nat := 64
def lineMaxLen : Nat := 256
def maxAccounts : Nat := 8
def maxGroups : Nat := 12
def membersMax : Nat := maxAccounts * userMax
def saltLen : Nat := 16
def hashLen : Nat := 32
def algoTag : List Char := "$pbkdf2-sha256$".toList
def lockedTag : List Char := "!".toList

/-- The three files the component keeps; `none` where a file cannot be opened. -/
structure Files where
  passwd : Option (List Char)
  group : Option (List Char)
  sudoers : Option (List Char)

structure Record where
  name : List Char
  iters : Nat
  salt : List UInt8
  hash : List UInt8
  home : List Char
  uid : Nat
  gid : Nat
  locked : Bool
  deriving DecidableEq, Repr

structure Group where
  name : List Char
  gid : Nat
  members : List Char
  deriving DecidableEq, Repr

def strlcpy (size : Nat) (s : List Char) : List Char := s.take (size - 1)

def fromHex : Nat → List Char → Option (List UInt8)
  | 0, _ => some []
  | n + 1, high :: low :: rest =>
    match strtoul 16 [high, low] with
    | some (value, []) => (fromHex n rest).map (UInt8.ofNat value :: ·)
    | _ => none
  | _ + 1, _ => none

def parseId : Option (List Char) → Option Nat
  | none => none
  | some s =>
    match strtoul 10 s with
    | some (value, []) => if 65535 < value then none else some value
    | _ => none

def fieldEnd : List Char := [':', '\r', '\n']

def parseHash (record : Record) (hash : List Char) : Option Record :=
  if hash = lockedTag then some { record with locked := true }
  else if !algoTag.isPrefixOf hash then none
  else
    let (iters, s) := strtok ['$'] (hash.drop algoTag.length)
    let (salt, s) := strtok ['$'] s
    let (digest, _) := strtok ['$'] s
    match iters, salt, digest with
    | some iters, some salt, some digest =>
      let iters := ((strtoul 10 iters).map Prod.fst).getD 0
      if iters = 0 then none
      else
        match fromHex saltLen salt, fromHex hashLen digest with
        | some salt, some hash => some { record with iters, salt, hash }
        | _, _ => none
    | _, _, _ => none

def parseLine (line : List Char) : Option Record :=
  let (name, s) := strtok [':'] line
  let (hash, s) := strtok [':'] s
  let (uid, s) := strtok fieldEnd s
  let (gid, s) := strtok fieldEnd s
  let (home, _) := strtok fieldEnd s
  match name, hash, parseId uid, parseId gid with
  | some name, some hash, some uid, some gid =>
    parseHash
      { name := strlcpy userMax name, iters := 0, salt := List.replicate saltLen 0,
        hash := List.replicate hashLen 0, home := strlcpy homeMax (home.getD ['/']), uid, gid,
        locked := false } hash
  | _, _, _, _ => none

/-- The buffers a file is read in, as the string functions see them. -/
def fileLines (text : Option (List Char)) : List (List Char) :=
  (fgetsAll (lineMaxLen - 1) (text.getD [])).map cstr

def findRecord (files : Files) (user : List Char) : Option Record :=
  (fileLines files.passwd).findSome? fun line =>
    if line.head? = some '#' ∨ line.head? = some '\n' then none
    else (parseLine line).filter (·.name == user)

structure User where
  name : List Char
  home : List Char
  uid : Nat
  gid : Nat
  deriving DecidableEq, Repr

def lookup (files : Files) (user : List Char) : Option User :=
  (findRecord files user).map fun record =>
    { name := strlcpy userMax record.name, home := strlcpy homeMax record.home,
      uid := record.uid, gid := record.gid }

def parseGroupLine (line : List Char) : Option Group :=
  let (name, s) := strtok [':'] line
  let (gid, s) := strtok fieldEnd s
  let (members, _) := strtok fieldEnd s
  match name, parseId gid with
  | some name, some gid =>
    some { name := strlcpy userMax name, gid, members := strlcpy membersMax (members.getD []) }
  | _, _ => none

def groupsLoad (files : Files) : List Group :=
  ((fileLines files.group).filterMap fun line =>
    if line.head? = some '#' ∨ line.head? = some '\n' ∨ line.head? = some '\r' then none
    else parseGroupLine line).take maxGroups

/-- `member_of`; nothing is looked at after a comma that ends the list. -/
def memberOf (members user : List Char) : Bool :=
  let names := members.splitOn ','
  (if names.getLast? = some [] then names.dropLast else names).any (· == user)

def inGroup (files : Files) (user group : List Char) : Bool :=
  (groupsLoad files).any fun g =>
    g.name == group && (memberOf g.members user || (lookup files user).any (·.gid == g.gid))

theorem parseGroupLine_name {line : List Char} {g : Group} (parsed : parseGroupLine line = some g) :
    g.name.length < userMax := by
  simp only [parseGroupLine] at parsed
  split at parsed
  · cases parsed
    simp only [strlcpy, List.length_take, userMax]
    omega
  · cases parsed

theorem groupsLoad_name {files : Files} {g : Group} (member : g ∈ groupsLoad files) :
    g.name.length < userMax := by
  have loaded := List.mem_of_mem_take member
  obtain ⟨line, -, parsed⟩ := List.mem_filterMap.mp loaded
  split at parsed
  · cases parsed
  · exact parseGroupLine_name parsed

theorem inGroup_long {files : Files} {user group : List Char} (long : userMax ≤ group.length) :
    inGroup files user group = false := by
  rw [inGroup, List.any_eq_false]
  intro g member
  have short := groupsLoad_name member
  have different : g.name ≠ group := by
    rintro rfl
    omega
  simp [different]

end Espix.Auth.Accounts
