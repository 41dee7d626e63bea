import Espix.Auth.Store
import Espix.Auth.Sudo
import Espix.Lib.PathText

/-! Making and unmaking accounts: `espix_auth_user_add` and `espix_auth_user_del` of
`components/espix_auth/auth.c`, with what they use.

The home directory that is made, and what else a removed one held, is not part of it. -/

namespace Espix.Auth.Users

open Lib.CText Lib.PathText Accounts Store Sudo

inductive Err
  | invalidArg
  | invalidState
  | notFound
  | notAllowed
  | noMem
  | fail
  deriving DecidableEq, Repr

def passwdPath : List Char := "/etc/passwd".toList
def groupPath : List Char := "/etc/group".toList
def sudoersPath : List Char := "/etc/sudoers".toList

/-- `espix_auth_groups`: the primary group, then those that list the user. -/
def authGroups (files : Files) (user : List Char) (max : Nat) : List Nat :=
  if max = 0 then []
  else
    (groupsLoad files).foldl
      (fun out g =>
        if out.length < max ∧ memberOf g.members user = true ∧ g.gid ∉ out then out ++ [g.gid]
        else out)
      ((lookup files user).map (·.gid)).toList

def taken (files : Files) (id : Nat) : Bool :=
  (loadAll files).any (fun r => r.uid == id || r.gid == id) || (groupsLoad files).any (·.gid == id)

def nextFreeId (files : Files) (first last : Nat) : Option Nat :=
  (List.range' first (last + 1 - first)).find? fun id => !taken files id

def idRange (system : Bool) : Nat × Nat := if system then (100, 999) else (1000, 65533)

def stored (io : Io) (recs : List Record) (files : Files) : Except Err Files :=
  if io.passwd then .ok (storeAll recs files) else .error .fail

def upsert (io : Io) (r : Record) (files : Files) : Except Err Files :=
  let recs := loadAll files
  match recs.findIdx? (·.name == r.name) with
  | some i => stored io (recs.set i r) files
  | none => if recs.length = maxAccounts then .error .noMem else stored io (recs ++ [r]) files

def newRecord (name : List Char) (system : Bool) (uid : Nat) : Record :=
  { name := strlcpy userMax name, iters := 0, salt := List.replicate saltLen 0,
    hash := List.replicate hashLen 0,
    home := strlcpy homeMax (if system then ['/'] else "/home/".toList ++ name), uid := uid,
    gid := uid, locked := true }

def privateGroup (name : List Char) (uid : Nat) : Group := ⟨strlcpy userMax name, uid, []⟩

def addPrivateGroup (io : Io) (name : List Char) (uid : Nat) (files : Files) : Files :=
  if (groupsLoad files).length < maxGroups ∧ io.group = true then
    groupsStore (groupsLoad files ++ [privateGroup name uid]) files
  else files

def userAdd (io : Io) (files : Files) (name : List Char) (system : Bool) : Except Err Files :=
  if name = [] ∨ userMax ≤ name.length then .error .invalidArg
  else if (findRecord files name).isSome then .error .invalidState
  else
    match nextFreeId files (idRange system).1 (idRange system).2 with
    | none => .error .notFound
    | some uid => (upsert io (newRecord name system uid) files).map (addPrivateGroup io name uid)

def parts (members : List Char) : List (List Char) :=
  let names := members.splitOn ','
  if names.getLast? = some [] then names.dropLast else names

def keep (user out part : List Char) : List Char :=
  if part = user then out else out ++ (if out = [] then part else ',' :: part)

def strip (user : List Char) (g : Group) : Group :=
  if memberOf g.members user then
    { g with members := strlcpy membersMax ((parts g.members).foldl (keep user) []) }
  else g

def membershipPurge (io : Io) (user : List Char) (files : Files) : Files :=
  if io.group then groupsStore ((groupsLoad files).map (strip user)) files else files

def groupDel (io : Io) (name : List Char) (files : Files) : Except Err Files :=
  if (groupsLoad files).any (·.name == name) then
    if io.group then .ok (groupsStore ((groupsLoad files).filter (·.name != name)) files)
    else .error .fail
  else .error .notFound

def covers (dir path : List Char) : Bool := (normalise dir).isPrefixOf (normalise path)

/-- `espix_fs_rm_rf`, as far as it reaches the three files: what lies there is gone. -/
def rmRf (dir : List Char) (files : Files) : Files :=
  { passwd := if covers dir passwdPath then none else files.passwd
    group := if covers dir groupPath then none else files.group
    sudoers := if covers dir sudoersPath then none else files.sudoers }

def userDel (io : Io) (files : Files) (name : List Char) (removeHome : Bool) : Except Err Files :=
  match findRecord files name with
  | none => .error .notFound
  | some record =>
    if record.uid = 0 then .error .notAllowed
    else
      (stored io ((loadAll files).filter (·.name != name)) files).map fun files =>
        let files := membershipPurge io name files
        let files := match groupDel io name files with
          | .ok files => files
          | .error _ => files
        if removeHome && record.home != [] && record.home != ['/'] then rmRf record.home files
        else files

end Espix.Auth.Users
