import Mathlib.Data.List.Basic
import Mathlib.Tactic

/-! `components/espix_fs/access.c`: who is asking, and may they.

Every decision here is made for a subject; finding the subject of a task is the
process table's part. What `stat`, `espix_fs_mode` and `espix_fs_owner` say of a
path is a parameter, the view. -/

namespace Espix.Fs.Access

abbrev Path := List Char

structure Cred where
  uid : Nat
  gid : Nat
  groups : List Nat
  deriving DecidableEq, Repr

inductive Errno
  | enoent
  | eperm
  | eacces
  deriving DecidableEq, Repr

inductive Op
  | open
  | opendir
  | unlink
  | rename
  | mkdir
  | rmdir
  | truncate
  deriving DecidableEq, Repr

structure OpenFlags where
  wronly : Bool
  rdwr : Bool
  append : Bool
  trunc : Bool
  creat : Bool
  deriving DecidableEq, Repr

structure Attr where
  mode : Nat
  uid : Nat
  gid : Nat
  deriving DecidableEq, Repr

/-- What `stat` finds at a path; `none` where it fails. -/
abbrev View := Path → Option Attr

def iRUSR : Nat := 0o400
def iWUSR : Nat := 0o200
def iXUSR : Nat := 0o100
def iSVTX : Nat := 0o1000
def modeBits : Nat := 0o7777
def pathMax : Nat := 128

def holdsGroup (who : Cred) (gid : Nat) : Bool :=
  who.gid == gid || who.groups.contains gid

/-- The first triad that applies is final: owner, then group, then other. -/
def permitted (attr : Attr) (who : Cred) (want : Nat) : Bool :=
  let shift := if who.uid = attr.uid then 0 else if holdsGroup who attr.gid then 3 else 6
  attr.mode &&& (want >>> shift) == want >>> shift

/-- The path is cut to `ESPIX_PATH_MAX` by the copy before its last slash is looked for. -/
def parentOf (path : Path) : Path :=
  let out := path.take (pathMax - 1)
  let parent := (out.reverse.dropWhile (· != '/')).tail.reverse
  if parent = [] then ['/'] else parent

def may (view : View) (path : Path) (who : Cred) (want : Nat) : Bool :=
  match view path with
  | none => true
  | some attr => permitted attr who want

def stickyPermits (view : View) (parent path : Path) (uid : Nat) : Bool :=
  match view parent with
  | none => true
  | some dir =>
    if dir.mode &&& iSVTX = 0 then true
    else if uid = dir.uid then true
    else
      match view path with
      | none => true
      | some file => uid == file.uid

/-- `espix_fs_access_check` once the caller is known; `none` is zero. -/
def accessCheck (view : View) (who : Cred) (path : Path) (op : Op) (flags : OpenFlags) :
    Option Errno :=
  if who.uid = 0 then none
  else
    match op with
    | .open =>
      let want := if flags.wronly || flags.rdwr || flags.append || flags.trunc then iWUSR else iRUSR
      if flags.creat && (view path).isNone && !may view (parentOf path) who (iWUSR ||| iXUSR) then
        some .eacces
      else if may view path who want then none else some .eacces
    | .opendir => if may view path who (iRUSR ||| iXUSR) then none else some .eacces
    | .truncate => if may view path who iWUSR then none else some .eacces
    | .mkdir => if may view (parentOf path) who (iWUSR ||| iXUSR) then none else some .eacces
    | .unlink | .rename | .rmdir =>
      if !may view (parentOf path) who (iWUSR ||| iXUSR) then some .eacces
      else if stickyPermits view (parentOf path) path who.uid then none else some .eacces

/-- `espix_fs_admin_check` once the root is checked and the caller is known. The
owner of a path that is not there is zero, as `espix_fs_owner` leaves it. -/
def adminCheck (view : View) (who : Cred) (path : Path) (changingOwner : Bool) : Option Errno :=
  if who.uid = 0 then none
  else if changingOwner then some .eperm
  else if who.uid = ((view path).map (·.uid)).getD 0 then none else some .eperm

structure Stamp where
  mode : Nat
  uid : Nat
  gid : Nat
  deriving DecidableEq, Repr

/-- `espix_fs_claim` once the caller is known: the rule that already agrees is left alone. -/
def claim (view : View) (who : Cred) (path : Path) (mode : Nat) : Option Stamp :=
  match view path with
  | none => none
  | some rule =>
    let want := mode &&& modeBits &&& (modeBits ^^^ 0o22)
    if rule.uid = who.uid ∧ rule.gid = who.gid ∧ want = rule.mode then none
    else some ⟨want, who.uid, who.gid⟩

/-- `espix_fs_within`: the text starts with the directory and goes on at a slash. -/
def within (path dir : Path) : Bool :=
  if dir = [] then false
  else if dir = ['/'] then true
  else dir.isPrefixOf path && ((path.drop dir.length).head?.all (· == '/'))

def SameIdentity (w who : Cred) : Prop :=
  w.uid = who.uid ∧ w.gid = who.gid ∧ ∀ gid, holdsGroup w gid = holdsGroup who gid

section Identity

variable {w who : Cred} (same : SameIdentity w who)

include same

section

variable (view : View) (path : Path)

theorem may_congr (want : Nat) : may view path w want = may view path who want := by
  simp only [may, permitted, same.1, same.2.2]

theorem accessCheck_congr (op : Op) (flags : OpenFlags) :
    accessCheck view w path op flags = accessCheck view who path op flags := by
  simp only [accessCheck, may_congr same, same.1]

theorem adminCheck_congr (changingOwner : Bool) :
    adminCheck view w path changingOwner = adminCheck view who path changingOwner := by
  simp only [adminCheck, same.1]

theorem claim_congr (mode : Nat) : claim view w path mode = claim view who path mode := by
  simp only [claim, same.1, same.2.1]

end

end Identity

theorem claim_stamps (who : Cred) (path : Path) :
    claim (fun _ => some ⟨1, 0, 0⟩) who path 0 = some ⟨0, who.uid, who.gid⟩ := by
  simp [claim]

def readOnly : OpenFlags := ⟨false, false, false, false, false⟩

theorem accessCheck_group (who : Cred) (unprivileged : who.uid ≠ 0) (path : Path) (gid : Nat) :
    accessCheck (fun _ => some ⟨0o040, 0, gid⟩) who path .open readOnly =
      if holdsGroup who gid then none else some .eacces := by
  cases held : holdsGroup who gid <;>
    simp [accessCheck, unprivileged, may, permitted, held, readOnly, iRUSR]

end Espix.Fs.Access
