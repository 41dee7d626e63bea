import Espix.Fs.OpenMode
import Espix.Fs.Vfs

/-! Who may remove a name: `sticky_permits`, and what `vfs_unlink`, `vfs_rmdir` and `vfs_rename` let
through to the file system. -/

namespace Espix.Fs.Removal

open Access OpenMode Vfs
open Proc.Root (noFlags vfsResolve)

/-- Write and search for the directory, and in a sticky one the directory's owner or the file's. -/
def removable (who : Cred) (dir file : Attr) : Bool :=
  mayWrite dir who && maySearch dir who &&
    (dir.mode &&& iSVTX == 0 || who.uid == dir.uid || who.uid == file.uid)

/-- A subject that is not root, and a resolved name that is there in a directory that is. -/
structure Asked (env : Env) (p : Path) (subject : Cred) (dir file : Attr) : Prop where
  plain : env.caller.raised = false
  who : env.caller.who = some subject
  user : subject.uid ≠ 0
  short : p.length < pathMax
  parent : env.view (dirName p) = some dir
  present : env.view p = some file

variable {env : Env} {p : Path} {who : Cred} {dir file : Attr}

theorem Asked.check (asked : Asked env p who dir file) {op : Op}
    (removes : op = .unlink ∨ op = .rmdir ∨ op = .rename) :
    Vfs.fsAccessCheck env p op noFlags = if removable who dir file then none else some .eacces := by
  have search : may env.view (parentOf p) who (iWUSR ||| iXUSR) =
      (mayWrite dir who && maySearch dir who) := by
    rw [parentOf_eq_dirName asked.short, may, asked.parent]
    exact permitted_enter dir who
  have sticky : stickyPermits env.view (parentOf p) p who.uid =
      (dir.mode &&& iSVTX == 0 || who.uid == dir.uid || who.uid == file.uid) := by
    simp only [stickyPermits, parentOf_eq_dirName asked.short, asked.parent, asked.present]
    grind
  have user := asked.user
  rcases removes with rfl | rfl | rfl <;>
    simp only [Vfs.fsAccessCheck, asked.plain, asked.who, accessCheck] <;> grind [removable]

/-- The name resolves to no tree's, and a file system is mounted there. -/
structure Below (t : Trees) (env : Env) (s : State) (path p : Path) (m : Mount) : Prop where
  resolved : vfsResolve env.caller path = some p
  outside : inTrees t p = false
  mounted : s.mounts (mountByPath s p) = some m
  alive : m.dead = false

/-- The step from one state to the other has written this to the log. -/
def Writes (s s' : State) (n : Note) : Prop := ∃ notes, s'.log = s.log ++ notes ∧ n ∈ notes

variable {t : Trees} {s : State} {path : Path} {m : Mount}

theorem writes_iff {notes : List Note} {n : Note} : Writes s (s.note notes) n ↔ n ∈ notes := by
  simp [Writes, State.note]

theorem Below.call (below : Below t env s path p m) {cb : Callback}
    (has : m.has cb = true) (arg : Arg)
    (notes : List Note) : Vfs.call (s.note notes) (mountByPath s p) cb arg =
      s.note (notes ++ [.called m.id cb arg]) := by
  have mounted : (s.note notes).mounts (mountByPath s p) = some m := below.mounted
  simp only [Vfs.call, mounted, below.alive, has]
  simp [State.note]

theorem removes_iff (asked : Asked env p who dir file) (below : Below t env s path p m) {op : Op}
    {cb : Callback} (removes : op = .unlink ∨ op = .rmdir ∨ op = .rename) (has : m.has cb = true) :
    Writes s (onName env (inTrees t) op cb s path) (.called m.id cb (.path p)) ↔
      removable who dir file = true := by
  have same (notes : List Note) : mountByPath (s.note notes) p = mountByPath s p := rfl
  simp only [onName, below.resolved, below.outside, asked.check removes, same, below.call has]
  by_cases may : removable who dir file = true <;> simp [may, writes_iff]

def shared : Env :=
  ⟨⟨[], ['/'], false, some ⟨7, 7, []⟩⟩, none,
    fun p => some ⟨0o1777, if p = ['/', 'f'] then 5 else if p = ['/', 'g'] then 7 else 0, 0⟩,
    fun _ => none⟩

def flash : State := boot (fun _ => true) fun _ => none

end Espix.Fs.Removal
