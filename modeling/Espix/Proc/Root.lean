import Espix.Fs.Resolve
import Espix.Lib.Programs
import Espix.Lib.Run

/-! A process with a root: which paths reach a file system on its behalf.

The operations of `espix_fs/vfs.c`, the permission checks and `chmod`/`chown` behind them,
`espix_abi_chdir` and the part of `espix_proc_spawn_elf` that hands a root on. Every path
that goes to a mounted file system or to the attribute store is written to a log. -/

namespace Espix.Proc.Root

open Fs.Access Fs.Resolve Lib.PathText Lib.Programs Lib.Run

/-- The calling process as the VFS sees it: its active root, if any, its working directory,
whether it is in a privileged section, and whom it acts as. -/
structure Caller where
  root : Path
  cwd : Path
  raised : Bool
  who : Option Cred

structure Disk where
  found : Path → Bool
  isDir : Path → Bool
  /-- Answered by a synthetic tree (`/dev`, `/proc`) and no file system. -/
  synth : Path → Bool
  makes : Path → Bool
  attr : Path → Attr

def Disk.made (d : Disk) (path : Path) : Disk :=
  { d with found := Function.update d.found path true }

abbrev Log := StateM (List Path)

def hand (path : Path) : Log Unit := modify (· ++ [path])

def rootPermits (c : Caller) (path : Path) : Bool :=
  c.raised || c.root == [] || within path c.root

def vfsResolve (c : Caller) (path : Path) : Option Path :=
  match fsResolve c.cwd path with
  | none => none
  | some p => if c.root ≠ [] ∧ rootPermits c p = false then none else some p

section Checks

variable (c : Caller) (d : Disk)

def statLower (p : Path) : Log Bool :=
  hand p >>= fun _ => if d.found p then hand p >>= fun _ => pure true else pure false

def fsStat (path : Path) : Log Bool :=
  match vfsResolve c path with
  | none => pure false
  | some p => if d.synth p then pure (d.found p) else statLower d p

def attrOf (path : Path) : Log Attr := hand path >>= fun _ => pure (d.attr path)

def mayLog (path : Path) (who : Cred) (want : Nat) : Log Bool :=
  fsStat c d path >>= fun there =>
    if there then attrOf d path >>= fun attr => pure (permitted attr who want) else pure true

def ownsEntry (path : Path) (uid : Nat) : Log Bool :=
  fsStat c d path >>= fun there =>
    if there then attrOf d path >>= fun file => pure (uid == file.uid) else pure true

def stickyLog (parent path : Path) (uid : Nat) : Log Bool :=
  fsStat c d parent >>= fun there =>
    if there then
      attrOf d parent >>= fun dir =>
        if dir.mode &&& iSVTX = 0 ∨ uid = dir.uid then pure true else ownsEntry c d path uid
    else pure true

def createLog (path : Path) (who : Cred) : Log Bool :=
  fsStat c d path >>= fun there =>
    if there then pure true else mayLog c d (parentOf path) who (iWUSR ||| iXUSR)

def accessLog (path : Path) (op : Op) (flags : OpenFlags) : Log Bool :=
  match c.who with
  | none => pure true
  | some who =>
    if c.raised || who.uid == 0 then pure true
    else
      match op with
      | .open =>
        let want := if flags.wronly || flags.rdwr || flags.append || flags.trunc then
          iWUSR else iRUSR
        (if flags.creat then createLog c d path who else pure true) >>= fun allowed =>
          if allowed then mayLog c d path who want else pure false
      | .opendir => mayLog c d path who (iRUSR ||| iXUSR)
      | .truncate => mayLog c d path who iWUSR
      | .mkdir => mayLog c d (parentOf path) who (iWUSR ||| iXUSR)
      | .unlink | .rename | .rmdir =>
        mayLog c d (parentOf path) who (iWUSR ||| iXUSR) >>= fun allowed =>
          if allowed then stickyLog c d (parentOf path) path who.uid else pure false

def adminLog (path : Path) (changingOwner : Bool) : Log Bool :=
  if rootPermits c path = false then pure false
  else
    match c.who with
    | none => pure true
    | some who =>
      if c.raised || who.uid == 0 then pure true
      else if changingOwner then pure false
      else
        fsStat c d path >>= fun there =>
          if there then attrOf d path >>= fun attr => pure (who.uid == attr.uid)
          else pure (who.uid == 0)

def claimLog (path : Path) : Log Unit :=
  match c.who with
  | none => pure ()
  | some _ =>
    if c.raised then pure ()
    else
      fsStat c d path >>= fun there =>
        if there then attrOf d path >>= fun _ => hand path else pure ()

def changeAttr (path : Path) (changingOwner : Bool) : Log Unit :=
  if d.synth path then pure ()
  else
    adminLog c d path changingOwner >>= fun allowed =>
      if allowed then
        fsStat c d path >>= fun there =>
          if there then attrOf d path >>= fun _ => hand path else pure ()
      else pure ()

end Checks

inductive Call
  | open (path : Path) (flags : OpenFlags)
  | stat (path : Path)
  | unlink (path : Path)
  | rename (src dst : Path)
  | mkdir (path : Path)
  | rmdir (path : Path)
  | opendir (path : Path)
  /-- No file system has `access_p`. -/
  | access (path : Path)
  | truncate (path : Path)
  | utime (path : Path)
  | chmod (path : Path)
  | chown (path : Path) (changingOwner : Bool)
  /-- `espix_proc_spawn_elf` looks the binary up for its caller and reads its header. -/
  | spawn (path : Path)

section Calls

variable (c : Caller) (d : Disk)

def checked (p : Path) (op : Op) (flags : OpenFlags) : Log Unit :=
  accessLog c d p op flags >>= fun allowed =>
    if allowed && !d.synth p then hand p else pure ()

def noFlags : OpenFlags := ⟨false, false, false, false, false⟩

def openLower (p : Path) (flags : OpenFlags) : Log Unit :=
  (if flags.creat then fsStat c d p else pure true) >>= fun there =>
    hand p >>= fun _ => if there || !d.makes p then pure () else claimLog c (d.made p) p

def makeLower (p : Path) : Log Unit :=
  hand p >>= fun _ => if d.makes p then claimLog c (d.made p) p else pure ()

def onPath (path : Path) (next : Path → Log Unit) : Log Unit :=
  match vfsResolve c path with
  | none => pure ()
  | some p => next p

def openPath (path : Path) (flags : OpenFlags) : Log Unit :=
  onPath c path fun p =>
    accessLog c d p .open flags >>= fun allowed =>
      if allowed && !d.synth p then openLower c d p flags else pure ()

def lookUp (path : Path) : Log Unit :=
  fsStat c d path >>= fun there => if there then attrOf d path >>= fun _ => pure () else pure ()

def perform : Call → Log Unit
  | .open path flags => openPath c d path flags
  | .stat path => fsStat c d path >>= fun _ => pure ()
  | .unlink path =>
      onPath c path fun p => if d.synth p then pure () else checked c d p .unlink noFlags
  | .rename src dst =>
    onPath c src fun p => onPath c dst fun q =>
      if d.synth p || d.synth q then pure ()
      else
        accessLog c d p .rename noFlags >>= fun allowed =>
          if allowed then
            accessLog c d q .rename noFlags >>= fun both =>
              if both then hand p >>= fun _ => hand q else pure ()
          else pure ()
  | .mkdir path =>
    onPath c path fun p =>
      if d.synth p then pure ()
      else accessLog c d p .mkdir noFlags >>= fun allowed =>
        if allowed then makeLower c d p else pure ()
  | .rmdir path =>
      onPath c path fun p => if d.synth p then pure () else checked c d p .rmdir noFlags
  | .opendir path => onPath c path fun p => checked c d p .opendir noFlags
  | .access _ => pure ()
  | .truncate path =>
    onPath c path fun p => if d.synth p then pure () else checked c d p .truncate noFlags
  | .utime path => onPath c path fun p => if d.synth p then pure () else hand p
  | .chmod path =>
    match fsResolve c.cwd path with
    | none => pure ()
    | some abs => changeAttr c d abs false
  | .chown path changingOwner =>
    match fsResolve c.cwd path with
    | none => pure ()
    | some abs => changeAttr c d abs changingOwner
  | .spawn path =>
    if path.head? = some '/' then lookUp c d path >>= fun _ => openPath c d path noFlags
    else pure ()

def handed (call : Call) : List Path := ((perform c d call).run []).2

end Calls

/-- The path names the root or something below it, component by component. -/
def Inside (root path : Path) : Prop := normalise root <+: normalise path

instance (root path : Path) : Decidable (Inside root path) :=
  inferInstanceAs (Decidable (normalise root <+: normalise path))

def Absolute (path : Path) : Prop := ∃ text, path = '/' :: text

section Resolving

variable {c : Caller} {path p : Path}

theorem fullText_spec {cwd : Path} (home : Absolute cwd) (path : Path) :
    ∃ text, fullText cwd path = '/' :: text ∧ (Absolute path → path = '/' :: text) := by
  obtain ⟨dir, rfl⟩ := home
  simp only [fullText, reduceCtorEq, if_false]
  by_cases empty : path = []
  · refine ⟨dir, by rw [if_pos empty], ?_⟩
    rintro ⟨text, absolute⟩
    rw [empty] at absolute
    cases absolute
  · by_cases absolute : path.head? = some '/'
    · obtain ⟨text, rfl⟩ := List.head?_eq_some_iff.mp absolute
      exact ⟨text, by simp, fun _ => rfl⟩
    · have relative : ¬Absolute path := by
        rintro ⟨text, rfl⟩
        exact absolute rfl
      rw [if_neg empty, if_neg absolute]
      split
      · exact ⟨path, rfl, fun is => absurd is relative⟩
      · exact ⟨dir ++ '/' :: path, rfl, fun is => absurd is relative⟩

theorem fsResolve_spec {cwd : Path} (home : Absolute cwd) (found : fsResolve cwd path = some p) :
    Absolute p ∧ ['.', '.'] ∉ p.splitOn '/' ∧
      (Absolute path → normalise p = normalise path) := by
  unfold fsResolve at found
  split at found
  · cases found
    obtain ⟨text, shape, same⟩ := fullText_spec home path
    rw [shape]
    refine ⟨⟨_, rfl⟩, no_up_normaliseText text, ?_⟩
    intro absolute
    rw [same absolute]
    exact normalise_normaliseText text
  · cases found

theorem vfsResolve_spec (confined : c.root ≠ []) (lowered : c.raised = false)
    (home : Absolute c.cwd) (found : vfsResolve c path = some p) :
    Absolute p ∧ Inside c.root p ∧ (Absolute path → Inside c.root path) := by
  unfold vfsResolve at found
  split at found
  · cases found
  · rename_i q resolved
    split at found
    · cases found
    · rename_i permitted
      cases found
      obtain ⟨absolute, down, same⟩ := fsResolve_spec home resolved
      have inside : within p c.root = true := by
        simpa [confined, rootPermits, lowered] using permitted
      have below : Inside c.root p := normalise_of_within inside down
      refine ⟨absolute, below, ?_⟩
      intro given
      rw [Inside, ← same given]
      exact below

theorem absolute_parentOf (absolute : Absolute path) : Absolute (parentOf path) := by
  obtain ⟨text, rfl⟩ := absolute
  simp only [parentOf]
  split
  · exact ⟨[], rfl⟩
  · rename_i some_parent
    generalize parent_is : ((List.take (pathMax - 1) ('/' :: text)).reverse.dropWhile
      (· != '/')).tail.reverse = parent at some_parent
    have start : parent <+: '/' :: text := by
      rw [← parent_is, ← List.reverse_suffix, List.reverse_reverse]
      apply (List.tail_suffix _).trans ((List.dropWhile_suffix _).trans _)
      rw [List.reverse_suffix]
      exact List.take_prefix _ _
    obtain ⟨rest, shape⟩ := start
    cases parent with
    | nil => exact absurd rfl some_parent
    | cons first parent =>
      rw [List.cons_append] at shape
      exact ⟨parent, by rw [(List.cons.inj shape).1]⟩

end Resolving

structure Bound (c : Caller) : Prop where
  confined : c.root ≠ []
  lowered : c.raised = false
  home : Absolute c.cwd

def LogInside (root : Path) (log : List Path) : Prop := ∀ p ∈ log, Inside root p

section Logs

variable {c : Caller} {d : Disk} {path p : Path} {who : Cred} {root : Path}

theorem keeps_hand (inside : Inside root path) : Stable (LogInside root) (hand path) := by
  apply Keeps.modify
  intro log holds q member
  rcases List.mem_append.mp member with old | new
  · exact holds q old
  · rw [List.mem_singleton.mp new]
    exact inside

theorem keeps_attrOf (inside : Inside root path) : Stable (LogInside root) (attrOf d path) :=
  (keeps_hand inside).done

theorem keeps_fsStat (bound : Bound c) :
    Keeps (LogInside c.root) (fsStat c d path) fun there =>
      there = true → Absolute path → Inside c.root path := by
  unfold fsStat
  cases resolved : vfsResolve c path with
  | none => exact Keeps.pure nofun
  | some p =>
    obtain ⟨-, below, same⟩ := vfsResolve_spec bound.confined bound.lowered bound.home resolved
    simp only [statLower]
    split
    · exact Keeps.pure fun _ => same
    · apply (keeps_hand below).bind
      intro _ _
      split
      · exact (keeps_hand below).bind fun _ _ => Keeps.pure fun _ => same
      · exact Keeps.pure nofun

theorem keeps_ifThere {A : Type} {yes no : Log A} (bound : Bound c) (absolute : Absolute path)
    (there : Inside c.root path → Stable (LogInside c.root) yes)
    (missing : Stable (LogInside c.root) no) :
    Stable (LogInside c.root) (fsStat c d path >>= fun found => if found then yes else no) := by
  apply (keeps_fsStat bound).bind
  intro found inside
  cases found with
  | true => exact there (inside rfl absolute)
  | false => exact missing

theorem keeps_mayLog (bound : Bound c) (absolute : Absolute path) (want : Nat) :
    Stable (LogInside c.root) (mayLog c d path who want) :=
  keeps_ifThere bound absolute (fun inside => (keeps_attrOf inside).done) (stable_pure _)

theorem keeps_ownsEntry (bound : Bound c) (absolute : Absolute path) (uid : Nat) :
    Stable (LogInside c.root) (ownsEntry c d path uid) :=
  keeps_ifThere bound absolute (fun inside => (keeps_attrOf inside).done) (stable_pure _)

theorem keeps_stickyLog {parent : Path} (bound : Bound c) (above : Absolute parent)
    (absolute : Absolute path)
    (uid : Nat) : Stable (LogInside c.root) (stickyLog c d parent path uid) := by
  apply keeps_ifThere bound above
  · intro inside
    exact (keeps_attrOf inside).bind fun _ _ => stable_unless (keeps_ownsEntry bound absolute uid)
  · exact stable_pure _

section

variable (bound : Bound c) (absolute : Absolute path)

include bound absolute

theorem keeps_createLog : Stable (LogInside c.root) (createLog c d path who) :=
  keeps_ifThere bound absolute (fun _ => stable_pure _)
  (keeps_mayLog bound (absolute_parentOf absolute) _)

theorem keeps_accessLog (op : Op) (flags : OpenFlags) :
    Stable (LogInside c.root) (accessLog c d path op flags) := by
  have above := absolute_parentOf absolute
  unfold accessLog
  split
  · exact stable_pure _
  · apply stable_unless
    cases op with
    | «open» =>
      exact Keeps.bind (stable_when (keeps_createLog bound absolute)) fun _ _ =>
        stable_when (keeps_mayLog bound absolute _)
    | opendir | truncate => exact keeps_mayLog bound absolute _
    | mkdir => exact keeps_mayLog bound above _
    | unlink | rename | rmdir =>
      exact (keeps_mayLog bound above _).bind fun _ _ =>
        stable_when (keeps_stickyLog bound above absolute _)

theorem keeps_adminLog (changing : Bool) :
    Stable (LogInside c.root) (adminLog c d path changing) := by
  unfold adminLog
  apply stable_unless
  split
  · exact stable_pure _
  · exact stable_unless (stable_unless (keeps_ifThere bound absolute
      (fun inside => (keeps_attrOf inside).done) (stable_pure _)))

theorem keeps_claimLog : Stable (LogInside c.root) (claimLog c d path) := by
  unfold claimLog
  split
  · exact stable_pure _
  · exact stable_unless (keeps_ifThere bound absolute
      (fun inside => (keeps_attrOf inside).bind fun _ _ => keeps_hand inside) (stable_pure _))

theorem keeps_changeAttr (changing : Bool) :
    Stable (LogInside c.root) (changeAttr c d path changing) := by
  apply stable_unless
  exact (keeps_adminLog bound absolute changing).bind fun _ _ =>
    stable_when (keeps_ifThere bound absolute
    (fun inside => (keeps_attrOf inside).bind fun _ _ => keeps_hand inside) (stable_pure _))

end

theorem keeps_onPath {next : Path → Log Unit} (bound : Bound c)
    (each : ∀ p, Absolute p → Inside c.root p → Stable (LogInside c.root) (next p)) :
    Stable (LogInside c.root) (onPath c path next) := by
  unfold onPath
  cases resolved : vfsResolve c path with
  | none => exact stable_pure _
  | some p =>
    obtain ⟨absolute, below, -⟩ := vfsResolve_spec bound.confined bound.lowered bound.home resolved
    exact each p absolute below

section

variable (bound : Bound c) (absolute : Absolute p) (inside : Inside c.root p)

include bound absolute inside

theorem keeps_checked (op : Op) (flags : OpenFlags) :
    Stable (LogInside c.root) (checked c d p op flags) :=
  (keeps_accessLog bound absolute op flags).bind fun _ _ => stable_when (keeps_hand inside)

theorem keeps_openLower (flags : OpenFlags) :
    Stable (LogInside c.root) (openLower c d p flags) := by
  have looked : Stable (LogInside c.root) (if flags.creat then fsStat c d p else pure true) :=
    stable_when fun log holds => ⟨(keeps_fsStat bound log holds).1, trivial⟩
  exact looked.bind fun _ _ => (keeps_hand inside).bind fun _ _ =>
    stable_unless (keeps_claimLog bound absolute)

theorem keeps_makeLower : Stable (LogInside c.root) (makeLower c d p) :=
  (keeps_hand inside).bind fun _ _ => stable_when (keeps_claimLog bound absolute)

end

theorem keeps_openPath (bound : Bound c) (flags : OpenFlags) :
    Stable (LogInside c.root) (openPath c d path flags) := by
  apply keeps_onPath bound
  intro p absolute inside
  exact (keeps_accessLog bound absolute .open flags).bind fun _ _ =>
    stable_when (keeps_openLower bound absolute inside flags)

theorem keeps_perform (bound : Bound c) (call : Call) :
    Stable (LogInside c.root) (perform c d call) := by
  cases call with
  | «open» path flags => exact keeps_openPath bound flags
  | stat path => exact (keeps_fsStat bound).done
  | rename src dst =>
    apply keeps_onPath bound
    intro p p_absolute p_inside
    apply keeps_onPath bound
    intro q q_absolute q_inside
    apply stable_unless
    refine (keeps_accessLog bound p_absolute .rename noFlags).bind fun _ _ => stable_when ?_
    refine (keeps_accessLog bound q_absolute .rename noFlags).bind fun _ _ => stable_when ?_
    exact (keeps_hand p_inside).bind fun _ _ => keeps_hand q_inside
  | mkdir path =>
    apply keeps_onPath bound
    intro p absolute inside
    apply stable_unless
    exact (keeps_accessLog bound absolute .mkdir noFlags).bind fun _ _ =>
      stable_when (keeps_makeLower bound absolute inside)
  | opendir path =>
    apply keeps_onPath bound
    intro p absolute inside
    exact keeps_checked bound absolute inside .opendir noFlags
  | unlink path | rmdir path | truncate path =>
    apply keeps_onPath bound
    intro p absolute inside
    exact stable_unless (keeps_checked bound absolute inside _ noFlags)
  | access path => exact stable_pure _
  | utime path =>
      exact keeps_onPath bound fun p absolute inside => stable_unless (keeps_hand inside)
  | chmod path | chown path changing =>
    simp only [perform]
    split
    · exact stable_pure _
    · rename_i abs resolved
      exact keeps_changeAttr bound (fsResolve_spec bound.home resolved).1 _
  | spawn path =>
    simp only [perform]
    split
    · rename_i absolute
      obtain ⟨text, rfl⟩ := List.head?_eq_some_iff.mp absolute
      have looked : Stable (LogInside c.root) (lookUp c d ('/' :: text)) :=
        keeps_ifThere bound ⟨text, rfl⟩ (fun inside => (keeps_attrOf inside).done) (stable_pure _)
      exact looked.bind fun _ _ => keeps_openPath bound noFlags
    · exact stable_pure _

theorem handed_inside (bound : Bound c) (call : Call) : ∀ p ∈ handed c d call, Inside c.root p :=
  (keeps_perform bound call [] nofun).1

end Logs

/-- An app's process: what its caller was confined to, the root that was asked for, and the
`root`, `root_active` and `cwd` of `espix_proc_app_t`. No root is the empty text. -/
structure Process where
  above : Path
  asked : Path
  root : Path
  active : Bool
  cwd : Path
deriving DecidableEq

def Process.activeRoot (pr : Process) : Path := if pr.active then pr.root else []

def kept (text : Path) : Path := text.take (pathMax - 1)

def startOf (cwd : Path) : Path := if cwd = [] then ['/'] else cwd

def startIn (root start : Path) : Path :=
  if root ≠ [] ∧ within start root = false then kept root else kept start

def newProcess (above asked cwd : Path) : Process :=
  { above := above
    asked := asked
    root := kept asked
    active := false
    cwd := startIn (kept asked) (startOf cwd) }

def Process.caller (pr : Process) (who : Option Cred) : Caller :=
  ⟨pr.activeRoot, startOf pr.cwd, false, who⟩

/-- The root of whoever spawns: a process of the list, or the kernel and the shells. -/
def callerRoot (procs : List Process) (caller : Option Nat) : Path :=
  match caller.bind (procs[·]?) with
  | none => []
  | some pr => pr.activeRoot

def spawn (procs : List Process) (caller : Option Nat) (root : Option Path) (cwd : Path) :
    List Process :=
  if root.any (·.head? != some '/') then procs
  else if callerRoot procs caller ≠ [] ∧ root.any (within · (callerRoot procs caller)) = false then
    procs
  else procs ++ [newProcess (callerRoot procs caller) (root.getD []) cwd]

def chdir (pr : Process) (path : Path) (d : Disk) (who : Option Cred) : Process :=
  match fsResolve (startOf pr.cwd) path with
  | none => pr
  | some abs =>
    if ((fsStat (pr.caller who) d abs).run []).1 && d.isDir abs then { pr with cwd := kept abs }
    else pr

inductive Event
  | spawn (caller : Option Nat) (root : Option Path) (cwd : Path)
  /-- `espix_proc_loaded`, right before the app's own code runs. -/
  | loaded (i : Nat)
  | chdir (i : Nat) (path : Path) (d : Disk) (who : Option Cred)

def step (procs : List Process) : Event → Option (List Process)
  | .spawn caller root cwd => some (spawn procs caller root cwd)
  | .loaded i => some (procs.modify i fun pr => { pr with active := true })
  | .chdir i path d who =>
    some (procs.modify i fun pr => if pr.active then chdir pr path d who else pr)

/-- The texts a spawn with a root is given fit the process's buffers and nowhere go up. -/
def Tidy : Event → Prop
  | .spawn _ (some root) cwd =>
    root.length < pathMax ∧ ['.', '.'] ∉ root.splitOn '/' ∧
      Absolute (startOf cwd) ∧ (startOf cwd).length < pathMax ∧
      ['.', '.'] ∉ (startOf cwd).splitOn '/'
  | _ => True

structure Sound (pr : Process) : Prop where
  rooted : pr.root = pr.asked
  narrowed : pr.above ≠ [] → pr.asked ≠ [] ∧ Inside pr.above pr.asked
  home : pr.asked ≠ [] → Absolute pr.cwd ∧ Inside pr.asked pr.cwd

section Runs

variable {pr : Process} {procs : List Process} {d : Disk} {who : Option Cred}

theorem kept_of_short {text : Path} (short : text.length < pathMax) : kept text = text :=
  List.take_of_length_le (by omega)

theorem startOf_absolute {cwd : Path} (absolute : Absolute cwd) : startOf cwd = cwd := by
  obtain ⟨text, rfl⟩ := absolute
  rfl

theorem Sound.bound (sound : Sound pr) (active : pr.active = true) (confined : pr.asked ≠ []) :
    Bound (pr.caller who) where
  confined := by
    rw [Process.caller, Process.activeRoot, if_pos active, sound.rooted]
    exact confined
  lowered := rfl
  home := by
    have absolute := (sound.home confined).1
    rw [Process.caller, startOf_absolute absolute]
    exact absolute

theorem sound_newProcess {root cwd : Path} (absolute : root.head? = some '/')
    (tidy : Tidy (.spawn none (some root) cwd)) {above : Path}
    (narrowed : above ≠ [] → within root above = true) : Sound (newProcess above root cwd) := by
  obtain ⟨short, down, start_absolute, start_short, start_down⟩ := tidy
  obtain ⟨text, rfl⟩ := List.head?_eq_some_iff.mp absolute
  have same : kept ('/' :: text) = '/' :: text := kept_of_short short
  refine ⟨same, ?_, ?_⟩
  · intro confined
    exact ⟨List.cons_ne_nil _ _, normalise_of_within (narrowed confined) down⟩
  · intro _
    rw [newProcess, same]
    simp only [startIn]
    split
    · rw [same]
      exact ⟨⟨text, rfl⟩, List.prefix_rfl⟩
    · rename_i begins
      have inside : within (startOf cwd) ('/' :: text) = true := by simpa using begins
      rw [kept_of_short start_short]
      exact ⟨start_absolute, normalise_of_within inside start_down⟩

theorem sound_spawn {caller : Option Nat} {root : Option Path} {cwd : Path}
    (sound : ∀ pr ∈ procs, Sound pr) (tidy : Tidy (.spawn caller root cwd)) :
    ∀ pr ∈ spawn procs caller root cwd, Sound pr := by
  unfold spawn
  split
  · exact sound
  · split
    · exact sound
    · rename_i starts narrowed
      intro pr member
      rcases List.mem_append.mp member with old | new
      · exact sound pr old
      · rw [List.mem_singleton.mp new]
        cases root with
        | none =>
          have free : callerRoot procs caller = [] := by simpa using narrowed
          exact ⟨rfl, fun confined => absurd free confined, fun confined => absurd rfl confined⟩
        | some root =>
          apply sound_newProcess (by simpa using starts) tidy
          intro confined
          simpa [confined] using narrowed

theorem sound_chdir (sound : Sound pr) (active : pr.active = true) (path : Path) :
    Sound (chdir pr path d who) := by
  unfold chdir
  split
  · exact sound
  · rename_i abs resolved
    split
    · rename_i there
      rw [Bool.and_eq_true] at there
      refine ⟨sound.rooted, sound.narrowed, ?_⟩
      intro confined
      have bound : Bound (pr.caller who) := sound.bound active confined
      have absolute : Absolute abs := (fsResolve_spec bound.home resolved).1
      have inside := (keeps_fsStat bound [] nofun).2 there.1 absolute
      rw [Process.caller, Process.activeRoot, if_pos active, sound.rooted] at inside
      have short : abs.length < pathMax := length_of_fsResolve resolved
      simp only [kept_of_short short]
      exact ⟨absolute, inside⟩
    · exact sound

theorem sound_modify {f : Process → Process} (sound : ∀ pr ∈ procs, Sound pr)
    (each : ∀ pr, Sound pr → Sound (f pr)) (i : Nat) : ∀ pr ∈ procs.modify i f, Sound pr := by
  intro pr member
  obtain ⟨j, bound, rfl⟩ := List.mem_iff_getElem.mp member
  rw [List.getElem_modify]
  split
  · exact each _ (sound _ (List.getElem_mem _))
  · exact sound _ (List.getElem_mem _)

theorem sound_step {e : Event} {after : List Process} (sound : ∀ pr ∈ procs, Sound pr)
    (tidy : Tidy e) (next : step procs e = some after) : ∀ pr ∈ after, Sound pr := by
  cases e with
  | spawn caller root cwd =>
    cases next
    exact sound_spawn sound tidy
  | loaded i =>
    cases next
    apply sound_modify sound
    intro pr one
    exact ⟨one.rooted, one.narrowed, one.home⟩
  | chdir i path d who =>
    cases next
    apply sound_modify sound
    intro pr one
    split
    · rename_i active
      exact sound_chdir one active path
    · exact one

/-- Spawns, changes of directory and loads in any order, and then any call with any path:
nothing outside the root that was asked for is handed on. -/
theorem rooted_process_confined {es : List Event} (reached : run step [] es = some procs)
    (tidy : ∀ e ∈ es, Tidy e) (member : pr ∈ procs) :
    (pr.above ≠ [] → pr.asked ≠ [] ∧ Inside pr.above pr.asked) ∧
      (pr.asked ≠ [] → Inside pr.asked pr.cwd ∧
        (pr.active = true → ∀ who d call, ∀ p ∈ handed (pr.caller who) d call,
          Inside pr.asked p)) := by
  have all : ∀ pr ∈ procs, Sound pr :=
    run_invariant_along (fun _ _ _ sound fine next => sound_step sound fine next)
      (Along.of_forall tidy []) reached nofun
  have sound : Sound pr := all pr member
  refine ⟨sound.narrowed, ?_⟩
  intro confined
  refine ⟨(sound.home confined).2, ?_⟩
  intro active who d call p given
  have inside := handed_inside (sound.bound active confined) call p given
  rw [Process.caller, Process.activeRoot, if_pos active, sound.rooted] at inside
  exact inside

end Runs

section Cases

def openDisk : Disk :=
  { found := fun _ => true
    isDir := fun _ => true
    synth := fun _ => false
    makes := fun _ => true
    attr := fun _ => ⟨0, 0, 0o755⟩ }

def homeEvents : List Event :=
  [.spawn none (some "/home".toList) "/".toList, .loaded 0, .chdir 0 "pi/../".toList openDisk none]

def homeProcess : Process := ⟨[], "/home".toList, "/home".toList, true, "/home".toList⟩

theorem rooted_process_stays_home :
    run step [] homeEvents = some [homeProcess] ∧
      handed (homeProcess.caller none) openDisk (.open "a".toList noFlags) = ["/home/a".toList] ∧
      ∀ call, ∀ p ∈ handed (homeProcess.caller none) openDisk call, Inside "/home".toList p := by
  have reached : run step [] homeEvents = some [homeProcess] := by decide +kernel
  have tidy : ∀ e ∈ homeEvents, Tidy e := by
    simp only [homeEvents, List.forall_mem_cons, Tidy, Absolute]
    exact ⟨⟨by decide, by decide +kernel, ⟨[], rfl⟩, by decide, by decide +kernel⟩, trivial,
      trivial, nofun⟩
  have confined := rooted_process_confined reached tidy (List.mem_singleton.mpr rfl)
  exact ⟨reached, by decide +kernel, (confined.2 (by decide)).2 rfl none openDisk⟩

/-- The session of an account named `..` stands in `/home/..`, which the test on the text
takes for a place in `/home`; and a rooted caller passes on a root that climbs out of its own. -/
theorem double_dot_leaves_root :
    (∃ pr, run step [] [.spawn none (some "/home".toList) "/home/..".toList, .loaded 0] =
        some [pr] ∧ pr.asked = "/home".toList ∧ ¬Inside pr.asked pr.cwd) ∧
      ∃ parent child, run step [] [.spawn none (some "/srv/www".toList) "/".toList, .loaded 0,
          .spawn (some 0) (some "/srv/www/../../etc".toList) "/".toList, .loaded 1] =
          some [parent, child] ∧
        child.above = parent.asked ∧ ¬Inside parent.asked child.asked := by
  constructor
  · exact ⟨⟨[], "/home".toList, "/home".toList, true, "/home/..".toList⟩, by decide +kernel, rfl,
      by decide +kernel⟩
  · exact ⟨⟨[], "/srv/www".toList, "/srv/www".toList, true, "/srv/www".toList⟩,
      ⟨"/srv/www".toList, "/srv/www/../../etc".toList, "/srv/www/../../etc".toList, true,
        "/srv/www/../../etc".toList⟩, by decide +kernel, rfl, by decide +kernel⟩

end Cases

end Espix.Proc.Root
