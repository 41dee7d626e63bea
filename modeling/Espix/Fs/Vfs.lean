import Espix.Proc.Root

/-! `components/espix_fs/vfs.c`: the root VFS, what it remembers, and what it calls below.

Three tables say which mount a call belongs to: the mounts by path, the open files by key,
and the directories by pointer. The descriptors a program holds are those of ESP-IDF, whose
table stores a key in each. Every call into a file system below is written to the log, and
so is every permission check.

The `stat` and `open` calls that a check makes are operations of their own. What a file system
answers comes with the event. -/

namespace Espix.Fs.Vfs

open Access Proc.Root

def maxMounts : Nat := 4
def pointMax : Nat := 32
def fdBase : Nat := 128
def fdMax : Nat := 32
def synthFdBase : Nat := 240
def dirsMax : Nat := 8

/-- The functions of a file system below: `esp_vfs_fs_ops_t` and `esp_vfs_dir_ops_t`. -/
inductive Callback
  | open
  | close
  | read
  | write
  | pread
  | pwrite
  | lseek
  | fstat
  | fsync
  | fcntl
  | stat
  | unlink
  | rename
  | opendir
  | readdir
  | readdirR
  | telldir
  | seekdir
  | closedir
  | mkdir
  | rmdir
  | truncate
  | ftruncate
  | utime
  deriving DecidableEq, Repr

structure Mount where
  id : Nat
  has : Callback → Bool
  point : Path
  dead : Bool

/-- A used `fd_slot_t`. No owner is the shell's own. -/
structure Slot where
  lowerFd : Nat
  mount : Nat
  owner : Option Nat
  refs : Nat
  deriving DecidableEq

structure Tracked where
  dirp : Nat
  mount : Nat
  deriving DecidableEq

structure Entry where
  vfs : Nat
  localFd : Nat
  permanent : Bool
  deriving DecidableEq

inductive Arg
  | path (p : Path)
  | two (p q : Path)
  /-- An open, with the number or the pointer it gave. -/
  | file (p : Path) (result : Option Nat)
  | fd (n : Nat)
  | dir (dirp : Nat)
  deriving DecidableEq

inductive Note
  /-- `espix_fs_access_check` and what it returned. -/
  | checked (op : Op) (path : Path) (flags : OpenFlags) (result : Option Errno)
  | called (id : Nat) (cb : Callback) (arg : Arg)
  | stamped (path : Path) (stamp : Stamp)
  /-- A table that is not there was read for a function. -/
  | fault
  deriving DecidableEq

structure State where
  mounts : Nat → Option Mount
  fds : Nat → Option Slot
  dirMap : Nat → Option Tracked
  table : Nat → Option Entry
  nextId : Nat
  log : List Note

def State.note (s : State) (notes : List Note) : State := { s with log := s.log ++ notes }

/-- ESP-IDF's table of descriptors, whose code is not here: what `vfs.c` says it relies on. -/
structure Config where
  maxFds : Nat
  rootVfs : Nat
  register : (Nat → Option Entry) → Option Nat
  unregister : (Nat → Option Entry) → Nat → Nat → Option Entry
  entry : (Nat → Option Entry) → Nat → Option Entry
  register_free : ∀ {table fd}, register table = some fd → fd < maxFds ∧ table fd = none
  unregister_passing : ∀ {table fd}, (table fd).any (·.permanent) = false →
    unregister table fd = Function.update table fd none
  entry_eq : ∀ table fd, entry table fd = if fd < maxFds then table fd else none

def lowest (maxFds rootVfs : Nat) : Config where
  maxFds
  rootVfs
  register table := (List.range maxFds).find? fun fd => (table fd).isNone
  unregister table fd :=
    if (table fd).any (·.permanent) then table else Function.update table fd none
  entry table fd := if fd < maxFds then table fd else none
  register_free first :=
    ⟨List.mem_range.mp (List.mem_of_find?_eq_some first), by simpa using List.find?_some first⟩
  unregister_passing passing := by rw [passing]; rfl
  entry_eq _ _ := rfl

structure Trees where
  node : Path → Bool
  subdir : Path → Bool

def treePoints : List Path := ["/dev".toList, "/proc".toList]

def beginsWith (p point : Path) (ends : Bool) : Bool :=
  point.isPrefixOf p &&
    match (p.drop point.length).head? with
    | none => ends
    | some c => c == '/'

def synthUnder (p : Path) : Bool := treePoints.any fun point => beginsWith p point false

def synthLookup (t : Trees) (p : Path) : Bool := synthUnder p && t.node p

def synthIsdir (t : Trees) (p : Path) : Bool :=
  treePoints.contains p || (synthUnder p && t.subdir p)

/-- Who calls, and what `stat` says: before the call, and once a file is made. -/
structure Env where
  caller : Caller
  pid : Option Nat
  view : View
  made : View

def fsAccessCheck (env : Env) (p : Path) (op : Op) (flags : OpenFlags) : Option Errno :=
  if env.caller.raised then none
  else
    match env.caller.who with
    | none => none
    | some who => accessCheck env.view who p op flags

def fsClaim (env : Env) (s : State) (p : Path) (mode : Nat) : State :=
  if env.caller.raised then s
  else
    match env.caller.who with
    | none => s
    | some who =>
      match claim env.made who p mode with
      | none => s
      | some stamp => s.note [.stamped p stamp]

section Routes

def closer (s : State) (p : Path) (best : Nat × Nat) (i : Nat) : Nat × Nat :=
  match s.mounts i with
  | none => best
  | some m =>
      if best.2 < m.point.length && beginsWith p m.point true then (i, m.point.length) else best

def mountByPath (s : State) (p : Path) : Nat :=
  ((List.range' 1 (maxMounts - 1)).foldl (closer s p) (0, 0)).1

/-- The function of a mount that was found by path or by key; a dead one has none. -/
def reaches (s : State) (i : Nat) (cb : Callback) : Bool :=
  (s.mounts i).any fun m => !m.dead && m.has cb

def call (s : State) (i : Nat) (cb : Callback) (arg : Arg) : State :=
  match s.mounts i with
  | none => s.note [.fault]
  | some m => if !m.dead && m.has cb then s.note [.called m.id cb arg] else s

/-- `mount_by_dir`, which does not ask whether the mount is dead. -/
def mountByDir (s : State) (dirp : Nat) : Option Nat :=
  ((List.range dirsMax).findSome? fun k => (s.dirMap k).filter (·.dirp == dirp)).map (·.mount)

def callDir (s : State) (i : Nat) (cb : Callback) (dirp : Nat) : State :=
  match s.mounts i with
  | none => s.note [.fault]
  | some m => if m.has cb then s.note [.called m.id cb (.dir dirp)] else s

end Routes

section Keys

def fdOurs (key : Nat) : Bool := fdBase ≤ key && key < fdBase + fdMax

def setFd (s : State) (key : Nat) (slot : Option Slot) : State :=
  { s with fds := Function.update s.fds key slot }

def fdSlotAlloc (s : State) (lowerFd mount : Nat) (owner : Option Nat) : Option (Nat × State) :=
  ((List.range' fdBase fdMax).find? fun key => (s.fds key).isNone).map fun key =>
    (key, setFd s key (some ⟨lowerFd, mount, owner, 1⟩))

def vfsClose (s : State) (key : Nat) : State :=
  if synthFdBase ≤ key || !fdOurs key then s
  else
    match s.fds key with
    | none => s
    | some slot =>
      if slot.refs > 1 then setFd s key (some { slot with refs := slot.refs - 1 })
      else setFd (call s slot.mount .close (.fd slot.lowerFd)) key none

/-- `vfs_read`, `vfs_write` and the others that take a key. -/
def onKey (s : State) (key : Nat) (cb : Callback) : State :=
  if synthFdBase ≤ key || !fdOurs key then s
  else
    match s.fds key with
    | none => s
    | some slot => call s slot.mount cb (.fd slot.lowerFd)

end Keys

section Paths

variable (t : Trees) (env : Env)

/-- What is opened: a number of the file system, or a slot of `synth.c`. -/
structure OpenAnswer where
  lower : Option Nat
  synth : Option Nat

/-- `vfs_open` from the file system's answer on: the key of a file that was opened, or the file
is closed again. -/
def keepOpened (s : State) (p : Path) (flags : OpenFlags) (mode i fd : Nat) : State × Option Nat :=
  if synthFdBase ≤ fd then (call s i .close (.fd fd), none)
  else
    match fdSlotAlloc s fd i env.pid with
    | none => (call s i .close (.fd fd), none)
    | some (key, s) =>
      if flags.creat && (env.view p).isNone then (fsClaim env s p mode, some key) else (s, some key)

def openBelow (s : State) (p : Path) (flags : OpenFlags) (mode : Nat) (lower : Option Nat) :
    State × Option Nat :=
  let i := mountByPath s p
  if reaches s i .open then
    let s := call s i .open (.file p lower)
    match lower with
    | none => (s, none)
    | some fd => keepOpened env s p flags mode i fd
  else (s, none)

def vfsOpen (s : State) (path : Path) (flags : OpenFlags) (mode : Nat) (answer : OpenAnswer) :
    State × Option Nat :=
  match vfsResolve env.caller path with
  | none => (s, none)
  | some p =>
    let result := fsAccessCheck env p .open flags
    let s := s.note [.checked .open p flags result]
    if result ≠ none then (s, none)
    else if synthLookup t p then (s, answer.synth.map (synthFdBase + ·))
    else if synthIsdir t p || synthUnder p then (s, none)
    else openBelow env s p flags mode answer.lower

def onName (refused : Path → Bool) (op : Op) (cb : Callback) (s : State) (path : Path) : State :=
  match vfsResolve env.caller path with
  | none => s
  | some p =>
    if refused p then s
    else
      let result := fsAccessCheck env p op noFlags
      let s := s.note [.checked op p noFlags result]
      if result ≠ none then s else call s (mountByPath s p) cb (.path p)

def inTrees (p : Path) : Bool := synthIsdir t p || synthUnder p

def vfsUnlink : State → Path → State := onName env (inTrees t) .unlink .unlink
def vfsRmdir : State → Path → State := onName env (inTrees t) .rmdir .rmdir
def vfsTruncate : State → Path → State := onName env (inTrees t) .truncate .truncate

def vfsRename (s : State) (src dst : Path) : State :=
  match vfsResolve env.caller src, vfsResolve env.caller dst with
  | some p, some q =>
    if inTrees t p || inTrees t q then s
    else
      let first := fsAccessCheck env p .rename noFlags
      let s := s.note [.checked .rename p noFlags first]
      if first ≠ none then s
      else
        let second := fsAccessCheck env q .rename noFlags
        let s := s.note [.checked .rename q noFlags second]
        if second ≠ none then s
        else if mountByPath s q = mountByPath s p then call s (mountByPath s p) .rename (.two p q)
        else s
  | _, _ => s

/-- `vfs_mkdir`, which lets a tree's own point through. -/
def vfsMkdir (s : State) (path : Path) (mode : Nat) (made : Bool) : State :=
  match vfsResolve env.caller path with
  | none => s
  | some p =>
    if synthUnder p then s
    else
      let result := fsAccessCheck env p .mkdir noFlags
      let s := s.note [.checked .mkdir p noFlags result]
      if result ≠ none then s
      else
        let i := mountByPath s p
        let after := call s i .mkdir (.path p)
        if reaches s i .mkdir && made then fsClaim env after p mode else after

def vfsUtime (s : State) (path : Path) : State :=
  match vfsResolve env.caller path with
  | none => s
  | some p => if inTrees t p then s else call s (mountByPath s p) .utime (.path p)

def vfsStat (s : State) (path : Path) : State :=
  match vfsResolve env.caller path with
  | none => s
  | some p => if inTrees t p then s else call s (mountByPath s p) .stat (.path p)

end Paths

section Directories

/-- `dir_map_set`: the first place that is free or holds the pointer, if there is one. -/
def dirMapSet (s : State) (dirp mount : Nat) : State :=
  match (List.range dirsMax).find? fun k => (s.dirMap k).all (·.dirp == dirp) with
  | none => s
  | some k => { s with dirMap := Function.update s.dirMap k (some ⟨dirp, mount⟩) }

def dirMapClear (s : State) (dirp : Nat) : State :=
  match (List.range dirsMax).find? fun k => (s.dirMap k).any (·.dirp == dirp) with
  | none => s
  | some k => { s with dirMap := Function.update s.dirMap k none }

/-- `vfs_opendir` below the trees, with the pointer it returns. -/
def vfsOpendir (t : Trees) (env : Env) (s : State) (path : Path) (answer : Option Nat) :
    State × Option Nat :=
  match vfsResolve env.caller path with
  | none => (s, none)
  | some p =>
    let result := fsAccessCheck env p .opendir noFlags
    let s := s.note [.checked .opendir p noFlags result]
    if result ≠ none || inTrees t p then (s, none)
    else
      let i := mountByPath s p
      if reaches s i .opendir then
        let s := call s i .opendir (.file p answer)
        match answer with
        | none => (s, none)
        | some dirp => (dirMapSet s dirp i, some dirp)
      else (s, none)

/-- `vfs_readdir`, `vfs_readdir_r`, `vfs_telldir` and `vfs_seekdir`. -/
def onDir (s : State) (dirp : Nat) (cb : Callback) : State :=
  match mountByDir s dirp with
  | none => s
  | some i => callDir s i cb dirp

def vfsClosedir (s : State) (dirp : Nat) : State :=
  match mountByDir s dirp with
  | none => s
  | some i => dirMapClear (callDir s i .closedir dirp) dirp

end Directories

section Mounts

inductive Err
  | invalidArg
  | invalidState
  | notFound
  | noMem
  deriving DecidableEq, Repr

def mountIndices : List Nat := List.range' 1 (maxMounts - 1)

def mountAt (s : State) (point : Path) : Option Nat :=
  mountIndices.find? fun i => (s.mounts i).any (·.point == point)

def setMount (s : State) (i : Nat) (m : Option Mount) : State :=
  { s with mounts := Function.update s.mounts i m }

def addMount (s : State) (point : Path) (has : Callback → Bool) : Except Err State :=
  if point.length < 1 ∨ pointMax ≤ point.length ∨ point.head? ≠ some '/' ∨
      point.getLast? = some '/' then .error .invalidArg
  else if (mountAt s point).isSome then .error .invalidState
  else
    match mountIndices.find? fun i => (s.mounts i).isNone with
    | none => .error .noMem
    | some i =>
        .ok { setMount s i (some ⟨s.nextId, has, point, false⟩) with nextId := s.nextId + 1 }

def mountDead (s : State) (point : Path) : Except Err State :=
  match mountAt s point with
  | none => .error .notFound
  | some i => .ok (setMount s i ((s.mounts i).map fun m => { m with dead := true }))

def fdPlaces : Nat := fdBase + fdMax

def slotAt (s : State) (beyond : Nat → Option Slot) (fd : Nat) : Option Slot :=
  if fd < fdPlaces then s.fds fd else beyond fd

/-- The scan for an open file of the mount: the places it read, and whether it found one. -/
def scan (memory : Nat → Option Slot) (i : Nat) : List Nat → List Nat × Bool
  | [] => ([], false)
  | fd :: rest =>
    if (memory fd).any (·.mount == i) then ([fd], true)
    else (fd :: (scan memory i rest).1, (scan memory i rest).2)

/-- `espix_vfs_del_mount`: the places of the open-file table it read, and the outcome. -/
def delMount (s : State) (beyond : Nat → Option Slot) (point : Path) :
    List Nat × Except Err State :=
  match mountAt s point with
  | none => ([], .error .notFound)
  | some i =>
    let scanned := scan (slotAt s beyond) i (List.range synthFdBase)
    if scanned.2 || (List.range dirsMax).any fun k => (s.dirMap k).any (·.mount == i) then
      (scanned.1, .error .invalidState)
    else (scanned.1, .ok (setMount s i none))

end Mounts

section Descriptors

variable (cfg : Config)

def setEntry (s : State) (fd : Nat) (e : Option Entry) : State :=
  { s with table := Function.update s.table fd e }

def getFdEntry (s : State) (fd : Nat) : Option Entry := cfg.entry s.table fd

def registerFd (s : State) (vfs localFd : Nat) : Option (Nat × State) :=
  (cfg.register s.table).map fun fd => (fd, setEntry s fd (some ⟨vfs, localFd, false⟩))

def unregisterFd (s : State) (fd : Nat) : State := { s with table := cfg.unregister s.table fd }

/-- `open`: a number that ESP-IDF has no entry for is closed again. -/
def idfOpen (t : Trees) (env : Env) (s : State) (path : Path) (flags : OpenFlags) (mode : Nat)
    (answer : OpenAnswer) : State :=
  match vfsOpen t env s path flags mode answer with
  | (s, none) => s
  | (s, some key) =>
    match registerFd cfg s cfg.rootVfs key with
    | none => vfsClose s key
    | some (_, s) => s

def idfClose (s : State) (fd : Nat) : State :=
  match getFdEntry cfg s fd with
  | none => s
  | some e =>
    let s := if e.vfs = cfg.rootVfs then vfsClose s e.localFd else s
    if e.permanent then s else unregisterFd cfg s fd

def holdBelow (vfs min : Nat) : Nat → State → List Nat → State × List Nat
  | 0, s, held => (s, held)
  | turns + 1, s, held =>
    match registerFd cfg s vfs 0 with
    | none => (s, held)
    | some (fd, s') =>
      if min ≤ fd then (unregisterFd cfg s' fd, held) else holdBelow vfs min turns s' (held ++ [fd])

def dupPlace (s : State) (vfs key min : Nat) : State × Option Nat :=
  match s.fds key with
  | none => (s, none)
  | some slot =>
    let s := setFd s key (some { slot with refs := slot.refs + 1 })
    let (s, held) := holdBelow cfg vfs min cfg.maxFds s []
    match registerFd cfg s vfs key with
    | none =>
      let s := held.foldl (unregisterFd cfg) s
      (setFd s key ((s.fds key).map fun slot => { slot with refs := slot.refs - 1 }), none)
    | some (fd, s) => (held.foldl (unregisterFd cfg) s, some fd)

/-- `espix_fs_dup_min_fd`; `espix_fs_dup_fd` has no floor. -/
def dupMin (s : State) (fd min : Nat) : State :=
  match getFdEntry cfg s fd with
  | none => s
  | some e =>
    if fdOurs e.localFd && decide (min < cfg.maxFds) then
      (dupPlace cfg s e.vfs e.localFd min).1 else s

def dup (s : State) (fd : Nat) : State :=
  match getFdEntry cfg s fd with
  | none => s
  | some e => if fdOurs e.localFd then (dupPlace cfg s e.vfs e.localFd 0).1 else s

def mine (s : State) (pid : Option Nat) (vfs : Nat) (target : Entry) : Bool :=
  target.vfs == vfs && fdOurs target.localFd && pid.isSome &&
    (s.fds target.localFd).any (·.owner == pid)

def dupOnto (s : State) (vfs key newfd : Nat) : State :=
  match dupPlace cfg s vfs key newfd with
  | (s, none) => s
  | (s, some nfd) => if nfd = newfd then s else idfClose cfg s nfd

def dup2 (s : State) (pid : Option Nat) (oldfd newfd : Nat) : State :=
  match getFdEntry cfg s oldfd with
  | none => s
  | some e =>
    if !fdOurs e.localFd || decide (cfg.maxFds ≤ newfd) then s
    else if oldfd = newfd then s
    else
      match getFdEntry cfg s newfd with
      | none => dupOnto cfg s e.vfs e.localFd newfd
      | some target =>
        if mine s pid e.vfs target then dupOnto cfg (idfClose cfg s newfd) e.vfs e.localFd newfd
        else s

def closeKey (s : State) (key : Nat) : State :=
  (List.range cfg.maxFds).foldl
    (fun s fd => if (getFdEntry cfg s fd).any (·.localFd == key) then idfClose cfg s fd else s) s

def fdsCloseOwned (s : State) (pid : Nat) : State :=
  (List.range' fdBase fdMax).foldl
    (fun s key => if (s.fds key).any (·.owner == some pid) then closeKey cfg s key else s) s

def onFd (s : State) (fd : Nat) (cb : Callback) : State :=
  match getFdEntry cfg s fd with
  | none => s
  | some e => if e.vfs = cfg.rootVfs then onKey s e.localFd cb else s

end Descriptors

inductive FdCall
  | read
  | write
  | pread
  | pwrite
  | lseek
  | fstat
  | fsync
  | fcntl
  | ftruncate
  deriving DecidableEq, Repr

def FdCall.callback : FdCall → Callback
  | .read => .read
  | .write => .write
  | .pread => .pread
  | .pwrite => .pwrite
  | .lseek => .lseek
  | .fstat => .fstat
  | .fsync => .fsync
  | .fcntl => .fcntl
  | .ftruncate => .ftruncate

inductive DirCall
  | readdir
  | readdirR
  | telldir
  | seekdir
  deriving DecidableEq, Repr

def DirCall.callback : DirCall → Callback
  | .readdir => .readdir
  | .readdirR => .readdirR
  | .telldir => .telldir
  | .seekdir => .seekdir

inductive PathCall
  | open (path : Path) (flags : OpenFlags) (mode : Nat) (answer : OpenAnswer)
  | unlink (path : Path)
  | rename (src dst : Path)
  | mkdir (path : Path) (mode : Nat) (made : Bool)
  | rmdir (path : Path)
  | truncate (path : Path)
  | utime (path : Path)
  | stat (path : Path)
  | opendir (path : Path) (answer : Option Nat)

inductive Event
  | path (env : Env) (call : PathCall)
  | onFd (fd : Nat) (call : FdCall)
  | close (fd : Nat)
  | dup (fd : Nat)
  | dupMin (fd min : Nat)
  | dup2 (pid : Option Nat) (oldfd newfd : Nat)
  | teardown (pid : Nat)
  | onDir (dirp : Nat) (call : DirCall)
  | closedir (dirp : Nat)
  | addMount (point : Path) (has : Callback → Bool)
  | delMount (beyond : Nat → Option Slot) (point : Path)
  | mountDead (point : Path)
  /-- Another VFS takes or gives back a descriptor; its local numbers are no keys. -/
  | foreign (fd : Nat) (entry : Option Entry)

def performPath (cfg : Config) (t : Trees) (env : Env) (s : State) : PathCall → State
  | .open path flags mode answer => idfOpen cfg t env s path flags mode answer
  | .unlink path => vfsUnlink t env s path
  | .rename src dst => vfsRename t env s src dst
  | .mkdir path mode made => vfsMkdir env s path mode made
  | .rmdir path => vfsRmdir t env s path
  | .truncate path => vfsTruncate t env s path
  | .utime path => vfsUtime t env s path
  | .stat path => vfsStat t env s path
  | .opendir path answer => (vfsOpendir t env s path answer).1

def orSame (s : State) : Except Err State → State
  | .ok s' => s'
  | .error _ => s

def step (cfg : Config) (t : Trees) (s : State) : Event → Option State
  | .path env call => some (performPath cfg t env s call)
  | .onFd fd call => some (onFd cfg s fd call.callback)
  | .close fd => some (idfClose cfg s fd)
  | .dup fd => some (dup cfg s fd)
  | .dupMin fd min => some (dupMin cfg s fd min)
  | .dup2 pid oldfd newfd => some (dup2 cfg s pid oldfd newfd)
  | .teardown pid => some (fdsCloseOwned cfg s pid)
  | .onDir dirp call => some (onDir s dirp call.callback)
  | .closedir dirp => some (vfsClosedir s dirp)
  | .addMount point has => some (orSame s (addMount s point has))
  | .delMount beyond point => some (orSame s (delMount s beyond point).2)
  | .mountDead point => some (orSame s (mountDead s point))
  | .foreign fd entry =>
    if (s.table fd).any (fun e => fdOurs e.localFd) || entry.any (fun e => fdOurs e.localFd) then
      none
    else some (setEntry s fd entry)

theorem step_foreign {cfg : Config} {t : Trees} {s u : State} {fd : Nat} {entry : Option Entry}
    (next : step cfg t s (.foreign fd entry) = some u) :
    (s.table fd).any (fun e => fdOurs e.localFd) = false ∧
      entry.any (fun e => fdOurs e.localFd) = false ∧ u = setEntry s fd entry := by
  simp only [step] at next
  split at next
  · cases next
  · rename_i others
    cases next
    exact ⟨by simp_all, by simp_all, rfl⟩

/-- The root is registered, and other components hold the descriptors of the table. -/
def boot (has : Callback → Bool) (table : Nat → Option Entry) : State :=
  { mounts := Function.update (fun _ => none) 0 (some ⟨0, has, [], false⟩)
    fds := fun _ => none
    dirMap := fun _ => none
    table
    nextId := 1
    log := [] }

def opener : Env := ⟨⟨[], "/".toList, true, none⟩, some 7, fun _ => none, fun _ => none⟩

def noTrees : Trees := ⟨fun _ => false, fun _ => false⟩

end Espix.Fs.Vfs
