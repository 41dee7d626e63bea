import Espix.Lib.Ask
import Espix.Nfsd.Requests
import Espix.Nfsd.Rpc

/-! `components/espix_nfsd/nfs3.c`: the procedures of NFS version 3.

A procedure reads its arguments, asks the table of handles and the file system, and writes its
reply. What they answer is open; the answers of the table are tied to it by `Agrees`. -/

namespace Espix.Nfsd.Nfs3

open Fs.Access (Path)
open Lib.Ask Lib.Xdr Exports
open Handles hiding Event step boot
open Requests (nameOk joinPath childPath)
open Rpc

inductive Status
  | ok | perm | noent | io | acces | exist | xdev | notdir | isdir | inval | nospc | rofs | mlink
  | loop | nametoolong | notempty | badhandle | notSync | notsupp | serverfault
  deriving DecidableEq, Repr

def Status.code : Status → Nat
  | .ok => 0
  | .perm => 1
  | .noent => 2
  | .io => 5
  | .acces => 13
  | .exist => 17
  | .xdev => 18
  | .notdir => 20
  | .isdir => 21
  | .inval => 22
  | .nospc => 28
  | .rofs => 30
  | .mlink => 31
  | .loop => 62
  | .nametoolong => 63
  | .notempty => 66
  | .badhandle => 10001
  | .notSync => 10002
  | .notsupp => 10004
  | .serverfault => 10006

inductive Errno
  | perm | noent | acces | exist | notdir | isdir | inval | nospc | rofs | nametoolong | notempty
  | xdev | mlink | loop | nosys | other
  deriving DecidableEq, Repr

def nfserr : Errno → Status
  | .perm => .perm
  | .noent => .noent
  | .acces => .acces
  | .exist => .exist
  | .notdir => .notdir
  | .isdir => .isdir
  | .inval => .inval
  | .nospc => .nospc
  | .rofs => .rofs
  | .nametoolong => .nametoolong
  | .notempty => .notempty
  | .xdev => .xdev
  | .mlink => .mlink
  | .loop => .loop
  | .nosys => .notsupp
  | .other => .io

def orIo (errno : Option Errno) : Errno := errno.getD .other

def nfsdBufcap : Nat := 16384
def nfsdIocap : Nat := 8192
def nameCap : Nat := 256

structure Stat where
  mode : Nat
  nlink : Nat
  uid : Nat
  gid : Nat
  size : Nat
  atime : Nat
  mtime : Nat
  ino : Nat
  clock : Nat
  deriving DecidableEq, Repr

/-- `espix_fs_entry_info_t`; its date and time as `fat_info_time` reads them, and the clock. -/
structure EntryInfo where
  size : Nat
  mtime : Nat
  attr : Nat
  clock : Nat
  deriving DecidableEq, Repr

/-- `struct dirent`, with what `espix_fs_last_entry` says of it. The name is a string in an array
of 256. -/
structure DirEntry where
  name : Path
  ino : Nat
  info : Option EntryInfo
  short : name.length < nameCap
  deriving DecidableEq, Repr

inductive OpenMode
  | readOnly
  | writeOnly
  | readWrite
  /-- `O_WRONLY | O_CREAT`, with `O_TRUNC` or with `O_EXCL`. -/
  | create (truncates : Bool)
  deriving DecidableEq, Repr

/-- What a procedure asks. The calls on a descriptor are on the last one opened. -/
inductive Question
  /-- `fh_resolve`; from its answer on the request acts as the client. -/
  | resolve (fh : Handle)
  | make (exp : Nat) (path : Path)
  | stat (path : Path)
  | «open» (path : Path) (mode : OpenMode)
  | lseek (off : Nat)
  | read (room : Nat)
  /-- So many bytes from there on in the message. -/
  | write (start len : Nat)
  | fsync
  | fstat
  | close
  | truncate (path : Path) (size : Nat)
  | chmod (path : Path) (mode : Nat)
  | chown (path : Path) (uid gid : Option Nat)
  | utime (path : Path) (atime mtime : Nat)
  | mkdir (path : Path) (mode : Nat)
  | rmdir (path : Path)
  | unlink (path : Path)
  | rename (old new : Path)
  /-- `opendir`, the walk over the entries, and `closedir`. -/
  | opendir (path : Path)
  | mountOwner (path : Path)
  | space (path : Path)
  | verf

abbrev FhBytes := { fh : Handle // fh.length = fhLen }

/-- Of a write the answer is how many bytes went behind the first, or `errno` as it is when none
did, which may be unset; so it may be for `fsync`. -/
@[reducible] def Answer : Question → Type
  | .resolve _ => Option Resolved
  | .make .. => Option FhBytes
  | .stat _ => Except Errno Stat
  | .open .. => Except Errno Unit
  | .lseek _ => Bool
  | .read _ => Except Errno Bytes
  | .write .. => Except (Option Errno) Nat
  | .fsync => Except (Option Errno) Unit
  | .fstat => Option Stat
  | .close => Unit
  | .truncate .. => Except Errno Unit
  | .chmod .. => Unit
  | .chown .. => Unit
  | .utime .. => Except Errno Unit
  | .mkdir .. => Except Errno Unit
  | .rmdir _ => Except Errno Unit
  | .unlink _ => Except Errno Unit
  | .rename .. => Except Errno Unit
  | .opendir _ => Except Errno (List DirEntry)
  | .mountOwner _ => Nat × Nat
  | .space _ => Nat × Nat
  | .verf => Nat × Nat

abbrev Nfs := Prog Answer

namespace Call

abbrev resolve (fh : Handle) : Nfs (Option Resolved) := ask (A := Answer) (.resolve fh)
abbrev make (exp : Nat) (path : Path) : Nfs (Option FhBytes) := ask (A := Answer) (.make exp path)
abbrev stat (path : Path) : Nfs (Except Errno Stat) := ask (A := Answer) (.stat path)
abbrev «open» (path : Path) (mode : OpenMode) : Nfs (Except Errno Unit) :=
  ask (A := Answer) (.open path mode)
abbrev lseek (off : Nat) : Nfs Bool := ask (A := Answer) (.lseek off)
abbrev read (room : Nat) : Nfs (Except Errno Bytes) := ask (A := Answer) (.read room)
abbrev write (start len : Nat) : Nfs (Except (Option Errno) Nat) :=
  ask (A := Answer) (.write start len)
abbrev fsync : Nfs (Except (Option Errno) Unit) := ask (A := Answer) .fsync
abbrev fstat : Nfs (Option Stat) := ask (A := Answer) .fstat
abbrev close : Nfs Unit := ask (A := Answer) .close
abbrev truncate (path : Path) (size : Nat) : Nfs (Except Errno Unit) :=
  ask (A := Answer) (.truncate path size)
abbrev chmod (path : Path) (mode : Nat) : Nfs Unit := ask (A := Answer) (.chmod path mode)
abbrev chown (path : Path) (uid gid : Option Nat) : Nfs Unit :=
  ask (A := Answer) (.chown path uid gid)
abbrev utime (path : Path) (atime mtime : Nat) : Nfs (Except Errno Unit) :=
  ask (A := Answer) (.utime path atime mtime)
abbrev mkdir (path : Path) (mode : Nat) : Nfs (Except Errno Unit) :=
  ask (A := Answer) (.mkdir path mode)
abbrev rmdir (path : Path) : Nfs (Except Errno Unit) := ask (A := Answer) (.rmdir path)
abbrev unlink (path : Path) : Nfs (Except Errno Unit) := ask (A := Answer) (.unlink path)
abbrev rename (old new : Path) : Nfs (Except Errno Unit) := ask (A := Answer) (.rename old new)
abbrev opendir (path : Path) : Nfs (Except Errno (List DirEntry)) :=
  ask (A := Answer) (.opendir path)
abbrev mountOwner (path : Path) : Nfs (Nat × Nat) := ask (A := Answer) (.mountOwner path)
abbrev space (path : Path) : Nfs (Nat × Nat) := ask (A := Answer) (.space path)
abbrev verf : Nfs (Nat × Nat) := ask (A := Answer) .verf

end Call

def Agrees (exports : List Export) (peer : Peer) : Table → Trace Answer → Prop
  | _, [] => True
  | t, ⟨.resolve fh, answer⟩ :: trace =>
      answer = fhResolve exports peer t fh ∧ Agrees exports peer t trace
  | t, ⟨.make exp path, answer⟩ :: trace =>
    ∃ heap, answer.map (·.val) = (fhMake heap t exp path).2 ∧
      Agrees exports peer (fhMake heap t exp path).1 trace
  | t, _ :: trace => Agrees exports peer t trace

section Wire

def getFh (c : Args) : Option (Handle × Args) :=
  (getU32 c).bind fun n => if 64 < n.1 then none else getOpaque n.1 n.2

def getBool (c : Args) : Option (Bool × Args) := (getU32 c).map fun v => (v.1 != 0, v.2)

def putStatus (s : Status) : Writer → Writer := xdrwU32 s.code

def putFh (fh : Handle) (w : Writer) : Writer := w |> xdrwU32 fh.length |> xdrwOpaque fh

def putTime (secs : Nat) (w : Writer) : Writer := w |> xdrwU32 secs |> xdrwU32 0

def isDir (mode : Nat) : Bool := mode &&& 0o170000 == 0o040000

def ftype (mode : Nat) : Nat :=
  let kind := mode &&& 0o170000
  if kind = 0o100000 then 1
  else if kind = 0o040000 then 2
  else if kind = 0o060000 then 3
  else if kind = 0o020000 then 4
  else if kind = 0o120000 then 5
  else if kind = 0o140000 then 6
  else 7

def exportHash (exports : List Export) (exp : Nat) : Nat :=
  (pathHash ((exports[exp]?.map (·.path)).getD [])).toNat

def putFattr (exports : List Export) (exp : Nat) (st : Stat) (w : Writer) : Writer :=
  let dir := isDir st.mode
  let nlink := if st.nlink ≠ 0 then st.nlink else 1
  let used := (st.size + 511) / 512 * 512
  let mt := if st.mtime ≠ 0 then st.mtime else st.clock
  let h := exportHash exports exp
  w |> xdrwU32 (ftype st.mode) |> xdrwU32 (st.mode &&& 0o7777)
    |> xdrwU32 (if dir && decide (nlink < 2) then 2 else nlink) |> xdrwU32 st.uid |> xdrwU32 st.gid
    |> xdrwU64 (if dir && st.size == 0 then 4096 else st.size)
    |> xdrwU64 (if dir && used == 0 then 4096 else used) |> xdrwU32 0 |> xdrwU32 0
    |> xdrwU64 (0x4553505800000000 ||| h) |> xdrwU64 (if st.ino ≠ 0 then
        st.ino else h) |> putTime mt
    |> putTime mt |> putTime mt

def putPostAttr (exports : List Export) (exp : Nat) (st : Option Stat) (w : Writer) : Writer :=
  match st with
  | none => xdrwBool false w
  | some st => w |> xdrwBool true |> putFattr exports exp st

def putWccAttr (st : Stat) (w : Writer) : Writer :=
  w |> xdrwU64 st.size |> putTime st.mtime |> putTime st.mtime

def putBefore (before : Option Stat) (w : Writer) : Writer :=
  match before with
  | none => xdrwBool false w
  | some st => w |> xdrwBool true |> putWccAttr st

def putWcc (exports : List Export) (exp : Nat) (before after : Option Stat) (w : Writer) : Writer :=
  w |> putBefore before |> putPostAttr exports exp after

def putWccNone (w : Writer) : Writer := w |> xdrwBool false |> xdrwBool false

/-- `put_wcc_fail`, and `put_dir_wcc_fail`, which is the same. -/
def putWccFail (before : Option Stat) (w : Writer) : Writer :=
  w |> putBefore before |> xdrwBool false

def failPost (s : Status) (w : Writer) : Writer := w |> putStatus s |> xdrwBool false

def failWcc (s : Status) (w : Writer) : Writer := w |> putStatus s |> putWccNone

def putDirWcc (exports : List Export) (exp : Nat) (dir : Path) (before : Option Stat)
    (w : Writer) : Nfs Writer := do
  let after ← Call.stat dir
  return putWcc exports exp before after.toOption w

def putPostFh (fh : Option FhBytes) (w : Writer) : Writer :=
  match fh with
  | none => xdrwBool false w
  | some fh => w |> xdrwBool true |> putFh fh

def putVerf (w : Writer) : Nfs Writer := do
  let v ← Call.verf
  return w |> xdrwU32 v.1 |> xdrwU32 v.2

structure Sattr where
  mode : Option Nat
  uid : Option Nat
  gid : Option Nat
  size : Option Nat
  atimeKind : Nat
  atimeSec : Nat
  mtimeKind : Nat
  mtimeSec : Nat
  deriving DecidableEq, Repr

def getIf (get : Args → Option (Nat × Args)) (c : Args) : Option (Option Nat × Args) :=
  (getBool c).bind fun has =>
    if has.1 then (get has.2).map fun v => (some v.1, v.2) else some (none, has.2)

/-- `set_time`: leave it, the server's clock, or the time that follows. -/
def getSetTime (c : Args) : Option ((Nat × Nat) × Args) :=
  (getU32 c).bind fun kind =>
    if kind.1 = 2 then
      (getU32 kind.2).bind fun sec => (getU32 sec.2).map fun nsec => ((2, sec.1), nsec.2)
    else some ((kind.1, 0), kind.2)

def getSattr (c : Args) : Option (Sattr × Args) := do
  let (mode, c) ← getIf getU32 c
  let (uid, c) ← getIf getU32 c
  let (gid, c) ← getIf getU32 c
  let (size, c) ← getIf getU64 c
  let (atime, c) ← getSetTime c
  let (mtime, c) ← getSetTime c
  return (⟨mode.map (· &&& 0o7777), uid.map (· % 2 ^ 16), gid.map (· % 2 ^ 16),
    size, atime.1, atime.2, mtime.1,
    mtime.2⟩, c)

end Wire

section Procedures

variable (exports : List Export)

def mayWrite (r : Resolved) : Bool := !r.rule.ro

def procGetattr (c : Args) (w : Writer) : Nfs Writer :=
  match getFh c with
  | none => return xdrwAccept .garbageArgs w
  | some (fh, _) => do
    let w := xdrwAccept .success w
    match ← Call.resolve fh with
    | none => return putStatus .badhandle w
    | some r =>
      match ← Call.stat r.path with
      | .error e => return putStatus (nfserr e) w
      | .ok st => return w |> putStatus .ok |> putFattr exports r.exp st

def nameArgs (c : Args) : Option ((Handle × Path) × Args) :=
  (getFh c).bind fun fh => (getString nameCap fh.2).map fun name => ((fh.1, name.1), name.2)

def procLookup (c : Args) (w : Writer) : Nfs Writer :=
  match nameArgs c with
  | none => return xdrwAccept .garbageArgs w
  | some ((fh, name), _) => do
    let w := xdrwAccept .success w
    match ← Call.resolve fh with
    | none => return failPost .badhandle w
    | some r =>
      if !nameOk name then return failPost .badhandle w
      else
        match joinPath r.path name with
        | none => return failPost .nametoolong w
        | some path =>
          match ← Call.stat path with
          | .error e =>
            let dst ← Call.stat r.path
            return w |> putStatus (nfserr e) |> putPostAttr exports r.exp dst.toOption
          | .ok st =>
            match ← Call.make r.exp path with
            | none => return putStatus .serverfault w
            | some child =>
              let dst ← Call.stat r.path
              return w |> putStatus .ok |> putFh child |> putPostAttr exports r.exp (some st)
                |> putPostAttr exports r.exp dst.toOption

def granted (asked : Nat) (st : Stat) (writable : Bool) : Nat :=
  let got := asked &&& 0x3
  let got := if writable && st.mode &&& 0o200 != 0 then got ||| (asked &&& 0x1C) else got
  let got := if writable && st.mode &&& 0o100 != 0 then got ||| (asked &&& 0x20) else got
  if isDir st.mode then got ||| (asked &&& 0x3) else got

def procAccess (c : Args) (w : Writer) : Nfs Writer :=
  match (getFh c).bind fun fh => (getU32 fh.2).map fun asked => (fh.1, asked.1) with
  | none => return xdrwAccept .garbageArgs w
  | some (fh, asked) => do
    let w := xdrwAccept .success w
    match ← Call.resolve fh with
    | none => return failPost .badhandle w
    | some r =>
      match ← Call.stat r.path with
      | .error e => return failPost (nfserr e) w
      | .ok st =>
        return w |> putStatus .ok |> putPostAttr exports r.exp (some st) |>
          xdrwU32 (granted asked st (mayWrite r))

def procReadlink (c : Args) (w : Writer) : Nfs Writer :=
  match getFh c with
  | none => return xdrwAccept .garbageArgs w
  | some (fh, _) => do
    let w := xdrwAccept .success w
    match ← Call.resolve fh with
    | none => return failPost .badhandle w
    | some r =>
      match ← Call.stat r.path with
      | .error e => return failPost (nfserr e) w
      | .ok st => return w |> putStatus .inval |> putPostAttr exports r.exp (some st)

def seek (off : Nat) : Nfs Bool := if off = 0 then return true else Call.lseek off

def procRead (iocap : Nat) (c : Args) (w : Writer) : Nfs Writer :=
  match (getFh c).bind fun fh => (getU64 fh.2).bind fun off => (getU32 off.2).map fun want =>
  (fh.1, off.1, want.1) with
  | none => return xdrwAccept .garbageArgs w
  | some (fh, off, want) => do
    let w := xdrwAccept .success w
    match ← Call.resolve fh with
    | none => return failPost .badhandle w
    | some r =>
      match ← Call.open r.path .readOnly with
      | .error e => return failPost (nfserr e) w
      | .ok _ =>
        if ← seek off then
          let room := min want iocap
          let got ← Call.read room
          let st ← Call.fstat
          let _ ← Call.close
          match got with
          | .error e => return w |> putStatus (nfserr e) |> putPostAttr exports r.exp st
          | .ok data =>
            let data := data.take room
            return w |> putStatus .ok |> putPostAttr exports r.exp st |> xdrwU32 data.length
              |> xdrwBool (decide (data.length < want)) |> xdrwU32 data.length |> xdrwOpaque data
        else
          let _ ← Call.close
          return failPost .inval w

def entryStat (owner : Nat × Nat) (ei : EntryInfo) : Stat where
  mode := if ei.attr &&& 0x10 ≠ 0 then 0o040777 else 0o100777
  nlink := 0
  uid := owner.1
  gid := owner.2
  size := ei.size
  atime := 0
  mtime := ei.mtime
  ino := 0
  clock := ei.clock

def entryCost (plus : Bool) (name : Path) : Nat :=
  if plus then 200 + (name.length + 4) else 28 + (name.length + 4)

def putEntry (de : DirEntry) (seen : Nat) (w : Writer) : Writer :=
  w |> xdrwBool true |> xdrwU64 (if de.ino ≠ 0 then de.ino else seen) |> xdrwString de.name |>
  xdrwU64 seen

def readdirWalk (plus : Bool) (maxcount replyAt cookie : Nat) (r : Resolved) (owner : Nat × Nat) :
    List DirEntry → Nat → Bool → Writer → Nfs (Writer × Bool)
  | [], _, _, w => return (w, true)
  | de :: rest, before, wrote, w =>
    let seen := before + 1
    if seen ≤ cookie then readdirWalk plus maxcount replyAt cookie r owner rest seen wrote w
    else if wrote && decide (maxcount < (w.buf.length - replyAt) + entryCost plus de.name + 16) then
      return (w, false)
    else do
      let w := putEntry de seen w
      if plus then
        let w := putPostAttr exports r.exp (de.info.map (entryStat owner)) w
        let fh ← Call.make r.exp (childPath r.path de.name)
        readdirWalk plus maxcount replyAt cookie r owner rest seen true (putPostFh fh w)
      else readdirWalk plus maxcount replyAt cookie r owner rest seen true w

def readdirArgs (plus : Bool) (c : Args) : Option (Handle × Nat × Nat) :=
  (getFh c).bind fun fh => (getU64 fh.2).bind fun cookie => (getU64 cookie.2).bind fun verf =>
    if plus then (getU32 verf.2).bind fun dircount => (getU32 dircount.2).map fun most =>
      (fh.1, cookie.1, most.1)
    else (getU32 verf.2).map fun most => (fh.1, cookie.1, most.1)

/-- The count the walk goes by: only READDIRPLUS keeps it within the buffer. -/
def maxcountFor (plus : Bool) (most : Nat) : Nat :=
  if plus && (most == 0 || decide (nfsdBufcap - 512 < most)) then nfsdBufcap - 512 else most

def procReaddir (plus : Bool) (c : Args) (w : Writer) : Nfs Writer :=
  match readdirArgs plus c with
  | none => return xdrwAccept .garbageArgs w
  | some (fh, cookie, most) => do
    let w := xdrwAccept .success w
    match ← Call.resolve fh with
    | none => return failPost .badhandle w
    | some r =>
      match ← Call.opendir r.path with
      | .error e => return failPost (nfserr e) w
      | .ok listing =>
        let dst ← Call.stat r.path
        let w :=
          w |> putStatus .ok |> putPostAttr exports r.exp dst.toOption |> xdrwU32 0 |> xdrwU32 0
        let owner ← Call.mountOwner r.path
        let (w, eof) ← readdirWalk exports plus
          (maxcountFor plus most) w.buf.length cookie r owner listing 0 false w
        return w |> xdrwBool false |> xdrwBool eof

def procFsstat (c : Args) (w : Writer) : Nfs Writer :=
  match getFh c with
  | none => return xdrwAccept .garbageArgs w
  | some (fh, _) => do
    let w := xdrwAccept .success w
    match ← Call.resolve fh with
    | none => return failPost .badhandle w
    | some r =>
      let space ← Call.space r.path
      let st ← Call.stat r.path
      return w |> putStatus .ok |> putPostAttr exports r.exp st.toOption |> xdrwU64 space.1 |>
        xdrwU64 space.2
        |> xdrwU64 space.2 |> xdrwU64 0 |> xdrwU64 0 |> xdrwU64 0 |> xdrwU32 0

def procFsinfo (iocap : Nat) (c : Args) (w : Writer) : Nfs Writer :=
  match getFh c with
  | none => return xdrwAccept .garbageArgs w
  | some (fh, _) => do
    let w := xdrwAccept .success w
    match ← Call.resolve fh with
    | none => return failPost .badhandle w
    | some _ =>
      return w |> putStatus .ok |> xdrwBool false |> xdrwU32 iocap |> xdrwU32 iocap |>
        xdrwU32 4096 |> xdrwU32 iocap
        |> xdrwU32 iocap |> xdrwU32 4096 |> xdrwU32 4096 |> xdrwU64 0x7FFFFFFF |>
            xdrwU32 1 |> xdrwU32 0
        |> xdrwU32 0xB

def procPathconf (c : Args) (w : Writer) : Nfs Writer :=
  match getFh c with
  | none => return xdrwAccept .garbageArgs w
  | some (fh, _) => do
    let w := xdrwAccept .success w
    match ← Call.resolve fh with
    | none => return failPost .badhandle w
    | some r =>
      match ← Call.stat r.path with
      | .error e => return failPost (nfserr e) w
      | .ok _ =>
        return w |> putStatus .ok |> xdrwBool false |> xdrwU32 32000 |> xdrwU32 255 |>
          xdrwBool false
          |> xdrwBool true |> xdrwBool false |> xdrwBool true

def applySize (path : Path) (size : Nat) : Nfs (Option Errno) := do
  match ← Call.truncate path size with
  | .ok _ => return none
  | .error e => return some e

def applySattr (path : Path) (a : Sattr) : Nfs (Option Errno) := do
  let sized ← a.size.elim (return none) (applySize path)
  let _ ← a.mode.elim (return ()) (Call.chmod path)
  let _ ← (if a.uid.isSome || a.gid.isSome then
    Call.chown path a.uid a.gid else return () : Nfs Unit)
  if a.atimeKind = 2 ∨ a.mtimeKind = 2 then
    match ← Call.stat path with
    | .error _ => return sized
    | .ok st =>
      let atime := if a.atimeKind = 2 then a.atimeSec else st.atime
      let mtime := if a.mtimeKind = 2 then a.mtimeSec else st.mtime
      match ← Call.utime path atime mtime with
      | .ok _ => return sized
      | .error e => return some e
  else return sized

def setattrArgs (c : Args) : Option (Handle × Sattr × Option Nat) := do
  let (fh, c) ← getFh c
  let (attr, c) ← getSattr c
  let (guarded, c) ← getBool c
  if guarded then
    let (sec, c) ← getU32 c
    let _ ← getU32 c
    return (fh, attr, some sec)
  else return (fh, attr, none)

def procSetattr (c : Args) (w : Writer) : Nfs Writer :=
  match setattrArgs c with
  | none => return xdrwAccept .garbageArgs w
  | some (fh, attr, guard) => do
    let w := xdrwAccept .success w
    match ← Call.resolve fh with
    | none => return failWcc .badhandle w
    | some r =>
      let before ← Call.stat r.path
      if !mayWrite r then return w |> putStatus .rofs |> putWccFail before.toOption
      else
        match before with
        | .error e => return w |> putStatus (nfserr e) |> putWccFail none
        | .ok before =>
          if guard.any (· != before.mtime % 2 ^ 32) then
            return w |> putStatus .notSync |> putWccFail (some before)
          else
            match ← applySattr r.path attr with
            | some e => return w |> putStatus (nfserr e) |> putWccFail (some before)
            | none =>
              let after ← Call.stat r.path
              return w |> putStatus .ok |> putWcc exports r.exp (some before) after.toOption

/-- The loop of `proc_write`: how much was written, and the error that stopped it. Every turn but
the last writes something, so `left` turns are enough for `left` bytes. -/
def writeAll (start : Nat) : Nat → Nat → Nat → Nfs (Nat × Option Errno)
  | 0, done, _ => return (done, none)
  | turns + 1, done, left =>
    if left = 0 then return (done, none)
    else do
      match ← Call.write (start + done) left with
      | .error e => return (done, some (orIo e))
      | .ok n =>
        let wrote := min (n + 1) left
        writeAll start turns (done + wrote) (left - wrote)

def writeArgs (c : Args) : Option (Handle × Nat × Nat × Nat × Nat) := do
  let (fh, c) ← getFh c
  let (off, c) ← getU64 c
  let (count, c) ← getU32 c
  let (stable, c) ← getU32 c
  let (dlen, c) ← getU32 c
  -- `c->pos + dlen` is a `size_t` of 32 bits
  if count < dlen ∨ c.buf.length < (c.pos + dlen) % 2 ^ 32 then none
  else return (fh, off, stable, c.pos, dlen)

def settle (stable : Nat) (stopped : Option Errno) : Nfs (Option Errno) := do
  if stopped.isNone && stable != 0 then
    match ← Call.fsync with
    | .ok _ => return none
    | .error e => return some (orIo e)
  else return stopped

def procWrite (c : Args) (w : Writer) : Nfs Writer :=
  match writeArgs c with
  | none => return xdrwAccept .garbageArgs w
  | some (fh, off, stable, start, dlen) => do
    let w := xdrwAccept .success w
    match ← Call.resolve fh with
    | none => return failWcc .badhandle w
    | some r =>
      if !mayWrite r then return failWcc .rofs w
      else
        match ← Call.open r.path .writeOnly with
        | .error e => return failWcc (nfserr e) w
        | .ok _ =>
          let before ← Call.fstat
          if ← seek off then
            let (done, stopped) ← writeAll start dlen 0 dlen
            let err ← settle stable stopped
            let after ← Call.fstat
            let _ ← Call.close
            match err with
            | some e => return w |> putStatus (nfserr e) |> putWccFail before
            | none =>
              w |> putStatus .ok |> putWcc exports r.exp before after |> xdrwU32 done
                |> xdrwU32 (if stable = 0 then 0 else 2) |> putVerf
          else
            let _ ← Call.close
            return w |> putStatus .inval |> putWccFail before

/-- How CREATE, MKDIR, REMOVE and RMDIR come to their entry: the directory, a name that is one
component, a path that fits, and the right to write. -/
def atEntry (fh : Handle) (name : Path) (w : Writer) (work : Resolved → Path → Nfs Writer) :
    Nfs Writer := do
  match ← Call.resolve fh with
  | none => return failWcc .badhandle w
  | some r =>
    if !nameOk name then return failWcc .badhandle w
    else
      match joinPath r.path name with
      | none => return failWcc .nametoolong w
      | some path => if !mayWrite r then return failWcc .rofs w else work r path

def putMade (r : Resolved) (path : Path) (before : Option Stat) (w : Writer) : Nfs Writer := do
  let st ← Call.stat path
  let fh ← Call.make r.exp path
  w |> putStatus .ok |> putPostFh fh |> putPostAttr exports r.exp st.toOption
    |> putDirWcc exports r.exp r.path before

def createArgs (c : Args) : Option (Handle × Path × Nat × Option Sattr) := do
  let ((fh, name), c) ← nameArgs c
  let (how, c) ← getU32 c
  if how = 2 then
    let _ ← getOpaque 8 c
    return (fh, name, how, none)
  else
    let (attr, _) ← getSattr c
    return (fh, name, how, some attr)

def procCreate (c : Args) (w : Writer) : Nfs Writer :=
  match createArgs c with
  | none => return xdrwAccept .garbageArgs w
  | some (fh, name, how, attr) =>
    let w := xdrwAccept .success w
    atEntry fh name w fun r path => do
      let before ← Call.stat r.path
      match ← Call.open path (.create (how == 0)) with
      | .error e => return w |> putStatus (nfserr e) |> putWccFail before.toOption
      | .ok _ =>
        let _ ← Call.close
        let _ ← attr.elim (return none) (applySattr path)
        putMade exports r path before.toOption w

def mkdirArgs (c : Args) : Option (Handle × Path × Sattr) :=
  (nameArgs c).bind fun found => (getSattr found.2).map fun attr => (found.1.1, found.1.2, attr.1)

def procMkdir (c : Args) (w : Writer) : Nfs Writer :=
  match mkdirArgs c with
  | none => return xdrwAccept .garbageArgs w
  | some (fh, name, attr) =>
    let w := xdrwAccept .success w
    atEntry fh name w fun r path => do
      let before ← Call.stat r.path
      match ← Call.mkdir path (attr.mode.getD 0o755) with
      | .error e => return w |> putStatus (nfserr e) |> putWccFail before.toOption
      | .ok _ =>
        let more := attr.uid.isSome || attr.gid.isSome || attr.atimeKind == 2 || attr.mtimeKind == 2
        let _ ← (if more then applySattr path attr else return none : Nfs (Option Errno))
        putMade exports r path before.toOption w

def dirIsEmpty (path : Path) : Nfs Bool := do
  match ← Call.opendir path with
  | .error _ => return false
  | .ok listing => return listing.all fun de => de.name == ['.'] || de.name == ['.', '.']

def emptied (directory : Bool) (path : Path) : Nfs Bool :=
  if directory then dirIsEmpty path else return true

def takeAway (directory : Bool) (path : Path) : Nfs (Except Errno Unit) :=
  if directory then Call.rmdir path else Call.unlink path

def procRemove (directory : Bool) (c : Args) (w : Writer) : Nfs Writer :=
  match nameArgs c with
  | none => return xdrwAccept .garbageArgs w
  | some ((fh, name), _) =>
    let w := xdrwAccept .success w
    atEntry fh name w fun r path => do
      let before ← Call.stat r.path
      let empty ← emptied directory path
      if !empty then return w |> putStatus .notempty |> putWccFail before.toOption
      else
        let removed ← takeAway directory path
        match removed with
        | .error e => return w |> putStatus (nfserr e) |> putWccFail before.toOption
        | .ok _ => w |> putStatus .ok |> putDirWcc exports r.exp r.path before.toOption

def renameArgs (c : Args) : Option ((Handle × Path) × Handle × Path) :=
  (nameArgs c).bind fun old => (nameArgs old.2).map fun new => (old.1, new.1)

def failWccTwice (s : Status) (w : Writer) : Writer := w |> putStatus s |> putWccNone |> putWccNone

def procRename (c : Args) (w : Writer) : Nfs Writer :=
  match renameArgs c with
  | none => return xdrwAccept .garbageArgs w
  | some ((ffh, fname), (tfh, tname)) => do
    let w := xdrwAccept .success w
    match ← Call.resolve ffh with
    | none => return failWccTwice .badhandle w
    | some f =>
      match ← Call.resolve tfh with
      | none => return failWccTwice .badhandle w
      | some t =>
        if !nameOk fname || !nameOk tname then return failWccTwice .badhandle w
        else
          match joinPath f.path fname, joinPath t.path tname with
          | some fpath, some tpath =>
            if !mayWrite f || !mayWrite t then return failWccTwice .rofs w
            else
              let fbefore ← Call.stat f.path
              let tbefore ← Call.stat t.path
              match ← Call.rename fpath tpath with
              | .error e =>
                return w |> putStatus (nfserr e) |> putWccFail fbefore.toOption |>
                  putWccFail tbefore.toOption
              | .ok _ =>
                let w ← w |> putStatus .ok |> putDirWcc exports f.exp f.path fbefore.toOption
                putDirWcc exports t.exp t.path tbefore.toOption w
          | _, _ => return failWccTwice .nametoolong w

def procCommit (c : Args) (w : Writer) : Nfs Writer :=
  match (getFh c).bind fun fh => (getU64 fh.2).bind fun off => (getU32 off.2).map fun _ => fh.1 with
  | none => return xdrwAccept .garbageArgs w
  | some fh => do
    let w := xdrwAccept .success w
    match ← Call.resolve fh with
    | none => return failWcc .badhandle w
    | some r =>
      if !mayWrite r then return failWcc .rofs w
      else
        match ← Call.open r.path .readWrite with
        | .error e => return failWcc (nfserr e) w
        | .ok _ =>
          let before ← Call.fstat
          let synced ← Call.fsync
          let after ← Call.fstat
          let _ ← Call.close
          match synced with
          | .error e => return w |> putStatus (nfserr (orIo e)) |> putWccFail before
          | .ok _ => w |> putStatus .ok |> putWcc exports r.exp before after |> putVerf

/-- The directory of SYMLINK, MKNOD and LINK. LINK sends the handle of the file first. -/
def notsuppArgs (link : Bool) (c : Args) : Option Handle := do
  let (fh, c) ← getFh c
  let (fh, c) ← if link then getFh c else some (fh, c)
  let _ ← getString nameCap c
  return fh

def procNotsupp (link : Bool) (c : Args) (w : Writer) : Nfs Writer :=
  match notsuppArgs link c with
  | none => return xdrwAccept .garbageArgs w
  | some fh => do
    let w := xdrwAccept .success w
    match ← Call.resolve fh with
    | none => return (if link then failPost .badhandle w else putStatus .badhandle w) |> putWccNone
    | some r =>
      (if link then failPost .notsupp w else putStatus .notsupp w) |>
        putDirWcc exports r.exp r.path none

def nfs3Handle (iocap proc : Nat) (c : Args) (w : Writer) : Nfs Writer :=
  match proc with
  | 0 => return xdrwAccept .success w
  | 1 => procGetattr exports c w
  | 2 => procSetattr exports c w
  | 3 => procLookup exports c w
  | 4 => procAccess exports c w
  | 5 => procReadlink exports c w
  | 6 => procRead exports iocap c w
  | 7 => procWrite exports c w
  | 8 => procCreate exports c w
  | 9 => procMkdir exports c w
  | 10 => procNotsupp exports false c w
  | 11 => procNotsupp exports false c w
  | 12 => procRemove exports false c w
  | 13 => procRemove exports true c w
  | 14 => procRename exports c w
  | 15 => procNotsupp exports true c w
  | 16 => procReaddir exports false c w
  | 17 => procReaddir exports true c w
  | 18 => procFsstat exports c w
  | 19 => procFsinfo iocap c w
  | 20 => procPathconf c w
  | 21 => procCommit exports c w
  | _ => return xdrwAccept .procUnavail w

end Procedures

section Walk

variable {exports : List Export} {plus : Bool} {maxcount replyAt cookie : Nat}
    {r : Resolved} {owner : Nat × Nat}

/-- What every way to go on from an entry keeps holds of the whole walk. -/
theorem walk_rule {P : List DirEntry → Nat → Bool → Writer → Trace Answer → Writer × Bool → Prop}
    (ended : ∀ before wrote w, P [] before wrote w [] (w, true))
    (skipped : ∀ de rest before wrote w trace out, before + 1 ≤ cookie →
      P rest (before + 1) wrote w trace out →
      P (de :: rest) before wrote w trace out) (stopped : ∀ de rest before w, cookie < before + 1 →
      maxcount < (w.buf.length - replyAt) + entryCost plus de.name + 16 →
      P (de :: rest) before true w [] (w, false))
    (plain : ∀ de rest before wrote w trace out, plus = false → cookie < before + 1 →
      ¬(wrote = true ∧ maxcount < (w.buf.length - replyAt) + entryCost plus de.name + 16) →
      P rest (before + 1) true (putEntry de (before + 1) w) trace out →
      P (de :: rest) before wrote w trace out)
    (handled : ∀ de rest before wrote w fh trace out, plus = true → cookie < before + 1 →
      ¬(wrote = true ∧ maxcount < (w.buf.length - replyAt) + entryCost plus de.name + 16) →
      P rest (before + 1) true
        (putPostFh fh (putPostAttr exports r.exp (de.info.map (entryStat owner))
          (putEntry de (before + 1) w)))
        trace out →
      P (de :: rest) before wrote w (⟨.make r.exp (childPath r.path de.name), fh⟩ :: trace) out)
    (listing : List DirEntry) (before : Nat) (wrote : Bool) (w : Writer) :
    Always (readdirWalk exports plus maxcount replyAt cookie r owner listing before wrote w)
      (P listing before wrote w) := by
  induction listing generalizing before wrote w with
  | nil => exact ended before wrote w
  | cons de rest ih =>
    unfold readdirWalk
    dsimp only
    split
    · rename_i sent
      exact (ih (before + 1) wrote w).imp fun trace out =>
        skipped de rest before wrote w trace out sent
    · rename_i fresh
      split
      · rename_i full
        simp only [Bool.and_eq_true, decide_eq_true_eq] at full
        obtain ⟨rfl, full⟩ := full
        exact stopped de rest before w (Nat.not_le.mp fresh) full
      · rename_i room
        simp only [Bool.and_eq_true, decide_eq_true_eq] at room
        split
        · rename_i form
          exact fun fh => (ih (before + 1) true _).imp fun trace out =>
            handled de rest before wrote w fh trace out form (Nat.not_le.mp fresh) room
        · rename_i form
          exact (ih (before + 1) true _).imp fun trace out =>
            plain de rest before wrote w trace out (Bool.eq_false_of_not_eq_true form)
              (Nat.not_le.mp fresh) room

end Walk

theorem asks_sattr {allowed : Question → Prop} {path : Path}
    (truncate : ∀ size, allowed (.truncate path size))
    (chmod : ∀ mode, allowed (.chmod path mode)) (chown : ∀ uid gid, allowed (.chown path uid gid))
    (stat : allowed (.stat path)) (utime : ∀ atime mtime, allowed (.utime path atime mtime))
    (a : Sattr) :
    Asks allowed (applySattr path a) := by
  refine Asks.bind ?_ fun sized => Asks.bind ?_ fun _ => Asks.bind ?_ fun _ => ?_
  · cases a.size with
    | none => exact asks_pure _
    | some size =>
      refine asks_then (truncate size) fun cut => ?_
      cases cut <;> exact asks_pure _
  · cases a.mode with
    | none => exact asks_pure _
    | some mode => exact asks_ask (chmod mode)
  · split
    · exact asks_ask (chown _ _)
    · exact asks_pure _
  · split
    · refine asks_then stat fun found => ?_
      cases found with
      | error e => exact asks_pure _
      | ok st =>
        refine asks_then (utime _ _) fun changed => ?_
        cases changed <;> exact asks_pure _
    · exact asks_pure _

end Espix.Nfsd.Nfs3
