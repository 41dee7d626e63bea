import Espix.Smbd.Server

/-! The SMB server's request handlers: the `h_` functions of `components/espix_smbd/smbd.c`.

Times, sizes and attributes in replies are left out, and so is what a pipe says. The
stat cache is part of the file system below: a look into it counts as a call. -/

namespace Espix.Smbd.Handlers

open Lib.CText Server

/-- The connection over a file system, and the calls made so far. -/
structure World (S : Type) where
  fs : S
  conn : Conn
  calls : List Call

abbrev ServerM (S : Type) := StateM (World S)

inductive Status
  | unset
  | objectNameNotFound | accessDenied | objectNameCollision | notADirectory | fileIsADirectory
  | diskFull | directoryNotEmpty | sharingViolation | invalidParameter | objectNameInvalid
  | tooManyOpenedFiles | notImplemented | badNetworkName | insufficientResources | fileClosed
  | invalidDeviceRequest | endOfFile | notSupported | invalidInfoClass | noSuchFile
  deriving DecidableEq, Repr

def statusOfErrno : Errno → Status
  | .noent => .objectNameNotFound
  | .acces | .perm => .accessDenied
  | .exist => .objectNameCollision
  | .notdir => .notADirectory
  | .isdir => .fileIsADirectory
  | .nospc => .diskFull
  | .notempty => .directoryNotEmpty
  | .busy => .sharingViolation
  | .inval => .invalidParameter
  | .nametoolong => .objectNameInvalid
  | .mfile | .nfile => .tooManyOpenedFiles
  | .other _ => .notImplemented

inductive Reply
  | done
  | fail (status : Status)
  | created (id : UInt64) (action : Nat)
  | data (bytes : List UInt8)
  | count (n : Nat)
  | entries (found : List (UInt32 × List Char))
  | pipe
  deriving DecidableEq, Repr

section Calls

variable {S A : Type} (v : Vfs S)

def call (c : Call) (f : S → S × A) : ServerM S A :=
  modifyGet fun w => ((f w.fs).2, { w with fs := (f w.fs).1, calls := w.calls ++ [c] })

def callFd (f : S → S × A) : ServerM S A :=
  modifyGet fun w => ((f w.fs).2, { w with fs := (f w.fs).1 })

def cachedStat (path : Path) : ServerM S (Except Errno Kind) :=
  call (.stat path) fun s => v.stat s path

def openFile (path : Path) (flags : Flags) : ServerM S (Except Errno Nat) :=
  call (.openFile path) fun s => v.openFile s path flags

def opendir (path : Path) : ServerM S (Except Errno (List (List Char))) :=
  call (.opendir path) fun s => v.opendir s path

def mkdir (path : Path) : ServerM S (Option Errno) := call (.mkdir path) fun s => v.mkdir s path

def rename (old new : Path) : ServerM S (Option Errno) :=
  call (.rename old new) fun s => v.rename s old new

def unlink (path : Path) : ServerM S (Option Errno) := call (.unlink path) fun s => v.unlink s path

def rmdir (path : Path) : ServerM S (Option Errno) := call (.rmdir path) fun s => v.rmdir s path

def utime (path : Path) : ServerM S (Option Errno) := call (.utime path) fun s => v.utime s path

def close (fd : Nat) : ServerM S Unit := callFd fun s => (v.close s fd, ())

def getSlot (i : Nat) : ServerM S Slot := do return (← get).conn.slot i

def setConn (conn : Conn) : ServerM S Unit := modify fun w => { w with conn := conn }

def modifySlot (i : Nat) (f : Slot → Slot) : ServerM S Unit :=
  modify fun w => { w with conn := w.conn.update i f }

theorem call_run (c : Call) (f : S → S × A) (w : World S) :
    (call c f).run w = pure ((f w.fs).2, { w with fs := (f w.fs).1, calls := w.calls ++ [c] }) :=
  rfl

theorem modifySlot_run (i : Nat) (f : Slot → Slot) (w : World S) :
    (modifySlot i f).run w = pure ((), { w with conn := w.conn.update i f }) := rfl

end Calls

/-- `s_path`, `s_share`, the length of the reply scratch and the stride of its entries. -/
structure Config where
  root : Path
  share : List Char
  scratch : Nat
  stride : Nat

inductive Disposition
  | fileSupersede | fileOpen | fileCreate | fileOpenIf | fileOverwrite | fileOverwriteIf | other
  deriving DecidableEq, Repr

structure CreateRequest where
  tree : UInt32
  name : List Char
  disposition : Disposition
  directoryFile : Bool
  nonDirectoryFile : Bool
  /-- `desired_access` has `WRITE_DATA`, `APPEND_DATA` or `DELETE`. -/
  writes : Bool

inductive InfoClass
  | endOfFile | allocation | basic | disposition | rename | other
  deriving DecidableEq, Repr

structure SetInfoRequest where
  id : FileId
  infoFile : Bool
  infoClass : InfoClass
  input : List UInt8

structure QueryDirectoryRequest where
  id : FileId
  /-- `dir_class_fixed` of the information class. -/
  fixed : Nat
  restart : Bool
  single : Bool
  fileIndex : Nat
  pattern : List Char
  outputLen : Nat

inductive Request
  | treeConnect (tree : UInt32) (name : List Char)
  | treeDisconnect (tree : UInt32)
  | create (request : CreateRequest) (pipeRoom : Bool)
  | close (id : FileId)
  | read (id : FileId) (offset length : Nat)
  | write (id : FileId) (offset : Nat) (bytes : List UInt8)
  | queryDirectory (request : QueryDirectoryRequest)
  | queryInfo (id : FileId)
  | setInfo (request : SetInfoRequest)
  | destruction

def lowerAscii (c : Char) : Char := if 'A' ≤ c ∧ c ≤ 'Z' then Char.ofNat (c.toNat + 32) else c

def sameName (a b : List Char) : Bool := a.map lowerAscii = b.map lowerAscii

def openFlags (disposition : Disposition) (writes : Bool) : Flags :=
  match disposition with
  | .fileCreate => ⟨true, true, false, writes⟩
  | .fileOpenIf => ⟨true, false, false, writes⟩
  | .fileOverwrite => ⟨false, false, true, writes⟩
  | .fileOverwriteIf => ⟨true, false, true, writes⟩
  | .fileSupersede => ⟨true, false, true, writes⟩
  | .fileOpen | .other => ⟨false, false, false, writes⟩

section Handlers

variable {S : Type} (v : Vfs S) (cfg : Config)

def closeDescriptor (o : Slot) : ServerM S Unit :=
  match o.fd with
  | some fd => close v fd
  | none => pure ()

def deleteClosed (o : Slot) : ServerM S (Option Errno) :=
  if o.deleteOnClose ∧ o.path ≠ [] then
    if o.isDir then rmdir v o.path else unlink v o.path
  else pure none

def clearedSlot (o : Slot) : Slot :=
  { o with
    used := false, isDir := false, dir := none, fd := none, havePending := false, pending := []
    pipe := none }

def openClear (i : Nat) : ServerM S Unit := do
  let o ← getSlot i
  closeDescriptor v o
  let _ ← deleteClosed v o
  modifySlot i clearedSlot

def connFree : ServerM S Unit :=
  (List.range maxOpen).forM fun i => do
    let o ← getSlot i
    if o.used then openClear v i else pure ()

def hTreeConnect (tree : UInt32) (name : List Char) : ServerM S Reply := do
  let ipc := sameName name "IPC$".toList
  if !ipc && !sameName name cfg.share then return .fail .badNetworkName
  else
    match treeAdd (← get).conn tree ipc with
    | none => return .fail .insufficientResources
    | some conn => do
      setConn conn
      return .done

def createFailed (i : Nat) (e : Errno) : ServerM S Reply := do
  openClear v i
  return .fail (statusOfErrno e)

/-- "srvsvc", "\srvsvc" and "\PIPE\srvsvc" all name the same pipe. -/
def pipeKind (name : List Char) : Option PipeKind :=
  let name := name.dropWhile (· = '\\')
  let name := if sameName (name.take 5) "PIPE\\".toList then name.drop 5 else name
  if sameName name "srvsvc".toList then some .srvsvc
  else if sameName name "wkssvc".toList then some .wkssvc
  else none

def createPipe (name : List Char) (room : Bool) : ServerM S Reply := do
  match pipeKind name with
  | none => return .fail .objectNameNotFound
  | some kind =>
    match openAlloc (← get).conn with
    | none => return .fail .tooManyOpenedFiles
    | some (i, conn) =>
      if room then
        setConn (conn.update i fun o => { o with pipe := some kind })
        return .created conn.lastId 1
      else
        -- the slot is taken and given back: it has no path, no descriptor and no pipe
        setConn (conn.update i fun o => { o with used := false })
        return .fail .insufficientResources

/-- `opendir`, and where that fails and the disposition lets it, `mkdir` before another one. -/
def openOrMakeDir (disposition : Disposition) (path : Path) :
    ServerM S (Except Errno (List (List Char))) := do
  match ← opendir v path with
  | .ok names => return .ok names
  | .error e =>
    if disposition = .fileCreate ∨ disposition = .fileOpenIf ∨ disposition = .fileOverwriteIf then
      match ← mkdir v path with
      | none => opendir v path
      | some e => return .error e
    else return .error e

def createDir (disposition : Disposition) (found : Bool) (i : Nat) (o : Slot) : ServerM S Reply :=
  do
  match ← openOrMakeDir v disposition o.path with
  | .error e => createFailed v i e
  | .ok names => do
    modifySlot i fun _ => { o with isDir := true, dir := some ⟨names, names⟩ }
    let _ ← cachedStat v o.path
    return .created o.id (if found ∨ disposition ≠ .fileCreate then 1 else 2)

def createFile (disposition : Disposition) (writes : Bool) (i : Nat) (o : Slot) : ServerM S Reply :=
  do
  let flags := openFlags disposition writes
  match ← openFile v o.path flags with
  | .error e => createFailed v i e
  | .ok fd => do
    modifySlot i fun _ => { o with fd := some fd, flags := flags }
    let _ ← cachedStat v o.path
    return .created o.id (if disposition = .fileCreate then 2 else 1)

def hCreate (req : CreateRequest) (pipeRoom : Bool) : ServerM S Reply := do
  if treeIsIpc (← get).conn req.tree ∧ req.name ≠ [] then createPipe req.name pipeRoom
  else
    match resolvePath cfg.root req.name pathMax with
    | none => return .fail .objectNameInvalid
    | some path => do
      let st ← cachedStat v path
      if st = .ok .dir ∧ req.nonDirectoryFile then return .fail .fileIsADirectory
      else
        match openAlloc (← get).conn with
        | none => return .fail .tooManyOpenedFiles
        | some (i, conn) => do
          let o := { conn.slot i with path := path }
          setConn (conn.update i fun _ => o)
          if req.directoryFile ∨ st = .ok .dir then createDir v req.disposition st.isOk i o
          else createFile v req.disposition req.writes i o

def hClose (id : FileId) : ServerM S Reply := do
  match findOpen (← get).conn id with
  | none => return .done
  | some (i, o) =>
    if o.pipe.isSome then do
      openClear v i
      return .done
    else do
      let _ ← cachedStat v o.path
      openClear v i
      return .done

def hRead (id : FileId) (offset length : Nat) : ServerM S Reply := do
  match findOpen (← get).conn id with
  | none => return .fail .fileClosed
  | some (_, o) =>
    if o.pipe.isSome then return .pipe
    else
      match o.isDir, o.fd with
      | false, some fd =>
        match ← callFd fun s => v.pread s fd length offset with
        | .error e => return .fail (statusOfErrno e)
        | .ok bytes =>
            if bytes = [] ∧ 0 < length then return .fail .endOfFile else return .data bytes
      | _, _ => return .fail .invalidDeviceRequest

def hWrite (id : FileId) (offset : Nat) (bytes : List UInt8) : ServerM S Reply := do
  match findOpen (← get).conn id with
  | none => return .fail .fileClosed
  | some (_, o) =>
    if o.pipe.isSome then return .pipe
    else
      match o.isDir, o.fd with
      | false, some fd =>
        match ← callFd fun s => v.pwrite s fd bytes offset with
        | .error e => return .fail (statusOfErrno e)
        | .ok n => return .count n
      | _, _ => return .fail .invalidDeviceRequest

def matchLoop : Nat → List Char → List Char → Option (List Char × List Char) → Bool
  | 0, _, _, _ => false
  | _ + 1, pattern, [], _ => pattern.all (· = '*')
  | fuel + 1, pattern, c :: name, star =>
    let back := match star with
      | none => false
      | some (behind, mark) => matchLoop fuel behind mark.tail (some (behind, mark.tail))
    match pattern with
    | [] => back
    | q :: rest =>
      if q = '?' ∨ lowerAscii q = lowerAscii c then matchLoop fuel rest name star
      else if q = '*' then matchLoop fuel rest (c :: name) (some (rest, c :: name))
      else back

def nameMatches (pattern name : List Char) : Bool :=
  pattern = [] ||
    matchLoop ((name.length + 1) * (pattern.length + name.length + 2)) pattern name none

def isDot (name : List Char) : Bool := name = ['.'] || name = ['.', '.']

def skipEntries (pattern : List Char) : Nat → List (List Char) → Option (List (List Char))
  | 0, names => some names
  | _ + 1, [] => none
  | skip + 1, name :: names =>
    if isDot name || !nameMatches pattern name then skipEntries pattern (skip + 1) names
    else skipEntries pattern skip names

/-- What a listing has filled so far: the scratch, the names' scratch and the wire form. -/
structure Listing where
  used : Nat
  nnames : Nat
  encoded : Nat
  found : List (UInt32 × List Char)

inductive Offer
  | skip
  | full
  | taken (listing : Listing)

def pad64 (n : Nat) : Nat := (n + 7) / 8 * 8

def offerEntry (req : QueryDirectoryRequest) (i : Nat) (path : Path) (entry : List Char)
    (listing : Listing) : ServerM S Offer := do
  if !nameMatches req.pattern entry then return .skip
  else if pathMax < path.length + 1 + entry.length + 1 then return .skip
  else
    let _ ← cachedStat v (path ++ '/' :: entry)
    let enc := pad64 (req.fixed + 2 * entry.length)
    if cfg.scratch < listing.used + cfg.stride ∨ cfg.scratch < listing.nnames + entry.length + 1 ∨
        req.outputLen ≠ 0 ∧ req.outputLen < listing.encoded + enc then
      return .full
    else
      let o ← getSlot i
      modifySlot i fun o => { o with dirIndex := o.dirIndex + 1 }
      return .taken
        { used := listing.used + cfg.stride, nnames := listing.nnames + entry.length + 1
          encoded := listing.encoded + enc, found := listing.found ++ [(o.dirIndex, entry)] }

def setRest (i : Nat) (rest : List (List Char)) : ServerM S Unit :=
  modifySlot i fun o => { o with dir := o.dir.map fun d => { d with rest := rest } }

def listEntries (req : QueryDirectoryRequest) (i : Nat) (path : Path) :
    List (List Char) → Listing → ServerM S Listing
  | [], listing => do
    setRest i []
    return listing
  | name :: rest, listing =>
    if isDot name then listEntries req i path rest listing
    else do
      let entry := name.take 255
      match ← offerEntry v cfg req i path entry listing with
      | .skip => listEntries req i path rest listing
      | .full => do
        modifySlot i fun o => { o with pending := entry, havePending := true }
        setRest i rest
        return listing
      | .taken listing =>
        if req.single then do
          setRest i rest
          return listing
        else listEntries req i path rest listing

def listFrom (req : QueryDirectoryRequest) (i : Nat) (o : Slot) (names : List (List Char)) :
    ServerM S Reply := do
  let waiting := if o.havePending then [o.pending] else []
  modifySlot i fun o => { o with havePending := false }
  let listing ← listEntries v cfg req i o.path (waiting ++ names) ⟨0, 0, 0, []⟩
  if listing.used = 0 ∧ !o.dirQueried then return .fail .noSuchFile
  else return .entries listing.found

def restartStream (o : Slot) : Slot :=
  { o with
    dir := o.dir.map fun d => { d with rest := d.all }, havePending := false, dirIndex := 0
    dirQueried := false }

/-- Where the listing goes on, or the entry a client asks for by its index. -/
def listDirectory (req : QueryDirectoryRequest) (i : Nat) (o : Slot) : ServerM S Reply := do
  modifySlot i fun _ => { o with dirQueried := true }
  let stream := o.dir.getD ⟨[], []⟩
  if 0 < req.fileIndex then
    match skipEntries req.pattern req.fileIndex stream.all with
    | none => do
      setRest i []
      return .entries []
    | some rest => do
      modifySlot i fun o => { o with dirIndex := req.fileIndex.toUInt32 }
      listFrom v cfg req i o rest
  else listFrom v cfg req i o stream.rest

def hQueryDirectory (req : QueryDirectoryRequest) : ServerM S Reply := do
  match findOpen (← get).conn req.id with
  | none => return .fail .fileClosed
  | some (i, o) =>
    if !o.isDir || o.dir.isNone then return .fail .invalidParameter
    else if req.fixed = 0 then return .fail .invalidInfoClass
    else listDirectory v cfg req i (if req.restart then restartStream o else o)

def hQueryInfo (id : FileId) : ServerM S Reply := do
  match findOpen (← get).conn id with
  | some (_, o) =>
    if o.pipe.isSome then return .pipe
    else
      match ← cachedStat v o.path with
      | .error e => return .fail (statusOfErrno e)
      | .ok _ => return .done
  | none =>
    if id.isZero || id.isCompound then
      match ← cachedStat v cfg.root with
      | .error e => return .fail (statusOfErrno e)
      | .ok _ => return .done
    else return .fail .fileClosed

def readLe (bytes : List UInt8) : Nat := bytes.foldr (fun b n => b.toNat + 256 * n) 0

def codeUnits : List UInt8 → List Nat
  | low :: high :: rest => (low.toNat + 256 * high.toNat) :: codeUnits rest
  | _ => []

def narrow (unit : Nat) : Char := if unit < 0x80 then Char.ofNat unit else '?'

def renameBytes (input : List UInt8) : Option (List UInt8) :=
  if input.length < 20 then none
  else
    let nl := readLe ((input.drop 16).take 4)
    if nl = 0 ∨ 2 * (pathMax - 1) < nl ∨ input.length < 20 + nl then none
    else some ((input.drop 20).take nl)

def reopen (i : Nat) (was o : Slot) : ServerM S Unit := do
  if was.isDir then
    match ← opendir v o.path with
    | .ok names => modifySlot i fun _ => { o with dir := some ⟨names, names⟩, isDir := true }
    | .error _ => pure ()
  else if was.fd.isSome then
    match ← openFile v o.path o.flags with
    | .ok fd => modifySlot i fun _ => { o with fd := some fd }
    | .error _ => pure ()
  else pure ()

def closeForRename (was : Slot) : ServerM S Unit :=
  match was.dir with
  | some _ => pure ()
  | none => closeDescriptor v was

def moveClosed (i : Nat) (was o : Slot) (newpath : Path) : ServerM S Reply := do
  match ← rename v o.path newpath with
  | some e => do
    reopen v i was o
    return .fail (statusOfErrno e)
  | none => do
    let o := { o with path := newpath }
    modifySlot i fun _ => o
    reopen v i was o
    return .done

def renameOpen (i : Nat) (was : Slot) (newpath : Path) : ServerM S Reply := do
  let o := { was with fd := none, dir := none, isDir := false }
  modifySlot i fun _ => o
  closeForRename v was
  moveClosed v i was o newpath

def setRename (i : Nat) (o : Slot) (input : List UInt8) : ServerM S Reply := do
  match renameBytes input with
  | none => return .fail .unset
  | some bytes =>
    let name := ((codeUnits bytes).take (pathMax - 1)).map narrow
    match resolvePath cfg.root (cstr name) pathMax with
    | none => return .fail .objectNameNotFound
    | some newpath => renameOpen v i o newpath

def setBasic (o : Slot) (input : List UInt8) : ServerM S Reply := do
  if input.length < 36 then return .fail .unset
  else if readLe ((input.drop 8).take 8) ≠ 0 ∨ readLe ((input.drop 16).take 8) ≠ 0 then do
    let _ ← utime v o.path
    return .done
  else return .done

def setEndOfFile (o : Slot) (input : List UInt8) : ServerM S Reply := do
  match o.isDir, o.fd with
  | false, some fd =>
    if input.length < 8 then return .fail .invalidParameter
    else
      match ← callFd fun s => v.ftruncate s fd (readLe (input.take 8)) with
      | some e => return .fail (statusOfErrno e)
      | none => return .done
  | _, _ => return .fail .invalidParameter

def setOpen (req : SetInfoRequest) (i : Nat) (o : Slot) : ServerM S Reply := do
  if !req.infoFile then return .fail .notSupported
  else
    match req.infoClass with
    | .endOfFile => setEndOfFile v o req.input
    | .allocation => return .done
    | .basic => setBasic v o req.input
    | .disposition =>
      match req.input with
      | [] => return .fail .unset
      | b :: _ => do
        modifySlot i fun o => { o with deleteOnClose := b != 0 }
        return .done
    | .rename => setRename v cfg i o req.input
    | .other => return .fail .invalidInfoClass

def hSetInfo (req : SetInfoRequest) : ServerM S Reply := do
  match findOpen (← get).conn req.id with
  | none => return .fail .fileClosed
  | some (i, o) => setOpen v cfg req i o

def serve : Request → ServerM S Reply
  | .treeConnect tree name => hTreeConnect cfg tree name
  | .treeDisconnect tree => do
    setConn (treeRemove (← get).conn tree)
    return .done
  | .create req room => hCreate v cfg req room
  | .close id => hClose v id
  | .read id offset length => hRead v id offset length
  | .write id offset bytes => hWrite v id offset bytes
  | .queryDirectory req => hQueryDirectory v cfg req
  | .queryInfo id => hQueryInfo v cfg id
  | .setInfo req => hSetInfo v cfg req
  | .destruction => do
    connFree v
    return .done

end Handlers

end Espix.Smbd.Handlers
