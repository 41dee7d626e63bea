import Espix.Lib.CText

/-! The SMB server's connection, its open handles and the paths it forms:
`components/espix_smbd/smbd.c`.

The file system below it is a parameter: what each call answers, and the state it
leaves. The server's own state keeps the calls it made that name a path. -/

namespace Espix.Smbd.Server

open Lib.CText

abbrev Path := List Char

inductive Errno
  | noent | acces | perm | exist | notdir | isdir | nospc | notempty | busy | inval
  | nametoolong | mfile | nfile | other (n : Nat)
  deriving DecidableEq, Repr

inductive Kind
  | file | dir
  deriving DecidableEq, Repr

/-- The `open(2)` flags the server uses; `rdwr` is `O_RDWR` and its absence `O_RDONLY`. -/
structure Flags where
  creat : Bool
  excl : Bool
  trunc : Bool
  rdwr : Bool
  deriving DecidableEq, Repr

/-- The calls below the server. `opendir` gives the names the stream is going to give. -/
structure Vfs (S : Type) where
  stat : S → Path → S × Except Errno Kind
  openFile : S → Path → Flags → S × Except Errno Nat
  opendir : S → Path → S × Except Errno (List (List Char))
  mkdir : S → Path → S × Option Errno
  rename : S → Path → Path → S × Option Errno
  unlink : S → Path → S × Option Errno
  rmdir : S → Path → S × Option Errno
  utime : S → Path → S × Option Errno
  close : S → Nat → S
  ftruncate : S → Nat → Nat → S × Option Errno
  pread : S → Nat → Nat → Nat → S × Except Errno (List UInt8)
  pwrite : S → Nat → List UInt8 → Nat → S × Except Errno Nat
  /-- A directory entry is one component and fits `d_name`. -/
  entry_component : ∀ s path names, (opendir s path).2 = .ok names →
    ∀ name ∈ names, '/' ∉ name ∧ name.length ≤ 255

inductive Call
  | stat (path : Path)
  | openFile (path : Path)
  | opendir (path : Path)
  | mkdir (path : Path)
  | rename (old new : Path)
  | unlink (path : Path)
  | rmdir (path : Path)
  | utime (path : Path)
  deriving DecidableEq, Repr

def Call.paths : Call → List Path
  | .stat path | .openFile path | .opendir path | .mkdir path => [path]
  | .unlink path | .rmdir path | .utime path => [path]
  | .rename old new => [old, new]

def pathMax : Nat := 512

def maxOpen : Nat := 32

def maxTrees : Nat := 8

structure DirStream where
  all : List (List Char)
  rest : List (List Char)
  deriving DecidableEq, Repr

inductive PipeKind
  | srvsvc | wkssvc
  deriving DecidableEq, Repr

/-- `smbd_open_t`; `fd` is none where the source has −1. -/
structure Slot where
  used : Bool
  isDir : Bool
  fd : Option Nat
  flags : Flags
  dir : Option DirStream
  id : UInt64
  path : Path
  pending : List Char
  havePending : Bool
  deleteOnClose : Bool
  dirQueried : Bool
  dirIndex : UInt32
  pipe : Option PipeKind
  deriving DecidableEq, Repr

def Slot.empty : Slot :=
  { used := false, isDir := false, fd := none, flags := ⟨false, false, false,
    false⟩, dir := none, id := 0
    path := [], pending := [], havePending := false, deleteOnClose := false, dirQueried := false
    dirIndex := 0, pipe := none }

structure Conn where
  nextId : UInt64
  lastId : UInt64
  trees : List (UInt32 × Bool)
  opens : List Slot
  deriving DecidableEq, Repr

def Conn.new : Conn :=
  { nextId := 0, lastId := 0, trees := List.replicate maxTrees (0, false)
    opens := List.replicate maxOpen Slot.empty }

/-- `smb2_file_id`: the eight bytes `open_find` reads, and the other eight. -/
structure FileId where
  low : UInt64
  high : UInt64
  deriving DecidableEq, Repr

def FileId.isZero (id : FileId) : Bool := id.low = 0 && id.high = 0

def FileId.isCompound (id : FileId) : Bool :=
  id.low = 0xffffffffffffffff && id.high = 0xffffffffffffffff

def Conn.slot (c : Conn) (i : Nat) : Slot := c.opens.getD i Slot.empty

def Conn.update (c : Conn) (i : Nat) (f : Slot → Slot) : Conn :=
  { c with opens := c.opens.modify i f }

def openFind (c : Conn) (id : UInt64) : Option Nat := c.opens.findIdx? fun o => o.used && o.id = id

/-- A request in a compound is about what the last create opened. -/
def openFindAny (c : Conn) (id : FileId) : Option Nat :=
  match openFind c id.low with
  | some i => some i
  | none => if id.isCompound then openFind c c.lastId else none

def findOpen (c : Conn) (id : FileId) : Option (Nat × Slot) :=
  (openFindAny c id).map fun i => (i, c.slot i)

def openAlloc (c : Conn) : Option (Nat × Conn) :=
  match c.opens.findIdx? fun o => !o.used with
  | none => none
  | some i =>
    let id := c.nextId + 1
    some (i, { c with
      nextId := id, lastId := id, opens :=
        c.opens.set i { Slot.empty with used := true, id := id } })

def treeAdd (c : Conn) (id : UInt32) (ipc : Bool) : Option Conn :=
  (c.trees.findIdx? fun t => t.1 = 0).map fun i => { c with trees := c.trees.set i (id, ipc) }

def treeRemove (c : Conn) (id : UInt32) : Conn :=
  { c with trees := c.trees.map fun t => if t.1 = id then (0, t.2) else t }

def treeIsIpc (c : Conn) (id : UInt32) : Bool :=
  id != 0 && ((c.trees.find? fun t => t.1 = id).map Prod.snd).getD false

def isSep (c : Char) : Bool := c = '\\' || c = '/'

def upAt : List Char → Bool
  | '.' :: '.' :: rest => rest.head?.all isSep
  | _ => false

def slash (c : Char) : Char := if c = '\\' then '/' else c

def copyName (outlen : Nat) : List Char → List Char → Option Path
  | out, [] => some out
  | out, c :: rest =>
    if upAt (c :: rest) then none
    else if outlen ≤ out.length + 1 then none
    else copyName outlen (out ++ [slash c]) rest

def resolvePath (root : Path) (name : List Char) (outlen : Nat) : Option Path :=
  if outlen ≤ root.length then none
  else
    match name with
    | [] => some root
    | c :: _ =>
      if isSep c then none
      else if root ≠ [] ∧ root.getLast? ≠ some '/' then
        if outlen ≤ root.length + 1 then none else copyName outlen (root ++ ['/']) name
      else copyName outlen root name

end Espix.Smbd.Server
