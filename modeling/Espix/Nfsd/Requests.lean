import Espix.Lib.PathText
import Espix.Nfsd.Handles

/-! The requests of the MOUNT and NFS programs, as far as handles go.

Each NFS call resolves the handles it was sent; LOOKUP, CREATE, MKDIR and READDIRPLUS then
hand out new ones. What the file system answers (and whether the heap has room for the
table) comes with the call. -/

namespace Espix.Nfsd.Requests

open Fs.Access (Path)
open Lib.PathText Lib.Run Lib.SlotTable Exports Handles

def maxExports : Nat := 8
def maxMounted : Nat := 8

structure Mount where
  addr : Nat
  exp : Nat
  n : Nat
  deriving DecidableEq, Repr

structure Server where
  exports : List Export
  table : Table
  mounted : List Mount

def start : Server := ⟨[], Handles.boot, List.replicate maxMounted ⟨0, 0, 0⟩⟩

/-! The mount table. -/

def isMount (src exp : Nat) (m : Mount) : Bool := 0 < m.n && m.addr == src && m.exp == exp

def mountAdd (mounted : List Mount) (src exp : Nat) : List Mount :=
  match mounted.findIdx? (isMount src exp) with
  | some i => mounted.modify i fun m => { m with n := m.n + 1 }
  | none =>
    match mounted.findIdx? (·.n == 0) with
    | some i => mounted.set i ⟨src, exp, 1⟩
    | none => mounted

def mountRemove (mounted : List Mount) (src exp : Nat) : List Mount :=
  match mounted.findIdx? (isMount src exp) with
  | some i => mounted.modify i fun m => { m with n := m.n - 1 }
  | none => mounted

def mountRemoveAll (mounted : List Mount) (src : Nat) : List Mount :=
  mounted.map fun m => if m.addr = src then { m with n := 0 } else m

def nothingMounted (mounted : List Mount) : Bool := mounted.all (·.n == 0)

def unmounted (s : Server) (mounted : List Mount) : Server :=
  { s with
    mounted
    table := if nothingMounted mounted then slotsCleanup s.table else s.table }

/-! Names. -/

/-- `name_ok`: one component, so a client cannot climb out of the export. -/
def nameOk (name : Path) : Bool :=
  name != [] && name.length ≤ 255 && !name.contains '/' && name != ['.'] && name != ['.', '.']

def joinPath (dir name : Path) : Option Path :=
  if dir.length + 1 + name.length < pathCap then some (dir ++ '/' :: name) else none

def childPath (dir name : Path) : Path :=
  let base := if dir.getLast? = some '/' then dir else (dir ++ ['/']).take (pathCap - 1)
  (base ++ name).take (pathCap - 1)

/-! The NFS program. -/

/-- The procedures by the handles and names they carry. GETATTR, SETATTR, ACCESS, READLINK,
READ, WRITE, SYMLINK, MKNOD, LINK, REMOVE, RMDIR, READDIR, FSSTAT, FSINFO, PATHCONF and
COMMIT resolve one handle and make none. -/
inductive Call
  | lookup (fh : Handle) (name : Path)
  | create (fh : Handle) (name : Path)
  | mkdir (fh : Handle) (name : Path)
  | readdirplus (fh : Handle)
  | rename (fromFh : Handle) (fromName : Path) (toFh : Handle) (toName : Path)
  | other (fh : Handle)

/-- What the heap and the file system answer: a table can be had, the call on the path (or
the opendir) succeeds, and the names that fit the page. -/
structure Answers where
  heap : Bool
  done : Bool
  listing : List Path

def Call.handles : Call → List Handle
  | .lookup fh _ | .create fh _ | .mkdir fh _ | .readdirplus fh | .other fh => [fh]
  | .rename fromFh _ toFh _ => [fromFh, toFh]

section Serve

variable (s : Server) (peer : Peer)

def resolve (fh : Handle) : Option Resolved := fhResolve s.exports peer s.table fh

def resolutions : Call → List Resolved
  | .rename fromFh _ toFh _ =>
    match resolve s peer fromFh with
    | none => []
    | some r => r :: (resolve s peer toFh).toList
  | .lookup fh _ | .create fh _ | .mkdir fh _ | .readdirplus fh | .other fh =>
    (resolve s peer fh).toList

def nameIn (fh : Handle) (name : Path) : Option (Resolved × Path) :=
  match resolve s peer fh with
  | none => none
  | some r => if nameOk name then (joinPath r.path name).map fun path => (r, path) else none

def asked (a : Answers) : Call → Nat × List Path
  | .lookup fh name =>
    match nameIn s peer fh name with
    | some (r, path) => if a.done then (r.exp, [path]) else (0, [])
    | none => (0, [])
  | .create fh name | .mkdir fh name =>
    match nameIn s peer fh name with
    | some (r, path) => if !r.rule.ro && a.done then (r.exp, [path]) else (0, [])
    | none => (0, [])
  | .readdirplus fh =>
    match resolve s peer fh with
    | some r => if a.done then (r.exp, a.listing.map (childPath r.path)) else (0, [])
    | none => (0, [])
  | .rename .. | .other _ => (0, [])

end Serve

def makeAll (heap : Bool) (exp : Nat) : Table → List Path → Table × List Handle
  | t, [] => (t, [])
  | t, path :: paths =>
    let made := fhMake heap t exp path
    let rest := makeAll heap exp made.1 paths
    (rest.1, made.2.toList ++ rest.2)

inductive Event
  | nfs (peer : Peer) (call : Call) (answers : Answers)
  | mnt (src : Nat) (dir : Path) (heap : Bool)
  | umnt (src : Nat) (dir : Path)
  | umntall (src : Nat)
  | reload (exports : List Export)

/-- The server, and the handles it has given out under its present exports. -/
structure World where
  server : Server
  given : List Handle

def boot : World := ⟨start, []⟩

def mountable (s : Server) (src : Nat) (dir : Path) : Option (Nat × Path) :=
  match exportFor s.exports dir with
  | none => none
  | some e =>
    match s.exports[e]? with
    | none => none
    | some x => if (ruleFor x src).isSome then some (e, x.path) else none

def step (w : World) : Event → Option World
  | .nfs peer call answers =>
    let (exp, paths) := asked w.server peer answers call
    let made := makeAll answers.heap exp w.server.table paths
    some ⟨{ w.server with table := made.1 }, w.given ++ made.2⟩
  | .mnt src dir heap =>
    match mountable w.server src dir with
    | none => some w
    | some (e, path) =>
      let made := fhMake heap w.server.table e path
      match made.2 with
      | none => some w
      | some fh =>
        some ⟨{ w.server with table := made.1, mounted := mountAdd w.server.mounted src e },
          w.given ++ [fh]⟩
  | .umnt src dir =>
    match exportFor w.server.exports dir with
    | none => some w
    | some e => some { w with server := unmounted w.server (mountRemove w.server.mounted src e) }
  | .umntall src =>
    some { w with server := unmounted w.server (mountRemoveAll w.server.mounted src) }
  | .reload exports =>
    some ⟨{ w.server with exports := exports.take maxExports }, []⟩

end Espix.Nfsd.Requests
