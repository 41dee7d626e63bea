import Espix.Fs.Access
import Espix.Lib.Run
import Mathlib.Logic.Function.Basic

/-! The process table and the tasks of a process.

`espix_proc/proc.c`, `spawn_fn.c`, `exec.c` (admission and the prologue of
`proc_task`), `abi_pthread.c` and `proc_threads.c`, as steps on the process
table, the thread books and the task-local storage of every task. A step is what
runs under the table lock, or a prologue no other code of its task precedes. -/

namespace Espix.Proc.Tasks

open Fs.Access Lib

abbrev TaskId := Nat
abbrev SlotId := Nat
abbrev SessionId := Nat

structure Config where
  procMax : Nat
  threadMax : Nat

def ngroupsMax : Nat := 8

inductive Kind
  | app
  | builtin
  | daemon
  | kthread
  | session
  deriving DecidableEq, Repr

structure Slot where
  kind : Kind
  task : Option TaskId
  cred : Cred
  session : Option SessionId
  root : Path
  rootActive : Bool
  wasKthread : Bool

structure Thread where
  slot : SlotId
  tid : Nat
  task : Option TaskId
  deriving DecidableEq

structure State where
  slots : SlotId → Option Slot
  threads : List Thread
  live : TaskId → Bool
  procTls : TaskId → Option SlotId
  sessionTls : TaskId → Option SessionId
  fsPriv : TaskId → Nat
  /-- A session's credentials, which `sudo` changes in place. -/
  sessions : SessionId → Cred
  nextPid : Nat
  actAs : Option (Nat × Nat)

namespace State

def newTask (s : State) (t : TaskId) : State :=
  { s with
    live := Function.update s.live t true
    procTls := Function.update s.procTls t none
    sessionTls := Function.update s.sessionTls t none
    fsPriv := Function.update s.fsPriv t 0 }

def dropTask (s : State) (t : TaskId) : State :=
  { s with
    live := Function.update s.live t false
    procTls := Function.update s.procTls t none
    sessionTls := Function.update s.sessionTls t none
    fsPriv := Function.update s.fsPriv t 0 }

def setSlot (s : State) (i : SlotId) (slot : Option Slot) : State :=
  { s with slots := Function.update s.slots i slot }

def setProcTls (s : State) (t : TaskId) (i : Option SlotId) : State :=
  { s with procTls := Function.update s.procTls t i }

def setCurrent (s : State) (t : TaskId) (session : Option SessionId) : State :=
  { s with sessionTls := Function.update s.sessionTls t session }

end State

section Lookup

variable (cfg : Config) (s : State)

def allocSlot : Option SlotId :=
  (List.range cfg.procMax).find? fun i => (s.slots i).isNone

def slotOfTask (t : TaskId) : Option SlotId :=
  (List.range cfg.procMax).find? fun i => (s.slots i).any (·.task == some t)

def procSelf (t : TaskId) : Option SlotId :=
  match s.procTls t with
  | some i => if (s.slots i).isSome then some i else slotOfTask cfg s t
  | none => slotOfTask cfg s t

/-- `espix_proc_cred_of_task`: a shell's credentials and a command's are asked of
their session. -/
def credOfTask (t : TaskId) : Option Cred :=
  match (slotOfTask cfg s t).bind s.slots with
  | some slot => if slot.kind = .session ∨ slot.kind = .builtin then none else some slot.cred
  | none => none

def subject (t : TaskId) : Option Cred :=
  match s.actAs with
  | some (uid, gid) => some ⟨uid, gid, []⟩
  | none =>
    match credOfTask cfg s t with
    | some who => some who
    | none => (s.sessionTls t).map s.sessions

def privileged (t : TaskId) : Bool := s.fsPriv t != 0

def procRoot (t : TaskId) : Path :=
  match (procSelf cfg s t).bind s.slots with
  | some slot => if slot.rootActive then slot.root else []
  | none => []

def rootPermits (root path : Path) : Bool := root = [] || within path root

def fsAccessCheck (view : View) (t : TaskId) (path : Path) (op : Op) (flags : OpenFlags) :
    Option Errno :=
  if privileged s t then none
  else
    match subject cfg s t with
    | none => none
    | some who => accessCheck view who path op flags

def fsAdminCheck (view : View) (t : TaskId) (path : Path) (changingOwner : Bool) : Option Errno :=
  if privileged s t then none
  else if !rootPermits (procRoot cfg s t) path then some .enoent
  else
    match subject cfg s t with
    | none => none
    | some who => adminCheck view who path changingOwner

def fsClaim (view : View) (t : TaskId) (path : Path) (mode : Nat) : Option Stamp :=
  if privileged s t then none
  else
    match subject cfg s t with
    | none => none
    | some who => claim view who path mode

end Lookup

/-! The thread books, `proc_threads.c`. -/

def threadsAdd (cfg : Config) (v : List Thread) (slot : SlotId) (tid : Nat) :
    Option (List Thread) :=
  if v.any (·.tid == tid) then none
  else if v.length < cfg.threadMax then some (v ++ [⟨slot, tid, none⟩]) else none

def threadsSetTask (v : List Thread) (tid : Nat) (t : TaskId) : List Thread :=
  v.map fun e => if e.tid = tid then { e with task := some t } else e

def threadsRemove (v : List Thread) (tid : Nat) : List Thread :=
  v.filter (·.tid != tid)

def threadsTidOf (v : List Thread) (t : TaskId) : Option Nat :=
  (v.find? (·.task == some t)).map (·.tid)

inductive Event
  /-- A task of espix's own: a driver, the console, a plain `pthread_create`. -/
  | createTask (t : TaskId)
  | endTask (t : TaskId)
  /-- `espix_proc_spawn_elf`, with the owner a set-id binary gives. -/
  | spawnElf (t : TaskId) (session : Option SessionId) (setuid setgid : Option Nat) (root : Path)
  | startApp (t : TaskId)
  | armRoot (t : TaskId)
  | spawnFn (t : TaskId) (kind : Kind) (session : Option SessionId)
  | adopt (t : TaskId) (session : SessionId)
  | leave (t : TaskId)
  | kthreadAdopt (t : TaskId)
  | kthreadGone (t : TaskId)
  /-- `espix_shell_set_current`, which only the body of a main task calls. -/
  | setCurrent (t : TaskId) (session : Option SessionId)
  /-- `pthread_create` and `espix_proc_thread_start`, called on the task `caller`. -/
  | reserveThread (caller : TaskId)
  | cancelThread (tid : Nat)
  /-- Either trampoline: the new task enters the books, then takes the slot in its
  local storage. A U-mode thread comes this way too, before `thread_main`. -/
  | startThread (t : TaskId) (tid : Nat)
  | endThread (t : TaskId)
  | reapThread (tid : Nat)
  | exit (t : TaskId)
  /-- `proc_force_kill` up to the deletion of the main task. -/
  | kill (i : SlotId)
  | finish (i : SlotId)
  | privBegin (t : TaskId)
  | privEnd (t : TaskId)
  | actAs (uid gid : Nat)
  | actAsNone
  | sessionCred (session : SessionId) (who : Cred)

def noCred : Cred := ⟨0, 0, []⟩

def sessionCred (s : State) (session : Option SessionId) : Cred :=
  (session.map s.sessions).getD noCred

/-- The credentials of a new app: its session's, then the binary's owner. A set-gid
group joins the set while there is room. -/
def spawnCred (base : Cred) (setuid setgid : Option Nat) : Cred :=
  { uid := setuid.getD base.uid
    gid := setgid.getD base.gid
    groups :=
      match setgid with
      | some gid => if base.groups.length < ngroupsMax then base.groups ++ [gid] else base.groups
      | none => base.groups }

def isThread (s : State) (t : TaskId) : Bool := s.threads.any (·.task == some t)

def threadsOf (s : State) (i : SlotId) : List Thread := s.threads.filter (·.slot == i)

def newSlot (kind : Kind) (t : TaskId) (cred : Cred) (session : Option SessionId) (root : Path) :
    Slot :=
  { kind, task := some t, cred, session, root, rootActive := false, wasKthread := false }

/-- The slot is given back once its threads are gone; `espix_proc_finish` zeroes it. -/
def finishSlot (s : State) (i : SlotId) : Option State :=
  if (threadsOf s i).isEmpty then some (s.setSlot i none) else none

def step (cfg : Config) (s : State) : Event → Option State
  | .createTask t => if s.live t then none else some (s.newTask t)
  | .endTask t =>
    if s.live t && (slotOfTask cfg s t).isNone && !isThread s t then some (s.dropTask t) else none
  | .spawnElf t session setuid setgid root =>
    match allocSlot cfg s with
    | some i =>
      if s.live t then none
      else
        let cred := spawnCred (sessionCred s session) setuid setgid
        some ((s.newTask t).setSlot i (some (newSlot .app t cred session root)))
    | none => none
  | .startApp t =>
    match slotOfTask cfg s t with
    | some i =>
      match s.slots i with
      | some slot =>
        if slot.kind = .app then some ((s.setProcTls t (some i)).setCurrent t slot.session)
          else none
      | none => none
    | none => none
  | .armRoot t =>
    match slotOfTask cfg s t with
    | some i => some (s.setSlot i ((s.slots i).map fun slot => { slot with rootActive := true }))
    | none => none
  | .spawnFn t kind session =>
    match allocSlot cfg s with
    | some i =>
      if s.live t || kind = .app then none
      else
        some ((s.newTask t).setSlot i (some (newSlot kind t (sessionCred s session) session [])))
    | none => none
  | .adopt t session =>
    if !s.live t then none
    else
      match procSelf cfg s t with
      | some i =>
        match s.slots i with
        | some slot =>
          if slot.kind = .kthread ∧ slot.task = some t then
            some (s.setSlot i (some
              { slot with kind := .session, session := some session, wasKthread := true }))
          else none
        | none => none
      | none =>
        match allocSlot cfg s with
        | some i => some (s.setSlot i (some (newSlot .session t noCred (some session) [])))
        | none => none
  | .leave t =>
    match procSelf cfg s t with
    | some i =>
      match s.slots i with
      | some slot =>
        if slot.kind ≠ .session ∨ slot.task ≠ some t then none
        else if slot.wasKthread then
          some (s.setSlot i (some
            { slot with kind := .kthread, session := none, wasKthread := false }))
        else finishSlot s i
      | none => none
    | none => none
  | .kthreadAdopt t =>
    if s.live t && (slotOfTask cfg s t).isNone && !isThread s t then
      match allocSlot cfg s with
      | some i => some (s.setSlot i (some (newSlot .kthread t noCred none [])))
      | none => none
    else none
  | .kthreadGone t =>
    match slotOfTask cfg s t with
    | some i =>
      if (s.slots i).any (·.kind == .kthread) then finishSlot s i else none
    | none => none
  | .setCurrent t session =>
    if s.live t && !isThread s t then some (s.setCurrent t session) else none
  | .reserveThread caller =>
    match procSelf cfg s caller with
    | some i =>
      match threadsAdd cfg s.threads i s.nextPid with
      | some v => some { s with threads := v, nextPid := s.nextPid + 1 }
      | none => some { s with nextPid := s.nextPid + 1 }
    | none => none
  | .cancelThread tid =>
    if s.threads.any fun e => e.tid == tid && e.task.isSome then none
    else some { s with threads := threadsRemove s.threads tid }
  | .startThread t tid =>
    match s.threads.find? (·.tid == tid) with
    | some e =>
      if s.live t || e.task.isSome then none
      else
        some { (s.newTask t).setProcTls t (some e.slot) with
          threads := threadsSetTask s.threads tid t }
    | none => none
  | .endThread t =>
    match threadsTidOf s.threads t with
    | some tid => some { s.dropTask t with threads := threadsRemove s.threads tid }
    | none => none
  | .reapThread tid =>
    match s.threads.find? (·.tid == tid) with
    | some e =>
      let s' := match e.task with
        | some t => s.dropTask t
        | none => s
      some { s' with threads := threadsRemove s.threads tid }
    | none => none
  | .exit t =>
    match slotOfTask cfg s t with
    | some i => finishSlot (s.dropTask t) i
    | none => none
  | .kill i =>
    match s.slots i with
    | some slot =>
      match slot.task with
      | some t =>
        if slot.kind = .app then some ((s.dropTask t).setSlot i (some { slot with task := none }))
        else none
      | none => none
    | none => none
  | .finish i =>
    if (s.slots i).any (·.task.isNone) then finishSlot s i else none
  | .privBegin t =>
    if s.live t then some { s with fsPriv := Function.update s.fsPriv t (s.fsPriv t + 1) } else none
  | .privEnd t =>
    if s.live t then some { s with fsPriv := Function.update s.fsPriv t (s.fsPriv t - 1) } else none
  | .actAs uid gid => some { s with actAs := some (uid, gid) }
  | .actAsNone => some { s with actAs := none }
  | .sessionCred session who =>
    some { s with sessions := Function.update s.sessions session who }

def boot (sessions : SessionId → Cred) : State :=
  { slots := fun _ => none, threads := [], live := fun _ => false, procTls := fun _ => none,
    sessionTls := fun _ => none, fsPriv := fun _ => 0, sessions, nextPid := 1, actAs := none }

end Espix.Proc.Tasks
