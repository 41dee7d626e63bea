import Mathlib.Data.List.Basic
import Mathlib.Tactic
import Espix.Lib.Run

/-! `components/espix_shell/env.c` and the sessions of `session.c` that hold its tables.

A session points to its table, and a table to its strings. Addresses are numbers that are given
once. A command that runs beside its shell has a copy of the session record, pointer and all: a
background job, and every stage of a pipeline. -/

namespace Espix.Shell.Env

abbrev Text := List Char

def envMax : Nat := 24
def envNameMax : Nat := 32
def envValueMax : Nat := 192
def envScopeMax : Nat := 8

structure Str where
  id : Nat
  text : Text
  deriving DecidableEq

structure Entry where
  name : Str
  value : Str
  exported : Bool
  deriving DecidableEq

structure Table where
  v : Nat → Option Entry
  count : Nat

structure Saved where
  name : Str
  value : Option Str
  exported : Bool
  existed : Bool
  deriving DecidableEq

structure Frame where
  session : Nat
  saved : Nat → Option Saved
  n : Nat

/-- Of the session record, the pointer to its table; of its process, the session it was started
under, the lines it is running, and whether its shell has ended. -/
structure Session where
  env : Option Nat
  parent : Option Nat
  lines : Nat
  ended : Bool
  deriving DecidableEq

structure State where
  tables : Nat → Option Table
  sessions : Nat → Option Session
  frames : Nat → Option Frame
  nextTable : Nat
  nextStr : Nat
  freedTables : List Nat
  freedStrs : List Nat
  /-- A table was used after it was freed. -/
  fault : Bool

/-- Which of the allocations succeed: the table, the value, the name, the name in the scope. -/
structure Mem where
  table : Bool
  value : Bool
  name : Bool
  saved : Bool

def full : Mem := ⟨true, true, true, true⟩

def emptyTable : Table := ⟨fun _ => none, 0⟩

section Heap

def envOf (s : State) (a : Nat) : Option Nat := (s.sessions a).bind (·.env)

def slotAt (s : State) (t k : Nat) : Option Entry := (s.tables t).bind fun tb => tb.v k

def savedAt (s : State) (f i : Nat) : Option Saved := (s.frames f).bind fun fr => fr.saved i

def freeStrs (s : State) (ids : List Nat) : State := { s with freedStrs := s.freedStrs ++ ids }

def setTable (s : State) (t : Nat) (tb : Option Table) : State :=
  { s with tables := Function.update s.tables t tb }

def setSlot (s : State) (t : Nat) (tb : Table) (k : Nat) (e : Option Entry) (count : Nat) : State :=
  setTable s t (some ⟨Function.update tb.v k e, count⟩)

def setSaved (s : State) (f : Nat) (fr : Frame) (i : Nat) (sv : Option Saved) (n : Nat) : State :=
  { s with frames := Function.update s.frames f (some
    { fr with saved := Function.update fr.saved i sv, n }) }

end Heap

section Table

def find (tb : Table) (name : Text) : Option Nat :=
  (List.range envMax).find? fun i => (tb.v i).any (·.name.text == name)

def freeSlot (tb : Table) : Option Nat := (List.range envMax).find? fun i => (tb.v i).isNone

def isLetter (c : Char) : Bool := ('A' ≤ c && c ≤ 'Z') || ('a' ≤ c && c ≤ 'z') || c == '_'

def envNameOk (name : Text) : Bool :=
  name.head?.any isLetter && name.tail.all (fun c => isLetter c || ('0' ≤ c && c ≤ '9')) &&
    decide (name.length ≤ envNameMax)

end Table

section Operations

/-- `espix_env_get`: the session's own variables before the machine's. -/
def envGet (system : Text → Option Text) (s : State) (a : Nat) (name : Text) : Option Text :=
  match (envOf s a).bind s.tables with
  | none => system name
  | some tb =>
    match (find tb name).bind tb.v with
    | none => system name
    | some e => some e.value.text

def withTable (s : State) (a : Nat) (op : State → Nat → Table → State) : State :=
  match envOf s a with
  | none => s
  | some t =>
    match s.tables t with
    | none => { s with fault := true }
    | some tb => op s t tb

def setIn (name value : Text) (exported : Bool) (mem : Mem) (s : State) (t : Nat)
    (tb : Table) : State :=
  if !mem.value then s
  else
    let copy : Str := ⟨s.nextStr, value⟩
    let made := { s with nextStr := s.nextStr + 1 }
    match find tb name with
    | some i =>
      match tb.v i with
      | none => s
      | some e =>
        setSlot (freeStrs made [e.value.id]) t tb i
          (some { e with value := copy, exported := e.exported || exported }) tb.count
    | none =>
      match freeSlot tb with
      | none => freeStrs made [copy.id]
      | some i =>
        if !mem.name then freeStrs made [copy.id]
        else
          setSlot { s with nextStr := s.nextStr + 2 } t tb i
            (some ⟨⟨s.nextStr + 1, name⟩, copy, exported⟩) (tb.count + 1)

def ensureTable (s : State) (a : Nat) (mem : Mem) : State :=
  match s.sessions a with
  | none => s
  | some x =>
    if x.env = none ∧ mem.table = true then
      { setTable s s.nextTable (some emptyTable) with
        sessions := Function.update s.sessions a (some { x with env := some s.nextTable })
        nextTable := s.nextTable + 1 }
    else s

def envSet (s : State) (a : Nat) (name value : Text) (exported : Bool) (mem : Mem) : State :=
  if !envNameOk name || decide (envValueMax < value.length) then s
  else withTable (ensureTable s a mem) a (setIn name value exported mem)

def unsetIn (name : Text) (s : State) (t : Nat) (tb : Table) : State :=
  match find tb name with
  | none => s
  | some i =>
    match tb.v i with
    | none => s
    | some e => setSlot (freeStrs s [e.name.id, e.value.id]) t tb i none (tb.count - 1)

def envUnset (s : State) (a : Nat) (name : Text) : State := withTable s a (unsetIn name)

def tableStrs (tb : Table) : List Nat :=
  (List.range envMax).flatMap fun k =>
    match tb.v k with
    | none => []
    | some e => [e.name.id, e.value.id]

def envFree (s : State) (a : Nat) : State :=
  match s.sessions a with
  | none => s
  | some x =>
    match x.env with
    | none => s
    | some t =>
      match s.tables t with
      | none => { s with fault := true }
      | some tb =>
        { setTable (freeStrs s (tableStrs tb)) t none with
          freedTables := s.freedTables ++ [t]
          sessions := Function.update s.sessions a (some { x with env := none }) }

def detach (f : Nat) (fr : Frame) (s : State) (t : Nat) (tb : Table) (i : Nat)
    (e : Entry) : State :=
  setSaved (setSlot s t tb i none (tb.count - 1)) f fr fr.n
    (some ⟨e.name, some e.value, e.exported, true⟩) (fr.n + 1)

def remember (f : Nat) (fr : Frame) (s : State) (name : Text) : State :=
  setSaved { s with nextStr := s.nextStr + 1 } f fr fr.n
  (some ⟨⟨s.nextStr, name⟩, none, false, false⟩)
    (fr.n + 1)

/-- The shadowing of `espix_env_scope_set`; `none` where the call stops. -/
def shadow (s : State) (a f : Nat) (fr : Frame) (name : Text) (mem : Mem) : Option State :=
  let new := if mem.saved then some (remember f fr s name) else none
  match envOf s a with
  | none => new
  | some t =>
    match s.tables t with
    | none => some { s with fault := true }
    | some tb =>
      match find tb name with
      | none => new
      | some i => (tb.v i).map (detach f fr s t tb i)

def scopeSet (s : State) (a f : Nat) (fr : Frame) (name value : Text) (mem : Mem) : State :=
  if envScopeMax ≤ fr.n then s
  else
    match shadow s a f fr name mem with
    | none => s
    | some s => envSet s a name value true mem

def savedStrs (sv : Saved) : List Nat := sv.name.id :: (sv.value.map (·.id)).toList

def exportIn (name : Text) (exported : Bool) (s : State) (t : Nat) (tb : Table) : State :=
  match find tb name with
  | none => s
  | some i =>
    match tb.v i with
    | none => s
    | some e => setSlot s t tb i (some { e with exported }) tb.count

def scopeKeep (s : State) (a f : Nat) (fr : Frame) (name : Text) : State :=
  match (List.range fr.n).find? fun i => (fr.saved i).any (·.name.text == name) with
  | none => s
  | some i =>
    match fr.saved i with
    | none => s
    | some sv =>
      let s := withTable s a (exportIn name (sv.existed && sv.exported))
      setSaved (freeStrs s (savedStrs sv)) f fr i none fr.n

def attachIn (f : Nat) (fr : Frame) (i : Nat) (name value : Str) (exported : Bool)
    (s : State) (t : Nat)
    (tb : Table) : State :=
  match freeSlot tb with
  | none => setSaved s f fr i none fr.n
  | some k =>
    setSaved (setSlot s t tb k (some ⟨name, value, exported⟩) (tb.count + 1)) f fr i none fr.n

def undo (a f : Nat) (s : State) (i : Nat) : State :=
  match s.frames f with
  | none => s
  | some fr =>
    match fr.saved i with
    | none => s
    | some sv =>
      let s := envUnset s a sv.name.text
      match sv.existed, sv.value with
      | true, some value =>
        if envOf s a = none then setSaved s f fr i none fr.n
        else withTable s a (attachIn f fr i sv.name value sv.exported)
      | _, _ => setSaved (freeStrs s [sv.name.id]) f fr i none fr.n

def scopeEnd (s : State) (a f : Nat) (fr : Frame) : State :=
  let s := (List.range fr.n).reverse.foldl (undo a f) s
  { s with frames := Function.update s.frames f none }

end Operations

inductive Event
  | login (a : Nat)
  | set (a : Nat) (name value : Text) (exported : Bool) (mem : Mem)
  | unset (a : Nat) (name : Text)
  | begin (a f : Nat)
  | scopeSet (f : Nat) (name value : Text) (mem : Mem)
  | scopeKeep (f : Nat) (name : Text)
  | scopeEnd (f : Nat)
  /-- `start_background_job`, or a stage of `run_pipeline`: the record `b` is `*s`. -/
  | copy (a b : Nat)
  /-- The job or the stage is done, and its record is freed. -/
  | finish (b : Nat)
  /-- `espix_shell_session_end`; a builtin is only asked to stop, and may be left. -/
  | hangup (a : Nat) (left : Nat → Bool)
  | logout (a : Nat)

def setLines (s : State) (a : Nat) (change : Nat → Nat) : State :=
  let session := (s.sessions a).map fun x => { x with lines := change x.lines }
  { s with sessions := Function.update s.sessions a session }

def startedUnder (s : State) (a b : Nat) : Bool := (s.sessions b).any fun x => x.parent == some a

def gone (s : State) (a : Nat) (left : Nat → Bool) (b : Nat) : Bool := startedUnder s a b && !left b

def hangup (s : State) (a : Nat) (left : Nat → Bool) : State :=
  { s with
    sessions := fun b =>
      if gone s a left b then none
      else if b = a then (s.sessions a).map fun x => { x with ended := true }
      else s.sessions b
    frames := fun f => if (s.frames f).any fun fr => gone s a left fr.session then
      none else s.frames f }

def step (s : State) : Event → Option State
  | .login a =>
    if (s.sessions a).isSome then none
    else some { s with sessions := Function.update s.sessions a (some ⟨none, none, 0, false⟩) }
  | .set a name value exported mem => (s.sessions a).map fun _ => envSet s a name value exported mem
  | .unset a name => (s.sessions a).map fun _ => envUnset s a name
  | .begin a f =>
    if (s.sessions a).isNone || (s.frames f).isSome then none
    else
      some (setLines { s with frames := Function.update s.frames f (some ⟨a, fun _ => none, 0⟩) } a
        (· + 1))
  | .scopeSet f name value mem =>
      (s.frames f).map fun fr => scopeSet s fr.session f fr name value mem
  | .scopeKeep f name => (s.frames f).map fun fr => scopeKeep s fr.session f fr name
  | .scopeEnd f =>
      (s.frames f).map fun fr => setLines (scopeEnd s fr.session f fr) fr.session (· - 1)
  | .copy a b =>
    if (s.sessions b).isSome || (s.sessions a).any (·.ended) then none
    else
      (s.sessions a).map fun x =>
        { s with sessions := Function.update s.sessions b (some ⟨x.env, some a, 0, false⟩) }
  | .finish b =>
    if (s.sessions b).any fun x => x.parent.isSome && x.lines == 0 then
      some { s with sessions := Function.update s.sessions b none }
    else none
  | .hangup a left =>
    if (s.sessions a).any fun x => x.parent.isNone && x.lines == 0 then
      some (hangup s a left) else none
  | .logout a =>
    if (s.sessions a).any fun x => x.parent.isNone && x.ended && x.lines == 0 then
      let s := envFree s a
      some { s with sessions := Function.update s.sessions a none }
    else none

def start : State := ⟨fun _ => none, fun _ => none, fun _ => none, 0, 0, [], [], false⟩

end Espix.Shell.Env
