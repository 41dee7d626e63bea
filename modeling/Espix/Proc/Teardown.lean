import Espix.Lib.Run
import Espix.Proc.Tasks

/-! The end of a process.

A process is taken down by its own task, in `espix_proc_reap_self`, or by one of the tasks in
`proc_force_kill`. Each section under the table lock is one step, and so is each call between two of
them. A slot is reached by its index, whatever it holds by then. A process is told from the next one
in its slot by a number it gets at the spawn, which is also its task's handle. -/

namespace Espix.Proc.Teardown

open Function Lib.Run
open Tasks (Kind)

structure Process where
  serial : Nat
  pid : Int
  kind : Kind
  task : Option Nat
  deriving DecidableEq

structure Slot where
  proc : Option Process
  exiting : Bool
  loading : Bool
  stopRequested : Bool
  deriving DecidableEq

def Slot.zero : Slot := ⟨none, false, false, false⟩

inductive Own
  | loading
  | running
  /-- Killed while it loaded, and on the way to `done`. -/
  | returned
  /-- Past `done`, closing the streams. -/
  | leaving
  | releasing
  | finishing
  | ending
  | suspended
  | deleted
  deriving DecidableEq

structure Task where
  slot : Nat
  kind : Kind
  phase : Own
  deriving DecidableEq

inductive Kill
  | finding
  | unwinding (task : Option Nat)
  | deciding
  | deleting (i : Nat) (task : Option Nat)
  | releasing (i : Nat)
  | finishing (i : Nat)
  | returned
  deriving DecidableEq

def Kill.takenSlot : Kill → Option Nat
  | .deleting i _ | .releasing i | .finishing i => some i
  | _ => none

/-- A forced kill, by a task of the process `self` or of none. -/
structure Killer where
  pid : Int
  self : Option Nat
  mainTask : Bool
  phase : Kill
  deriving DecidableEq

def Killer.current (killer : Killer) : Option Nat := if killer.mainTask then killer.self else none

structure State where
  slots : Nat → Slot
  tasks : Nat → Option Task
  killers : Nat → Option Killer
  /-- How often each process's resources were released, its finish recorded and its task deleted. -/
  released : Nat → Nat
  recorded : Nat → Nat
  deletions : Nat → Nat
  /-- Releases and finishes of a free slot. -/
  stray : Nat

def boot : State :=
  ⟨fun _ => .zero, fun _ => none, fun _ => none, fun _ => 0, fun _ => 0, fun _ => 0, 0⟩

inductive Event
  | spawn (n : Nat) (kind : Kind) (pid : Int)
  | loaded (n : Nat)
  | done (n : Nat)
  | reap (n : Nat)
  | release (n : Nat)
  | finish (n : Nat)
  | taskEnd (n : Nat)
  | kill (k : Nat) (pid : Int) (self : Option Nat) (mainTask : Bool)
  | find (k : Nat)
  | unwind (k : Nat)
  | decide (k : Nat)
  | delete (k : Nat)
  | killRelease (k : Nat)
  | killFinish (k : Nat)

def bump (count : Nat → Nat) (n : Nat) : Nat → Nat := Function.update count n (count n + 1)

def setSlot (s : State) (i : Nat) (slot : Slot) : State :=
  { s with slots := Function.update s.slots i slot }

def setOwn (s : State) (n : Nat) (task : Task) (phase : Own) : State :=
  { s with tasks := Function.update s.tasks n (some { task with phase }) }

def setKill (s : State) (k : Nat) (killer : Killer) (phase : Kill) : State :=
  { s with killers := Function.update s.killers k (some { killer with phase }) }

def releaseResources (s : State) (i : Nat) : State :=
  match (s.slots i).proc with
  | some p => { s with released := bump s.released p.serial }
  | none => { s with stray := s.stray + 1 }

/-- How many records a process leaves: a shell or a kernel task leaves none. -/
def records (kind : Kind) : Nat := if kind ≠ .session ∧ kind ≠ .kthread then 1 else 0

def procFinish (s : State) (i : Nat) : State :=
  match (s.slots i).proc with
  | some p =>
    { setSlot s i .zero with
      recorded := Function.update s.recorded p.serial (s.recorded p.serial + records p.kind) }
  | none => { setSlot s i .zero with stray := s.stray + 1 }

def taskDelete (s : State) (n : Nat) : State :=
  { s with
    deletions := bump s.deletions n
    tasks :=
      Function.update s.tasks n ((s.tasks n).map fun task => { task with phase := .deleted }) }

def taskSuspend (s : State) (n : Nat) : State :=
  { s with tasks := Function.update s.tasks n ((s.tasks n).map fun task =>
    { task with phase := .suspended }) }

def own (s : State) (n : Nat) (phases : List Own) : Option Task :=
  (s.tasks n).filter fun task => task.phase ∈ phases

variable (procMax : Nat)

def procFind (s : State) (pid : Int) : Option Nat :=
  (List.range procMax).find? fun i => (s.slots i).proc.any (·.pid == pid)

/-- The first section. A signal to a process that is not an app is a stop request, and none to a
kernel task or a shell. -/
def firstLook (s : State) (k : Nat) (killer : Killer) : State :=
  match procFind procMax s killer.pid with
  | none => setKill s k killer (.unwinding none)
  | some i =>
    match (s.slots i).proc with
    | none => setKill s k killer (.unwinding none)
    | some pre =>
      if pre.kind ≠ .app then
        if pre.kind = .kthread ∨ pre.kind = .session then setKill s k killer .returned
        else setKill (setSlot s i { s.slots i with stopRequested := true }) k killer .returned
      else if killer.self = some pre.serial then
        setKill (setSlot s i { s.slots i with stopRequested := true }) k killer .returned
      else setKill s k killer (.unwinding pre.task)

/-- `kill_unwind`. Its wait may end at any time. -/
def killUnwind (s : State) (k : Nat) (killer : Killer) (task : Option Nat) : State :=
  if task = none ∨ task = killer.current then setKill s k killer .deciding
  else
    match procFind procMax s killer.pid with
    | none => setKill s k killer .deciding
    | some i => setKill (setSlot s i { s.slots i with stopRequested := true }) k killer .deciding

def decideKill (s : State) (k : Nat) (killer : Killer) : State :=
  match procFind procMax s killer.pid with
  | none => setKill s k killer .returned
  | some i =>
    let slot := s.slots i
    match slot.proc with
    | none => setKill s k killer .returned
    | some p =>
      if slot.exiting then setKill s k killer .returned
      else if slot.loading then
        setKill (setSlot s i { slot with stopRequested := true }) k killer .returned
      else
        match p.task with
        | none => setKill s k killer .returned
        | some h =>
          if killer.current = some h then
            setKill (setSlot s i { slot with proc := some { p with task := none } }) k killer
              (.deleting i none)
          else
            setKill (setSlot (taskSuspend s h) i
              { slot with proc := some { p with task := none } }) k killer
              (.deleting i (some h))

def allocSlot (s : State) : Option Nat :=
  (List.range procMax).find? fun i => (s.slots i).proc.isNone

def step (s : State) : Event → Option State
  | .spawn n kind pid =>
    if (s.tasks n).isSome then none
    else
      (allocSlot procMax s).map fun i =>
        let slot := s.slots i
        { setSlot s i { slot with
            proc := some ⟨n, pid, kind, some n⟩
            loading := slot.loading || kind = .app } with
          tasks :=
            Function.update s.tasks n (some ⟨i, kind, if kind = .app then .loading else .running⟩) }
  | .loaded n =>
    (own s n [.loading]).map fun task =>
      let slot := s.slots task.slot
      setOwn (setSlot s task.slot { slot with loading := false }) n task
        (if slot.stopRequested then .returned else .running)
  | .done n =>
    (own s n [.loading, .running, .returned]).bind fun task =>
      if task.kind = .app then
        some
          (setOwn (setSlot s task.slot { s.slots task.slot with exiting := true }) n task .leaving)
      else none
  | .reap n =>
    (own s n [.running, .leaving]).bind fun task =>
      if task.kind = .app ∧ task.phase = .running then none
      else
        let slot := s.slots task.slot
        if slot.proc.bind Process.task = some n then
          some (setOwn (setSlot s task.slot { slot with exiting := true }) n task .releasing)
        else some (setOwn s n task .suspended)
  | .release n =>
      (own s n [.releasing]).map fun task => setOwn (releaseResources s task.slot) n task .finishing
  | .finish n =>
      (own s n [.finishing]).map fun task => setOwn (procFinish s task.slot) n task .ending
  | .taskEnd n => (own s n [.ending]).map fun _ => taskDelete s n
  | .kill k pid self mainTask =>
    if (s.killers k).isSome then none
    else some (setKill s k ⟨pid, self, mainTask, .finding⟩ .finding)
  | .find k =>
    match s.killers k with
    | some killer => if killer.phase = .finding then some (firstLook procMax s k killer) else none
    | none => none
  | .unwind k =>
    match s.killers k with
    | some killer =>
      match killer.phase with
      | .unwinding task => some (killUnwind procMax s k killer task)
      | _ => none
    | none => none
  | .decide k =>
    match s.killers k with
    | some killer => if killer.phase = .deciding then some (decideKill procMax s k killer) else none
    | none => none
  | .delete k =>
    match s.killers k with
    | some killer =>
      match killer.phase with
      | .deleting i (some h) => some (setKill (taskDelete s h) k killer (.releasing i))
      | .deleting i none => some (setKill s k killer (.releasing i))
      | _ => none
    | none => none
  | .killRelease k =>
    match s.killers k with
    | some killer =>
      match killer.phase with
      | .releasing i => some (setKill (releaseResources s i) k killer (.finishing i))
      | _ => none
    | none => none
  | .killFinish k =>
    match s.killers k with
    | some killer =>
      match killer.phase with
      | .finishing i => some (setKill (procFinish s i) k killer .returned)
      | _ => none
    | none => none

def Own.atEnd : Own → Bool
  | .ending | .suspended | .deleted => true
  | _ => false

structure Held (s : State) : Prop where
  placed : ∀ i p, (s.slots i).proc = some p → 
    ∃ task, s.tasks p.serial = some task ∧ task.slot = i ∧ task.kind = p.kind
  owned : ∀ i p h, (s.slots i).proc = some p → p.task = some h →
    h = p.serial ∧ ∀ task, s.tasks h = some task → task.phase.atEnd = false
  taken : ∀ i p, (s.slots i).proc = some p → p.task = none →
    ∃ k killer, s.killers k = some killer ∧ killer.phase.takenSlot = some i
  killer : ∀ k killer i, s.killers k = some killer → killer.phase.takenSlot = some i →
    ∃ p, (s.slots i).proc = some p ∧ p.task = none ∧
      ∀ h, killer.phase = .deleting i (some h) → h = p.serial ∧ ∃ task, s.tasks h = some task ∧
      task.phase = .suspended
  alone : ∀ k l one other i, s.killers k = some one → s.killers l = some other →
    one.phase.takenSlot = some i → other.phase.takenSlot = some i → k = l
  holding : ∀ n task, s.tasks n = some task → task.phase = .releasing ∨ task.phase = .finishing →
    (s.slots task.slot).exiting = true ∧ ∃ p, (s.slots task.slot).proc = some p ∧
    p.serial = n ∧ p.task = some n
  kernel : ∀ n task, s.tasks n = some task → task.kind ≠ .app →
    task.phase ≠ .loading ∧ task.phase ≠ .returned ∧ task.phase ≠ .leaving

/-- What has been done to each process, by where the one who does it stands. -/
structure Counted (s : State) : Prop where
  stray : s.stray = 0
  fresh : ∀ n, s.tasks n = none → s.released n = 0 ∧ s.recorded n = 0 ∧ s.deletions n = 0
  live : ∀ i p, (s.slots i).proc = some p → s.recorded p.serial = 0
  own : ∀ i p task, (s.slots i).proc = some p → p.task = some p.serial →
    s.tasks p.serial = some task →
    s.released p.serial = if task.phase = .finishing then 1 else 0
  killed : ∀ i p k killer, (s.slots i).proc = some p → s.killers k = some killer →
    killer.phase.takenSlot = some i →
    s.released p.serial = if killer.phase = .finishing i then 1 else 0
  deleted : ∀ n task, s.tasks n = some task → s.deletions n = if task.phase = .deleted then 1 else 0
  left : ∀ n task, s.tasks n = some task → (∀ p, (s.slots task.slot).proc = some p → p.serial ≠ n) →
    s.released n = 1 ∧ s.recorded n = records task.kind

structure Sound (s : State) : Prop extends Held s, Counted s

theorem sound_boot : Sound boot := by
  constructor <;> constructor <;> simp [boot, Slot.zero]

section Steps

variable {procMax} {s t : State} {i : Option Nat} {n : Nat} {phases : List Own} {e : Event}

/-- What `Sound` says of one process, with the slot it is in if there is one. -/
structure Local (s : State) (i : Option Nat) (n : Nat) : Prop where
  here : ∀ j p, (s.slots j).proc = some p → (some j = i ↔ p.serial = n)
  placed : ∀ j p, some j = i → (s.slots j).proc = some p →
    ∃ task, s.tasks n = some task ∧ task.slot = j ∧ task.kind = p.kind
  owned : ∀ j p h, some j = i → (s.slots j).proc = some p → p.task = some h →
    h = n ∧ ∀ task, s.tasks n = some task → task.phase.atEnd = false
  taken : ∀ j p, some j = i → (s.slots j).proc = some p → p.task = none →
    ∃ k killer, s.killers k = some killer ∧ killer.phase.takenSlot = some j
  killer : ∀ k killer j, some j = i → s.killers k = some killer → killer.phase.takenSlot = some j →
    ∃ p, (s.slots j).proc = some p ∧ p.task = none ∧
      ∀ h, killer.phase = .deleting j (some h) → h = n ∧ ∃ task, s.tasks n = some task ∧
      task.phase = .suspended
  alone : ∀ k l one other j, some j = i → s.killers k = some one → s.killers l = some other →
    one.phase.takenSlot = some j → other.phase.takenSlot = some j → k = l
  holding : ∀ task, s.tasks n = some task → task.phase = .releasing ∨ task.phase = .finishing →
    some task.slot = i ∧
    (s.slots task.slot).exiting = true ∧ ∃ p, (s.slots task.slot).proc = some p ∧ p.task = some n
  kernel : ∀ task, s.tasks n = some task → task.kind ≠ .app →
    task.phase ≠ .loading ∧ task.phase ≠ .returned ∧ task.phase ≠ .leaving
  fresh : s.tasks n = none → s.released n = 0 ∧ s.recorded n = 0 ∧ s.deletions n = 0
  live : ∀ j p, some j = i → (s.slots j).proc = some p → s.recorded n = 0
  own : ∀ j p task, some j = i → (s.slots j).proc = some p → p.task = some n →
    s.tasks n = some task →
    s.released n = if task.phase = .finishing then 1 else 0
  killed : ∀ p k killer j, some j = i → (s.slots j).proc = some p → s.killers k = some killer →
    killer.phase.takenSlot = some j → s.released n = if killer.phase = .finishing j then 1 else 0
  deleted : ∀ task, s.tasks n = some task → s.deletions n = if task.phase = .deleted then 1 else 0
  left : ∀ task, s.tasks n = some task → (∀ j, some j = i → (s.slots j).proc = none) →
    s.released n = 1 ∧ s.recorded n = records task.kind

/-- A step that concerns one process. Flags of another's slot may change, but `exiting` stays set.
-/
structure Apart (s t : State) (i : Option Nat) (n : Nat) : Prop where
  slots : ∀ j, some j ≠ i →
    (t.slots j).proc = (s.slots j).proc ∧ ((s.slots j).exiting = true → (t.slots j).exiting = true)
  tasks : ∀ m, m ≠ n → t.tasks m = s.tasks m
  killers : ∀ k killer j, killer.phase.takenSlot = some j → some j ≠ i →
    (t.killers k = some killer ↔ s.killers k = some killer)
  counts : ∀ m, m ≠ n → t.released m = s.released m ∧ t.recorded m = s.recorded m ∧
    t.deletions m = s.deletions m
  stray : t.stray = s.stray

theorem Sound.local_of (sound : Sound s)
    (here : ∀ j p, (s.slots j).proc = some p → (some j = i ↔ p.serial = n)) : Local s i n := by
  obtain ⟨⟨placed, owned, taken, killer, alone, holding, kernel⟩,
    ⟨-, fresh, live, own, killed, deleted, left⟩⟩ := sound
  refine ⟨here, ?_, ?_, ?_, fun k one j mine now takes => ?_, ?_, ?_, ?_, ?_, ?_, ?_, ?_, ?_, ?_⟩
  case refine_4 =>
    obtain ⟨p, there, free, deleting⟩ := killer k one j now takes
    refine ⟨p, there, free, fun h deletes => ?_⟩
    have serial := (here j p there).mp mine
    exact serial ▸ (deleting h deletes).1 ▸ deleting h deletes
  all_goals grind -linarith

theorem Sound.inside (sound : Sound s) {j : Nat} {p : Process} (here : (s.slots j).proc = some p) :
    Local s (some j) p.serial := by
  refine sound.local_of fun l q there => ?_
  obtain ⟨one, first, slot⟩ := sound.placed j p here
  obtain ⟨other, second, also⟩ := sound.placed l q there
  grind -linarith

theorem Sound.at (sound : Sound s) (n : Nat) : ∃ i, Local s i n := by
  by_cases home : ∃ j p, (s.slots j).proc = some p ∧ p.serial = n
  · obtain ⟨j, p, here, rfl⟩ := home
    exact ⟨some j, sound.inside here⟩
  · exact ⟨none, sound.local_of (by grind -linarith)⟩

/-- It is enough to look at the process that a step concerns. -/
theorem Sound.change (sound : Sound s) (before : Local s i n) (apart : Apart s t i n)
    (after : Local t i n) :
    Sound t := by
  obtain ⟨⟨placed, owned, taken, killer, alone, holding, kernel⟩,
    ⟨stray, fresh, live, own, killed, deleted, left⟩⟩ := sound
  obtain ⟨slots, tasks, killers, counts, same⟩ := apart
  have other := before.here
  have now_here := after.here
  refine ⟨⟨fun j p there => ?_, fun j p h there => ?_, fun j p there free => ?_,
    fun k one j found takes => ?_,
    fun k l one two j first second takes also => ?_, fun m task found => ?_,
    fun m task found => ?_⟩,
    same.trans stray, fun m unknown => ?_, fun j p there => ?_, fun j p task there => ?_,
    fun j p k one there => ?_,
    fun m task found => ?_, fun m task found away => ?_⟩
  · by_cases mine : some j = i
    · grind -linarith [after.placed j p mine there]
    · grind -linarith
  · by_cases mine : some j = i
    · grind -linarith [after.owned j p h mine there]
    · grind -linarith
  · by_cases mine : some j = i
    · exact after.taken j p mine there free
    · obtain ⟨k, one, found, takes⟩ := taken j p ((slots j mine).1 ▸ there) free
      exact ⟨k, one, (killers k one j takes mine).mpr found, takes⟩
  · by_cases mine : some j = i
    · grind -linarith [after.killer k one j mine found takes]
    · grind -linarith [killer k one j]
  · by_cases mine : some j = i
    · exact after.alone k l one two j mine first second takes also
    · grind -linarith
  · by_cases same : m = n
    · grind -linarith [after.holding task]
    · grind -linarith
  · by_cases same : m = n
    · grind -linarith [after.kernel task]
    · grind -linarith
  · by_cases same : m = n
    · grind -linarith [after.fresh]
    · grind -linarith
  · by_cases mine : some j = i
    · grind -linarith [after.live j p mine there]
    · grind -linarith
  · by_cases mine : some j = i
    · grind -linarith [after.own j p task mine there]
    · grind -linarith
  · by_cases mine : some j = i
    · grind -linarith [after.killed p k one j mine there]
    · grind -linarith
  · by_cases same : m = n
    · grind -linarith [after.deleted task]
    · grind -linarith
  · by_cases same : m = n
    · subst same
      refine after.left task found fun j mine => ?_
      cases there : (t.slots j).proc with
      | none => rfl
      | some p => grind -linarith [after.placed j p mine there]
    · grind -linarith [left m task]

theorem own_some {task : Task} (found : own s n phases = some task) :
    s.tasks n = some task ∧ task.phase ∈ phases := by
  obtain ⟨here, inside⟩ := Option.filter_eq_some_iff.mp found
  exact ⟨here, of_decide_eq_true inside⟩

section Own

variable (sound : Sound s)

include sound

def newTask (i : Nat) (kind : Kind) : Task := ⟨i, kind, if kind = .app then .loading else .running⟩

theorem Sound.spawn {kind : Kind} {pid : Int}
    (stepped : step procMax s (.spawn n kind pid) = some t) : Sound t := by
  obtain ⟨new, stepped⟩ := Option.ite_none_left_eq_some.mp stepped
  obtain ⟨i, free, rfl⟩ := Option.map_eq_some_iff.mp stepped
  have empty : (s.slots i).proc = none := Option.isNone_iff_eq_none.mp (List.find?_some free :)
  have unknown := Option.not_isSome_iff_eq_none.mp new
  have before : Local s (some i) n := sound.local_of fun j p there => by
    grind -linarith [sound.placed j p there]
  refine sound.change
    (t := { setSlot s i _ with tasks := update s.tasks n (some (newTask i kind)) }) before ?_ ?_
  all_goals
    cases before
    constructor <;> simp only [setSlot, newTask, update_apply] <;> grind -linarith [Own.atEnd]

theorem Sound.moves (which : e = .loaded n ∨ e = .taskEnd n) (stepped : step procMax s e = some t) :
    Sound t := by
  obtain ⟨i, before⟩ := sound.at n
  rcases which with rfl | rfl
  all_goals
    obtain ⟨task, at_work, rfl⟩ := Option.map_eq_some_iff.mp stepped
    obtain ⟨found, phase⟩ := own_some at_work
    refine sound.change before ?_ ?_
    all_goals
      cases before
      constructor <;> simp only [setOwn, setSlot, taskDelete, bump, update_apply] <;>
        grind -linarith [Own.atEnd]

theorem Sound.takes (which : e = .release n ∨ e = .finish n) (stepped : step procMax s e = some t) :
    Sound t := by
  rcases which with rfl | rfl
  all_goals
    obtain ⟨task, at_work, rfl⟩ := Option.map_eq_some_iff.mp stepped
    obtain ⟨found, phase⟩ := own_some at_work
    obtain ⟨-, p, there, rfl, mine⟩ := sound.holding n task found (by grind -linarith)
    have before := sound.inside there
    simp only [releaseResources, procFinish, there]
    refine sound.change before ?_ ?_
    all_goals
      cases before
      constructor <;> simp only [setOwn, setSlot, bump, update_apply] <;>
        grind -linarith [Own.atEnd, Slot.zero, records]

theorem Sound.done (stepped : step procMax s (.done n) = some t) : Sound t := by
  obtain ⟨task, at_work, left⟩ := Option.bind_eq_some_iff.mp stepped
  obtain ⟨found, phase⟩ := own_some at_work
  obtain ⟨i, before⟩ := sound.at n
  split at left
  · cases left
    refine sound.change before ?_ ?_
    all_goals
      cases before
      constructor <;> simp only [setOwn, setSlot, update_apply] <;> grind -linarith [Own.atEnd]
  · cases left

theorem Sound.reap (stepped : step procMax s (.reap n) = some t) : Sound t := by
  obtain ⟨task, at_work, reaped⟩ := Option.bind_eq_some_iff.mp stepped
  obtain ⟨found, phase⟩ := own_some at_work
  obtain ⟨i, before⟩ := sound.at n
  split at reaped
  · cases reaped
  · dsimp only at reaped
    split at reaped
    · rename_i ours
      obtain ⟨p, there, mine⟩ := Option.bind_eq_some_iff.mp ours
      have serial := (sound.owned _ _ _ there mine).1
      cases reaped
      refine sound.change before ?_ ?_
      all_goals
        cases before
        constructor <;> simp only [setOwn, setSlot, update_apply] <;> grind -linarith [Own.atEnd]
    · cases reaped
      refine sound.change before ?_ ?_
      all_goals
        cases before
        constructor <;> simp only [setOwn, update_apply] <;> grind -linarith [Own.atEnd]

end Own

section Kill

variable (sound : Sound s) {k : Nat} {killer : Killer}

include sound

theorem Sound.idle {phase : Kill} (before : ∀ old, s.killers k = some old →
    old.phase.takenSlot = none)
    (after : phase.takenSlot = none) : Sound (setKill s k killer phase) := by
  obtain ⟨i, here⟩ := sound.at 0
  refine sound.change here ?_ ?_
  all_goals
    cases here
    constructor <;> simp only [setKill, update_apply] <;> grind -linarith

theorem Sound.asked (j : Nat) : Sound (setSlot s j { s.slots j with stopRequested := true }) := by
  obtain ⟨i, here⟩ := sound.at 0
  refine sound.change here ?_ ?_
  all_goals
    cases here
    constructor <;> simp only [setSlot, update_apply] <;> grind -linarith

theorem Sound.firstLook (before : ∀ old, s.killers k = some old → old.phase.takenSlot = none) :
    Sound (firstLook procMax s k killer) := by
  fun_cases Teardown.firstLook procMax s k killer with
  | case1 | case2 | case3 | case6 => exact sound.idle before rfl
  | case4 | case5 => exact (sound.asked _).idle before rfl

theorem Sound.killUnwind {task : Option Nat} (before : ∀ old, s.killers k = some old →
    old.phase.takenSlot = none) :
    Sound (killUnwind procMax s k killer task) := by
  fun_cases Teardown.killUnwind procMax s k killer task with
  | case1 | case2 => exact sound.idle before rfl
  | case3 => exact (sound.asked _).idle before rfl

variable (found : s.killers k = some killer)

include found

theorem Sound.decideKill (deciding : killer.phase = .deciding) :
    Sound (decideKill procMax s k killer) := by
  have before : ∀ old, s.killers k = some old → old.phase.takenSlot = none := by
    grind -linarith [Kill.takenSlot]
  fun_cases Teardown.decideKill procMax s k killer with
  | case1 | case2 | case3 | case5 => exact sound.idle before rfl
  | case4 => exact (sound.asked _).idle before rfl
  | case6 i _ slot p here alive _ h mine self =>
    obtain ⟨rfl, -⟩ := sound.owned i p h here mine
    have inside := sound.inside here
    refine sound.change inside ?_ ?_
    all_goals
      cases inside
      constructor <;> simp only [setKill, setSlot, update_apply] <;>
        grind -linarith [Kill.takenSlot]
  | case7 i _ slot p here alive _ h mine other =>
    obtain ⟨rfl, -⟩ := sound.owned i p h here mine
    have inside := sound.inside here
    refine sound.change inside ?_ ?_
    all_goals
      cases inside
      constructor <;> simp only [setKill, setSlot, taskSuspend, update_apply] <;>
        grind -linarith [Kill.takenSlot, Own.atEnd]

variable {i : Nat}

theorem Sound.undeleted (deleting : killer.phase = .deleting i none) :
    Sound (setKill s k killer (.releasing i)) := by
  obtain ⟨p, here, free, -⟩ := sound.killer k killer i found (by rw [deleting]; rfl)
  have inside := sound.inside here
  refine sound.change inside ?_ ?_
  all_goals
    cases inside
    constructor <;> simp only [setKill, update_apply] <;> grind -linarith [Kill.takenSlot]

theorem Sound.delete {h : Nat} (deleting : killer.phase = .deleting i (some h)) :
    Sound (setKill (taskDelete s h) k killer (.releasing i)) := by
  obtain ⟨p, here, free, suspended⟩ := sound.killer k killer i found (by rw [deleting]; rfl)
  obtain ⟨rfl, task, there, asleep⟩ := suspended h deleting
  have inside := sound.inside here
  refine sound.change inside ?_ ?_
  all_goals
    cases inside
    constructor <;> simp only [setKill, taskDelete, bump, update_apply] <;>
      grind -linarith [Kill.takenSlot]

theorem Sound.killRelease (releasing : killer.phase = .releasing i) :
    Sound (setKill (releaseResources s i) k killer (.finishing i)) := by
  obtain ⟨p, here, free, -⟩ := sound.killer k killer i found (by rw [releasing]; rfl)
  have inside := sound.inside here
  simp only [releaseResources, here]
  refine sound.change inside ?_ ?_
  all_goals
    cases inside
    constructor <;> simp only [setKill, bump, update_apply] <;> grind -linarith [Kill.takenSlot]

theorem Sound.killFinish (finishing : killer.phase = .finishing i) :
    Sound (setKill (procFinish s i) k killer .returned) := by
  obtain ⟨p, here, free, -⟩ := sound.killer k killer i found (by rw [finishing]; rfl)
  have inside := sound.inside here
  simp only [procFinish, here]
  refine sound.change inside ?_ ?_
  all_goals
    cases inside
    constructor <;> simp only [setKill, setSlot, update_apply] <;>
      grind -linarith [Kill.takenSlot, Slot.zero, records]

end Kill

theorem killer_some {k : Nat} {go : Killer → Option State}
    (stepped : (match s.killers k with | some killer => go killer | none => none) = some t) :
    ∃ killer, s.killers k = some killer ∧ go killer = some t := by
  split at stepped
  · exact ⟨_, ‹_›, stepped⟩
  · cases stepped

theorem sound_step (sound : Sound s) (stepped : step procMax s e = some t) : Sound t := by
  cases e
  case spawn n kind pid => exact sound.spawn stepped
  case loaded n | taskEnd n => exact sound.moves (n := n) (by simp) stepped
  case done n => exact sound.done stepped
  case reap n => exact sound.reap stepped
  case release n | finish n => exact sound.takes (n := n) (by simp) stepped
  case kill k pid self mainTask =>
    obtain ⟨new, ⟨⟩⟩ := Option.ite_none_left_eq_some.mp stepped
    refine sound.idle (fun old now => ?_) rfl
    rw [now] at new
    exact absurd rfl new
  -- the others are a killer's
  all_goals obtain ⟨killer, found, stepped⟩ := killer_some stepped
  case find k =>
    obtain ⟨finding, ⟨⟩⟩ := Option.ite_none_right_eq_some.mp stepped
    exact sound.firstLook (by grind -linarith [Kill.takenSlot])
  case unwind k =>
    split at stepped
    · cases stepped
      exact sound.killUnwind (by grind -linarith [Kill.takenSlot])
    · cases stepped
  case decide k =>
    obtain ⟨deciding, ⟨⟩⟩ := Option.ite_none_right_eq_some.mp stepped
    exact sound.decideKill found deciding
  case delete k =>
    split at stepped
    · rename_i i h deleting
      cases stepped
      exact sound.delete found deleting
    · rename_i i deleting
      cases stepped
      exact sound.undeleted found deleting
    · cases stepped
  case killRelease k =>
    split at stepped
    · rename_i i releasing
      cases stepped
      exact sound.killRelease found releasing
    · cases stepped
  case killFinish k =>
    split at stepped
    · rename_i i finishing
      cases stepped
      exact sound.killFinish found finishing
    · cases stepped

theorem proc_setSlot (i j : Nat) (slot : Slot) :
    ((setSlot s i slot).slots j).proc = if j = i then slot.proc else (s.slots j).proc := by
  simp only [setSlot, update_apply, apply_ite Slot.proc]

theorem procFinish_some {i : Nat} {p : Process} (here : (s.slots i).proc = some p) :
    procFinish s i = { setSlot s i .zero with
      recorded := update s.recorded p.serial (s.recorded p.serial + records p.kind) } := by
  rw [procFinish, here]

/-- The process can be brought to its end, and is taken down once. -/
def Completes (procMax : Nat) (s : State) (n : Nat) (kind : Kind) : Prop :=
  ∃ more t, run (step procMax) s more = some t ∧ t.released n = 1 ∧ t.recorded n = records kind

theorem Completes.before {n : Nat} {kind : Kind} (stepped : step procMax s e = some t)
    (completes : Completes procMax t n kind) : Completes procMax s n kind := by
  obtain ⟨more, u, done, once⟩ := completes
  exact ⟨e :: more, u, by rw [run, stepped]; exact done, once⟩

theorem completes_of_left {n : Nat} {task : Task} (sound : Sound t)
    (stepped : step procMax s e = some t) (found : t.tasks n = some task)
    (cleared : (t.slots task.slot).proc = none) : Completes procMax s n task.kind := by
  refine Completes.before stepped ⟨[], t, rfl, sound.left n task found fun p here => ?_⟩
  rw [cleared] at here
  cases here

section Own

variable {n : Nat} {task : Task}

theorem own_of (found : s.tasks n = some task) (phase : task.phase ∈ phases) :
    own s n phases = some task := Option.filter_eq_some_iff.mpr ⟨found, decide_eq_true phase⟩

theorem setOwn_found {phase : Own} : (setOwn s n task phase).tasks n = some { task with phase } :=
  update_self ..

theorem completes_finishing (sound : Sound s) (found : s.tasks n = some task)
    (phase : task.phase = .finishing) :
    Completes procMax s n task.kind := by
  obtain ⟨-, p, here, -⟩ := sound.holding n task found (.inr phase)
  have stepped :
      step procMax s (.finish n) = some (setOwn (procFinish s task.slot) n task .ending) := by
    rw [step, own_of found (by rw [phase]; simp)]
    rfl
  have cleared : ((procFinish s task.slot).slots task.slot).proc = none := by
    rw [procFinish_some here]
    exact (proc_setSlot ..).trans (if_pos rfl)
  have completes := completes_of_left (sound_step sound stepped) stepped setOwn_found cleared
  exact completes

theorem completes_releasing (sound : Sound s) (found : s.tasks n = some task)
    (phase : task.phase = .releasing) :
    Completes procMax s n task.kind := by
  have stepped : step procMax s (.release n) =
      some (setOwn (releaseResources s task.slot) n task .finishing) := by
    rw [step, own_of found (by rw [phase]; simp)]
    rfl
  have completes := Completes.before stepped
    (completes_finishing (sound_step sound stepped) setOwn_found rfl)
  exact completes

theorem completes_reaping (sound : Sound s) {p : Process} (found : s.tasks n = some task)
    (phase : task.phase = .leaving ∨ task.phase = .running ∧ task.kind ≠ .app)
    (here : (s.slots task.slot).proc = some p) (mine : p.task = some n) :
    Completes procMax s n task.kind := by
  have reaping : task.phase ∈ [Own.running, .leaving] := by
    rcases phase with old | ⟨old, -⟩ <;> rw [old] <;> simp
  have ready : ¬(task.kind = .app ∧ task.phase = .running) := by
    rintro ⟨app, running⟩
    rcases phase with old | ⟨-, kernel⟩
    · rw [running] at old
      cases old
    · exact kernel app
  have stepped : step procMax s (.reap n) =
      some (setOwn (setSlot s task.slot { s.slots task.slot with exiting := true })
          n task .releasing) := by
    rw [step, own_of found reaping, Option.bind_some, if_neg ready]
    exact if_pos (by rw [here]; exact mine)
  have completes := Completes.before stepped
    (completes_releasing (sound.reap stepped) setOwn_found rfl)
  exact completes

theorem completes_own (sound : Sound s) {p : Process} (found : s.tasks n = some task)
    (here : (s.slots task.slot).proc = some p) (mine : p.task = some n) :
    Completes procMax s n task.kind := by
  have lives := (sound.owned _ p n here mine).2 task found
  cases phase : task.phase with
  | leaving => exact completes_reaping sound found (.inl phase) here mine
  | releasing => exact completes_releasing sound found phase
  | finishing => exact completes_finishing sound found phase
  | ending | suspended | deleted =>
    rw [phase] at lives
    cases lives
  | loading | running | returned =>
    by_cases app : task.kind = .app
    swap
    · have kernel := sound.kernel n task found app
      first
        | exact completes_reaping sound found (.inr ⟨phase, app⟩) here mine
        | exact absurd phase kernel.1
        | exact absurd phase kernel.2.1
    · have early : task.phase ∈ [Own.loading, .running, .returned] := by rw [phase]; simp
      have stepped : step procMax s (.done n) =
          some (setOwn (setSlot s task.slot { s.slots task.slot with exiting := true })
              n task .leaving) := by
        rw [step, own_of found early, Option.bind_some, if_pos app]
      have inside := (proc_setSlot (s := s) task.slot task.slot
        { s.slots task.slot with exiting := true }).trans ((if_pos rfl).trans here)
      have completes := Completes.before stepped
        (completes_reaping (sound.done stepped) setOwn_found (.inl rfl) inside mine)
      exact completes

end Own

theorem completes_killed (sound : Sound s) {k i : Nat} {killer : Killer} {p : Process}
    (found : s.killers k = some killer) (takes : killer.phase.takenSlot = some i)
    (here : (s.slots i).proc = some p) : Completes procMax s p.serial p.kind := by
  have finishing : ∀ {t : State} {last : Killer}, Sound t → t.killers k = some last →
      last.phase = .finishing i → (t.slots i).proc = some p →
      Completes procMax t p.serial p.kind := by
    intro t last sound found phase here
    obtain ⟨task, there, slot, kind⟩ := sound.placed i p here
    have stepped : step procMax t (.killFinish k) =
        some (setKill (procFinish t i) k last .returned) := by
      simp only [step, found, phase]
    have kept : (setKill (procFinish t i) k last .returned).tasks p.serial = some task := by
      rw [procFinish_some here]
      exact there
    refine kind ▸ completes_of_left (sound.killFinish found phase) stepped kept ?_
    rw [procFinish_some here, slot]
    exact (proc_setSlot ..).trans (if_pos rfl)
  have releasing : ∀ {t : State} {last : Killer}, Sound t → t.killers k = some last →
      last.phase = .releasing i → (t.slots i).proc = some p →
      Completes procMax t p.serial p.kind := by
    intro t last sound found phase here
    have stepped : step procMax t (.killRelease k) =
        some (setKill (releaseResources t i) k last (.finishing i)) := by
      simp only [step, found, phase]
    refine .before stepped (finishing (sound.killRelease found phase) (update_self ..) rfl ?_)
    rw [releaseResources, here]
    exact here
  cases phase : killer.phase with
  | finishing j =>
    rw [phase] at takes
    cases takes
    exact finishing sound found phase here
  | releasing j =>
    rw [phase] at takes
    cases takes
    exact releasing sound found phase here
  | deleting j target =>
    rw [phase] at takes
    cases takes
    cases target with
    | none =>
      have stepped : step procMax s (.delete k) = some (setKill s k killer (.releasing i)) := by
        simp only [step, found, phase]
      exact .before stepped (releasing (sound.undeleted found phase) (update_self ..) rfl here)
    | some h =>
      have stepped :
          step procMax s (.delete k) = some (setKill (taskDelete s h) k killer (.releasing i)) := by
        simp only [step, found, phase]
      exact .before stepped (releasing (sound.delete found phase) (update_self ..) rfl here)
  | finding | unwinding _ | deciding | returned =>
    rw [phase] at takes
    cases takes

section

variable (sound : Sound s) {n : Nat} {task : Task} (found : s.tasks n = some task)

include sound found

theorem Sound.completes : Completes procMax s n task.kind := by
  by_cases away : ∀ p, (s.slots task.slot).proc = some p → p.serial ≠ n
  · exact ⟨[], s, rfl, sound.left n task found away⟩
  · push Not at away
    obtain ⟨p, here, rfl⟩ := away
    cases mine : p.task with
    | some h =>
      obtain ⟨rfl, -⟩ := sound.owned _ p h here mine
      exact completes_own sound found here mine
    | none =>
      obtain ⟨k, killer, there, takes⟩ := sound.taken _ p here mine
      obtain ⟨same, there', -, kind⟩ := sound.placed _ p here
      obtain rfl : task = same := Option.some.inj (found.symm.trans there')
      exact kind ▸ completes_killed sound there takes here

theorem Sound.at_most_once : s.released n ≤ 1 ∧ s.recorded n ≤ 1 ∧ s.deletions n ≤ 1 := by
  have deletions : s.deletions n ≤ 1 := by
    rw [sound.deleted n task found]
    split <;> omega
  by_cases away : ∀ p, (s.slots task.slot).proc = some p → p.serial ≠ n
  · obtain ⟨released, recorded⟩ := sound.left n task found away
    refine ⟨released.le, ?_, deletions⟩
    rw [recorded, records]
    split <;> omega
  · push Not at away
    obtain ⟨p, here, rfl⟩ := away
    refine ⟨?_, (sound.live _ p here).le.trans (by omega), deletions⟩
    cases mine : p.task with
    | some h =>
      obtain ⟨rfl, -⟩ := sound.owned _ p h here mine
      rw [sound.own _ p task here mine found]
      split <;> omega
    | none =>
      obtain ⟨k, killer, there, takes⟩ := sound.taken _ p here mine
      rw [sound.killed _ p k killer here there takes]
      split <;> omega

theorem Sound.at_rest (ended : task.phase.atEnd = true)
    (idle : ∀ k killer, s.killers k = some killer → killer.phase.takenSlot ≠ some task.slot) :
    s.released n = 1 ∧ s.recorded n = records task.kind := by
  refine sound.left n task found fun p here same => ?_
  cases mine : p.task with
  | some h =>
    obtain ⟨rfl, lives⟩ := sound.owned _ p h here mine
    rw [lives task (same ▸ found)] at ended
    cases ended
  | none =>
    obtain ⟨k, killer, there, takes⟩ := sound.taken _ p here mine
    exact idle k killer there takes

end

end Steps

/-- An app that two kill at once, and then a kernel task that comes to its end by itself. -/
def killedTwice : List Event :=
  [.spawn 0 .app 2, .loaded 0, .kill 0 2 none false, .kill 1 2 none false, .find 0, .find 1,
    .unwind 0, .unwind 1, .decide 0, .decide 1, .delete 0, .killRelease 0, .killFinish 0,
    .spawn 1 .kthread 3, .reap 1, .release 1, .finish 1]

end Espix.Proc.Teardown
