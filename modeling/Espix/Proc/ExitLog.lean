import Espix.Lib.Ring
import Espix.Lib.Run
import Espix.Proc.Tasks

/-! Pids, the completed log and waiting.

`components/espix_proc/proc.c` and the places of `exec.c`, `spawn_fn.c` and `abi_pthread.c` that
hand out a pid. Every step runs under the table lock. -/

namespace Espix.Proc.ExitLog

open Fs.Access (Path)
open Function Lib.Ring Lib.Run
open Tasks (Kind)

/-- The last of `espix_pid_t`, a signed word. -/
def pidLast : Int := 2147483647

def pidAfter (pid : Int) : Int := if pid = pidLast then -2147483648 else pid + 1

def doneMax : Nat := 8

inductive Ending
  | exited
  | faulted
  | killed
  deriving DecidableEq, Repr

structure Slot where
  pid : Int
  ppid : Int
  name : Path
  kind : Kind
  startedUs : Int
  deriving DecidableEq, Repr

/-- `espix_proc_record_t`. An entry nobody wrote is all zero. -/
structure Record where
  pid : Int
  ppid : Int
  name : Path
  state : Option Ending
  exitCode : Int
  startedUs : Int
  endedUs : Int
  reaped : Bool
  deriving DecidableEq, Repr

structure State where
  slots : Nat → Option Slot
  nextPid : Int
  done : Nat → Record
  doneHead : Nat
  doneSeq : Nat

def boot : State := ⟨fun _ => none, 2, fun _ => ⟨0, 0, [], none, 0, 0, 0, false⟩, 0, 0⟩

def recorded (kind : Kind) : Bool := kind != .session && kind != .kthread

def recordOf (slot : Slot) (state : Ending) (exitCode us : Int) : Record :=
  ⟨slot.pid, slot.ppid, slot.name, some state, exitCode, slot.startedUs, us, false⟩

def doneRecord (s : State) (r : Record) : State :=
  { s with
    done := Function.update s.done s.doneHead r
    doneHead := (s.doneHead + 1) % doneMax
    doneSeq := (s.doneSeq + 1) % 2 ^ 32 }

def doneFind (s : State) (pid : Int) : Option Nat :=
  (List.range doneMax).find? fun i => decide (0 < (s.done i).pid) && (s.done i).pid == pid

/-- `espix_proc_history`: the log, oldest first, so many entries at most. -/
def procHistory (s : State) (n : Nat) : List Record :=
  let wrapped := doneMax ≤ s.doneSeq
  let total := if wrapped then doneMax else s.doneSeq
  view doneMax s.done (if wrapped then s.doneHead else 0) (min total n)

inductive Wait
  | running
  | notFound
  | status (exitCode : Int)
  deriving DecidableEq, Repr

/-! The table has `procMax` slots, `ESPIX_PROC_MAX`. -/

section Table

variable (procMax : Nat)

def allocSlot (s : State) : Option Nat := (List.range procMax).find? fun i => (s.slots i).isNone

def procFind (s : State) (pid : Int) : Option Nat :=
  (List.range procMax).find? fun i => (s.slots i).any (·.pid == pid)

def procFinish (s : State) (i : Nat) (state : Ending) (exitCode us : Int) : Option State :=
  (s.slots i).map fun slot =>
    let s := if recorded slot.kind then doneRecord s (recordOf slot state exitCode us) else s
    { s with slots := Function.update s.slots i none }

def procWait (s : State) (pid : Int) (reap : Bool) : Wait × State :=
  if (procFind procMax s pid).isSome then (.running, s)
  else
    match doneFind s pid with
    | none => (.notFound, s)
    | some i =>
      if reap && (s.done i).reaped then (.notFound, s)
      else
        (.status (s.done i).exitCode,
          if reap then { s with done := Function.update s.done i { s.done i with reaped := true } }
          else s)

inductive Event
  /-- A spawn, an adoption or a kernel task that comes to the table. -/
  | spawn (kind : Kind) (ppid : Int) (name : Path) (us : Int)
  | spawnInit (ppid : Int) (name : Path) (us : Int)
  /-- A thread, or a spawn that fails once it has its pid. -/
  | thread
  /-- A kernel task becomes a shell, and is a kernel task again. -/
  | adopt (i : Nat) (name : Path)
  | leave (i : Nat)
  | finish (i : Nat) (state : Ending) (exitCode us : Int)
  | wait (pid : Int) (reap : Bool)
  | history (n : Nat)
  deriving DecidableEq

def enlist (s : State) (slot : Slot) (next : Int) : Option State :=
  (allocSlot procMax s).map fun i =>
  { s with slots := Function.update s.slots i (some slot), nextPid := next }

def convert (s : State) (i : Nat) (change : Slot → Slot) : Option State :=
  match s.slots i with
  | none => none
  | some slot =>
      if recorded slot.kind then none
        else some { s with slots := Function.update s.slots i (some (change slot)) }

theorem convert_some {s t : State} {i : Nat} {change : Slot → Slot}
    (done : convert s i change = some t) :
    ∃ slot, s.slots i = some slot ∧
    t = { s with slots := Function.update s.slots i (some (change slot)) } := by
  revert done
  fun_cases convert s i change with
  | case3 slot before =>
    rintro ⟨⟩
    exact ⟨slot, before, rfl⟩
  | _ => rintro ⟨⟩

def step (s : State) : Event → Option State
  | .spawn kind ppid name us =>
      enlist procMax s ⟨s.nextPid, ppid, name, kind, us⟩ (pidAfter s.nextPid)
  | .spawnInit ppid name us =>
    if (procFind procMax s 1).isNone then enlist procMax s ⟨1, ppid, name, .kthread, us⟩ s.nextPid
    else enlist procMax s ⟨s.nextPid, ppid, name, .kthread, us⟩ (pidAfter s.nextPid)
  | .thread => some { s with nextPid := pidAfter s.nextPid }
  | .adopt i name => convert s i fun slot => { slot with name, kind := .session }
  | .leave i => convert s i fun slot => { slot with kind := .kthread }
  | .finish i state exitCode us => procFinish s i state exitCode us
  | .wait pid reap => some (procWait procMax s pid reap).2
  | .history _ => some s

def made (s : State) : Event → List Record
  | .finish i state exitCode us =>
    match s.slots i with
    | none => []
    | some slot => if recorded slot.kind then [recordOf slot state exitCode us] else []
  | _ => []

def finishes : State → List Event → List Record
  | _, [] => []
  | s, e :: es => made s e ++ ((step procMax s e).map fun t => finishes t es).getD []

def Fresh (s : State) : Event → Prop
  | .spawn .. | .thread => 0 < s.nextPid
  | .spawnInit .. => (procFind procMax s 1).isSome → 0 < s.nextPid
  | _ => True

end Table

def mark (pid : Int) (log : List Record) : List Record :=
  log.map fun r => if r.pid = pid then { r with reaped := true } else r

def logAfter (s : State) (log : List Record) : Event → List Record
  | .wait pid true => mark pid log
  | e => log ++ made s e

structure Logged (s : State) (log : List Record) : Prop where
  holds : Holds doneMax s.done log
  head : s.doneHead = log.length % doneMax
  seq : s.doneSeq = log.length
  blank : ∀ i, log.length ≤ i → i < doneMax → (s.done i).pid = 0

/-- Every pid so far is below the next one, and nobody's twice. -/
structure Numbered (procMax : Nat) (s : State) (log : List Record) (next : Int) : Prop where
  inside : ∀ i slot, s.slots i = some slot → i < procMax
  next_eq : s.nextPid = if next = pidLast + 1 then -2147483648 else next
  next_ge : 2 ≤ next
  next_le : next ≤ pidLast + 1
  live : ∀ i slot, s.slots i = some slot → slot.pid = 1 ∧ recorded slot.kind = false ∨
    2 ≤ slot.pid ∧ slot.pid < next
  live_inj : ∀ i j a b, s.slots i = some a → s.slots j = some b → a.pid = b.pid → i = j
  ended : ∀ r ∈ log, 2 ≤ r.pid ∧ r.pid < next
  ended_nodup : (log.map (·.pid)).Nodup
  apart : ∀ i slot, s.slots i = some slot → ∀ r ∈ log, r.pid ≠ slot.pid

variable {k : Nat} {r : Record}

section Marking

variable {pid : Int} {log : List Record}

theorem pids_mark : (mark pid log).map (·.pid) = log.map (·.pid) := by
  rw [mark, List.map_map]
  refine List.map_congr_left fun r _ => ?_
  dsimp only [Function.comp_apply]
  split <;> rfl

theorem mark_absent (absent : pid ∉ log.map (·.pid)) : mark pid log = log := by
  refine (List.map_congr_left fun r member => ?_).trans (List.map_id log)
  rw [if_neg fun same => absent (List.mem_map.mpr ⟨r, member, same⟩), id]

theorem mark_present (nodup : (log.map (·.pid)).Nodup) (found : log[k]? = some r)
    (named : r.pid = pid) :
    mark pid log = log.set k { r with reaped := true } := by
  apply List.ext_getElem?
  intro j
  rw [mark, List.getElem?_map]
  by_cases same : j = k
  · subst same
    rw [List.getElem?_set_self (List.getElem?_eq_some_iff.mp found).1, found, Option.map_some,
      if_pos named]
  · rw [List.getElem?_set_ne (Ne.symm same)]
    cases entry : log[j]? with
    | none => rfl
    | some other =>
      have differ : other.pid ≠ pid := by
        intro equal
        have first : (log.map (·.pid))[j]? = some pid := by
          rw [List.getElem?_map, entry, Option.map_some, equal]
        have second : (log.map (·.pid))[k]? = some pid := by
          rw [List.getElem?_map, found, Option.map_some, named]
        have inside : j < (log.map (·.pid)).length := (List.getElem?_eq_some_iff.mp first).1
        exact same ((List.getElem?_inj inside nodup).mp (first.trans second.symm))
      rw [Option.map_some, if_neg differ]

theorem mem_mark (member : r ∈ mark pid log) : ∃ q ∈ log, q.pid = r.pid := by
  obtain ⟨q, present, rfl⟩ := List.mem_map.mp member
  refine ⟨q, present, ?_⟩
  split <;> rfl

end Marking

variable {i : Nat}

section Lookup

variable {procMax : Nat} {s : State} {log : List Record} {next : Int}

theorem Numbered.positive (numbered : Numbered procMax s log next) (found : log[k]? = some r) :
    0 < r.pid := by
  have lower := (numbered.ended r (List.mem_of_getElem? found)).1
  omega

theorem Numbered.entry_inj (numbered : Numbered procMax s log next) {j : Nat}
    {a b : Record} (first : log[j]? = some a)
    (second : log[k]? = some b) (same : a.pid = b.pid) : j = k := by
  have one : (log.map (·.pid))[j]? = some b.pid := by
    rw [List.getElem?_map, first, Option.map_some, same]
  have other : (log.map (·.pid))[k]? = some b.pid := by
    rw [List.getElem?_map, second, Option.map_some]
  have bound : j < (log.map (·.pid)).length := (List.getElem?_eq_some_iff.mp one).1
  exact (List.getElem?_inj bound numbered.ended_nodup).mp (one.trans other.symm)

section

variable (logged : Logged s log)

include logged

theorem Logged.cell {j : Nat} (inside : j < doneMax) :
    (s.done j).pid = 0 ∨ ∃ k r, log[k]? = some r ∧ log.length ≤ k + doneMax ∧ k % doneMax = j ∧
    s.done j = r := by
  rcases Nat.lt_or_ge j log.length with written | unwritten
  · -- the last position of this cell
    let k := j + doneMax * ((log.length - 1 - j) / doneMax)
    have quotient := Nat.div_add_mod (log.length - 1 - j) doneMax
    have remainder := Nat.mod_lt (log.length - 1 - j) (show 0 < doneMax by decide)
    have before : k < log.length := by omega
    have near : log.length ≤ k + doneMax := by omega
    have cell : k % doneMax = j := by rw [Nat.add_mul_mod_self_left, Nat.mod_eq_of_lt inside]
    refine .inr ⟨k, log[k], List.getElem?_eq_getElem before, near, cell, ?_⟩
    rw [← cell]
    exact logged.holds k _ (List.getElem?_eq_getElem before) near
  · exact .inl (logged.blank j unwritten inside)

theorem doneFind_sound {pid : Int} (found : doneFind s pid = some i) :
    ∃ k r, log[k]? = some r ∧ log.length ≤ k + doneMax ∧ s.done i = r ∧ r.pid = pid := by
  obtain ⟨here, inside, -⟩ := List.find?_range_eq_some.mp found
  rw [Bool.and_eq_true, decide_eq_true_eq, beq_iff_eq] at here
  rcases logged.cell (List.mem_range.mp inside) with blank | ⟨k, r, entry, near, -, same⟩
  · omega
  · exact ⟨k, r, entry, near, same, same ▸ here.2⟩

theorem doneFind_retained (numbered : Numbered procMax s log next)
    (found : log[k]? = some r) (near : log.length ≤ k + doneMax) : doneFind s r.pid =
    some (k % doneMax) := by
  refine List.find?_range_eq_some.mpr ⟨?_, List.mem_range.mpr (Nat.mod_lt _ (by decide)),
    fun j before => ?_⟩
  · rw [logged.holds k r found near]
    simp [numbered.positive found]
  · rw [Bool.not_eq_true', Bool.and_eq_false_imp, decide_eq_true_eq]
    intro positive
    rw [beq_eq_false_iff_ne]
    intro same
    rcases logged.cell (Nat.lt_trans before (Nat.mod_lt _ (by decide))) with blank | ⟨k',
      r', entry, -, cell, equal⟩
    · omega
    · rw [equal] at same
      rw [numbered.entry_inj entry found same] at cell
      omega

theorem doneFind_forgotten (numbered : Numbered procMax s log next)
    (found : log[k]? = some r) (far : k + doneMax < log.length) : doneFind s r.pid = none := by
  cases other : doneFind s r.pid with
  | none => rfl
  | some i =>
    obtain ⟨k', r', entry, near, -, same⟩ := doneFind_sound logged other
    rw [numbered.entry_inj entry found same] at near
    omega

end

theorem procFind_isSome {pid : Int} :
    (procFind procMax s pid).isSome ↔ ∃ i slot, i < procMax ∧ s.slots i = some slot ∧
    slot.pid = pid := by
  rw [procFind, List.find?_isSome]
  constructor
  · rintro ⟨i, inside, here⟩
    obtain ⟨slot, taken, same⟩ := (Option.any_eq_true _ _).mp here
    exact ⟨i, slot, List.mem_range.mp inside, taken, beq_iff_eq.mp same⟩
  · rintro ⟨i, slot, inside, taken, same⟩
    exact ⟨i, List.mem_range.mpr inside, by rw [taken]; simp [same]⟩

theorem Numbered.gone (numbered : Numbered procMax s log next) (ended : r ∈ log) :
    procFind procMax s r.pid = none := by
  rw [← Option.not_isSome_iff_eq_none, procFind_isSome]
  rintro ⟨i, slot, -, taken, same⟩
  exact numbered.apart i slot taken r ended same.symm

end Lookup

variable {slot : Slot} {e : Event}

section Steps

variable {procMax : Nat} {s t : State} {log : List Record} {next : Int}

theorem Logged.congr (logged : Logged s log) (done : t.done = s.done)
    (head : t.doneHead = s.doneHead)
    (seq : t.doneSeq = s.doneSeq) : Logged t log where
  holds := done ▸ logged.holds
  head := head.trans logged.head
  seq := seq.trans logged.seq
  blank := done ▸ logged.blank

theorem Logged.record (logged : Logged s log) (few : log.length + 1 < 2 ^ 32) (r : Record) :
    Logged (doneRecord s r) (log ++ [r]) where
  holds := by
    rw [doneRecord, logged.head]
    exact logged.holds.push r
  head := by
    rw [doneRecord, logged.head, List.length_append, List.length_singleton, Nat.mod_add_mod]
  seq := by
    rw [doneRecord, logged.seq, List.length_append, List.length_singleton]
    exact Nat.mod_eq_of_lt few
  blank := by
    intro i beyond inside
    rw [List.length_append, List.length_singleton] at beyond
    have place : log.length % doneMax = log.length := Nat.mod_eq_of_lt (by omega)
    rw [doneRecord, logged.head, place]
    dsimp only
    rw [update_of_ne (by omega)]
    exact logged.blank i (by omega) inside

theorem Numbered.few (numbered : Numbered procMax s log next) : log.length + 1 < 2 ^ 32 := by
  have nodup : ((log.map (·.pid)).map Int.toNat).Nodup := by
    refine numbered.ended_nodup.map_on fun a first b second same => ?_
    obtain ⟨r, ended, rfl⟩ := List.mem_map.mp first
    obtain ⟨q, ended', rfl⟩ := List.mem_map.mp second
    have lower := (numbered.ended r ended).1
    have lower' := (numbered.ended q ended').1
    omega
  have below : (log.map (·.pid)).map Int.toNat ⊆ List.range next.toNat := by
    intro n member
    obtain ⟨pid, first, rfl⟩ := List.mem_map.mp member
    obtain ⟨r, ended, rfl⟩ := List.mem_map.mp first
    obtain ⟨lower, upper⟩ := numbered.ended r ended
    exact List.mem_range.mpr (by omega)
  have counted := nodup.length_le_of_subset below
  rw [List.length_map, List.length_map, List.length_range] at counted
  have limit := numbered.next_le
  unfold pidLast at limit
  omega

theorem Logged.reap (logged : Logged s log) (numbered : Numbered procMax s log next) (pid : Int) :
    Logged (procWait procMax s pid true).2 (mark pid log) := by
  by_cases ended : pid ∈ log.map (·.pid)
  · obtain ⟨r, member, rfl⟩ := List.mem_map.mp ended
    obtain ⟨k, found⟩ := List.getElem?_of_mem member
    have inside := (List.getElem?_eq_some_iff.mp found).1
    rw [mark_present numbered.ended_nodup found rfl]
    simp only [procWait, numbered.gone member, Option.isSome_none, Bool.false_eq_true,
      if_false, Bool.true_and, if_true]
    rcases Nat.lt_or_ge (k + doneMax) log.length with far | near
    · rw [doneFind_forgotten logged numbered found far]
      exact ⟨logged.holds.set_far far _, by rw [List.length_set]; exact logged.head,
        by rw [List.length_set]; exact logged.seq, by rw [List.length_set]; exact logged.blank⟩
    · rw [doneFind_retained logged numbered found near]
      have cell := logged.holds k r found near
      dsimp only
      rw [cell]
      split
      · rename_i taken
        have same : { r with reaped := true } = r := by
          rw [← taken]
        have unchanged : log.set k r = log := by
          rw [← (List.getElem?_eq_some_iff.mp found).2]
          exact List.set_getElem_self inside
        rw [same, unchanged]
        exact logged
      · refine ⟨logged.holds.set inside near _, by rw [List.length_set]; exact logged.head,
          by rw [List.length_set]; exact logged.seq, ?_⟩
        rw [List.length_set]
        intro i beyond small
        have place : k % doneMax = k := Nat.mod_eq_of_lt (by omega)
        dsimp only
        rw [place, update_of_ne (by omega)]
        exact logged.blank i beyond small
  · rw [mark_absent ended]
    have unknown : doneFind s pid = none := by
      cases other : doneFind s pid with
      | none => rfl
      | some i =>
        obtain ⟨k, r, entry, -, -, same⟩ := doneFind_sound logged other
        exact absurd (List.mem_map.mpr ⟨r, List.mem_of_getElem? entry, same⟩) ended
    simp only [procWait, unknown]
    split <;> exact logged

theorem procWait_observe (s : State) (pid : Int) : (procWait procMax s pid false).2 = s := by
  unfold procWait
  split
  · rfl
  · split <;> simp

theorem procWait_table (procMax : Nat) (s : State) (pid : Int) (reap : Bool) :
    (procWait procMax s pid reap).2.slots = s.slots ∧
    (procWait procMax s pid reap).2.nextPid = s.nextPid := by
  unfold procWait
  split
  · exact ⟨rfl, rfl⟩
  · split
    · exact ⟨rfl, rfl⟩
    · split
      · exact ⟨rfl, rfl⟩
      · cases reap <;> exact ⟨rfl, rfl⟩

/-- What the table owes a slot: a place, and a pid that nobody else has. -/
def Named (procMax : Nat) (s : State) (log : List Record) (next : Int) (i : Nat)
    (slot : Slot) : Prop :=
  i < procMax ∧ (slot.pid = 1 ∧ recorded slot.kind = false ∨ 2 ≤ slot.pid ∧ slot.pid < next) ∧
    (∀ j a, j ≠ i → s.slots j = some a → a.pid ≠ slot.pid) ∧ ∀ r ∈ log, r.pid ≠ slot.pid

section

variable (numbered : Numbered procMax s log next)

include numbered

theorem Numbered.named (taken : s.slots i = some slot) : Named procMax s log next i slot := by
  refine ⟨numbered.inside i slot taken, numbered.live i slot taken, ?_, numbered.apart i slot taken⟩
  intro j a differs other same
  exact differs (numbered.live_inj j i a slot other taken same)

/-- Where one slot changes and the log goes on, it is enough to look at that slot and at what comes
to the log. -/
theorem Numbered.change {new : Option Slot} {after : List Record} {later : Int}
    (slots : t.slots = Function.update s.slots i new)
    (counter : t.nextPid = if later = pidLast + 1 then -2147483648 else later)
    (le : next ≤ later) (limit : later ≤ pidLast + 1) (here : ∀ a, new = some a →
      Named procMax s log later i a)
    (there : ∀ r ∈ after, (∃ q ∈ log, q.pid = r.pid) ∨
      new = none ∧ ∃ a, s.slots i = some a ∧ recorded a.kind = true ∧ r.pid = a.pid)
    (nodup : (after.map (·.pid)).Nodup) : Numbered procMax t after later := by
  obtain ⟨inside, -, next_ge, -, live, live_inj, ended, -, apart⟩ := numbered
  unfold Named at here
  have found (j : Nat) (a : Slot) (taken : t.slots j = some a) : j = i ∧ new = some a ∨
      j ≠ i ∧ s.slots j = some a := by
    rw [slots, update_apply] at taken
    split at taken <;> simp [*]
  constructor <;> grind

theorem Numbered.mark (pid : Int) (slots : t.slots = s.slots)
    (counter : t.nextPid = s.nextPid) : Numbered procMax t (mark pid log) next := by
  refine numbered.change (slots.trans (update_eq_self 0 _).symm)
    (counter.trans numbered.next_eq) le_rfl
    numbered.next_le (fun a taken => numbered.named taken) (fun r member => ?_) ?_
  · obtain ⟨q, present, same⟩ := mem_mark member
    exact .inl ⟨q, present, same⟩
  · rw [pids_mark]
    exact numbered.ended_nodup

theorem pidAfter_next (fresh : 0 < s.nextPid) :
    s.nextPid = next ∧ next + 1 ≤ pidLast + 1 ∧
      pidAfter s.nextPid = if next + 1 = pidLast + 1 then -2147483648 else next + 1 := by
  have here := numbered.next_eq
  have limit := numbered.next_le
  unfold pidAfter
  unfold pidLast at *
  split at here
  · omega
  · rw [here]
    refine ⟨rfl, by omega, ?_⟩
    split <;> split <;> omega

theorem Numbered.thread (fresh : 0 < s.nextPid) :
    Numbered procMax { s with nextPid := pidAfter s.nextPid } log (next + 1) := by
  obtain ⟨-, limit, counted⟩ := pidAfter_next numbered fresh
  refine numbered.change (update_eq_self 0 _).symm counted (by omega) limit (fun a taken => ?_)
    (fun r member => .inl ⟨r, member, rfl⟩) numbered.ended_nodup
  obtain ⟨inside, range, others⟩ := numbered.named taken
  exact ⟨inside, range.imp_right fun range => ⟨range.1, by omega⟩, others⟩

theorem Numbered.enlist (unused : ∀ i a, s.slots i = some a → a.pid ≠ slot.pid)
    (fresh : ∀ r ∈ log, r.pid ≠ slot.pid)
    (range : slot.pid = 1 ∧ recorded slot.kind = false ∨ 2 ≤ slot.pid ∧ slot.pid < next)
    (done : enlist procMax s slot s.nextPid = some t) : Numbered procMax t log next := by
  obtain ⟨i, free, rfl⟩ := Option.map_eq_some_iff.mp done
  have place := List.mem_range.mp (List.mem_of_find?_eq_some free)
  refine numbered.change rfl numbered.next_eq le_rfl numbered.next_le (fun a taken => ?_)
    (fun r member => .inl ⟨r, member, rfl⟩) numbered.ended_nodup
  cases taken
  exact ⟨place, range, fun j a _ => unused j a, fresh⟩

theorem Numbered.convert {change : Slot → Slot}
    (pid : ∀ slot, (change slot).pid = slot.pid) (kind : ∀ slot,
      recorded (change slot).kind = false)
    (done : convert s i change = some t) : Numbered procMax t log next := by
  obtain ⟨slot, before, rfl⟩ := convert_some done
  refine numbered.change rfl numbered.next_eq le_rfl numbered.next_le (fun a taken => ?_)
    (fun r member => .inl ⟨r, member, rfl⟩) numbered.ended_nodup
  cases taken
  -- the slot has the pid it had
  obtain ⟨inside, range, others⟩ := numbered.named before
  rw [Named, pid]
  exact ⟨inside, range.imp_left fun init => ⟨init.1, kind slot⟩, others⟩

theorem Numbered.finish (before : s.slots i = some slot)
    {more : List Record} (record : more = [] ∨ ∃ r, more = [r] ∧ r.pid = slot.pid ∧
      recorded slot.kind = true)
    (slots : t.slots = Function.update s.slots i none) (counter : t.nextPid = s.nextPid) :
    Numbered procMax t (log ++ more) next := by
  refine numbered.change slots (counter.trans numbered.next_eq) le_rfl numbered.next_le nofun
    (fun r member => ?_) ?_
  · rcases List.mem_append.mp member with earlier | now
    · exact .inl ⟨r, earlier, rfl⟩
    · rcases record with rfl | ⟨q, rfl, same, kind⟩
      · cases now
      · cases List.mem_singleton.mp now
        exact .inr ⟨rfl, slot, before, kind, same⟩
  · rcases record with rfl | ⟨q, rfl, named, -⟩
    · rw [List.append_nil]
      exact numbered.ended_nodup
    · rw [List.map_append, List.map_singleton, named]
      refine numbered.ended_nodup.append (List.nodup_singleton _) ?_
      intro pid first second
      obtain ⟨r, earlier, rfl⟩ := List.mem_map.mp first
      exact numbered.apart i slot before r earlier (List.mem_singleton.mp second)

end

structure Tracked (procMax : Nat) (s : State) (log : List Record) : Prop where
  logged : Logged s log
  numbered : ∃ next, Numbered procMax s log next

theorem Logged.unchanged (logged : Logged s log) : Logged s (log ++ []) := by rwa [List.append_nil]

theorem Tracked.unchanged (tracked : Tracked procMax s log) : Tracked procMax s (log ++ []) := by
  rwa [List.append_nil]

theorem tracked_boot : Tracked procMax boot [] := by
  refine ⟨⟨holds_nil, rfl, rfl, fun _ _ _ => rfl⟩, 2, ?_⟩
  have nobody (i : Nat) (slot : Slot) : boot.slots i ≠ some slot := nofun
  exact ⟨fun i slot taken => absurd taken (nobody i slot), rfl, by decide, by
    decide, fun i slot taken => absurd taken (nobody i slot),
    fun i _ a _ taken => absurd taken (nobody i a), nofun, List.nodup_nil,
    fun i slot taken => absurd taken (nobody i slot)⟩

theorem enlist_done (done : enlist procMax s slot next = some t) :
    t.done = s.done ∧ t.doneHead = s.doneHead ∧ t.doneSeq = s.doneSeq := by
  obtain ⟨i, -, rfl⟩ := Option.map_eq_some_iff.mp done
  exact ⟨rfl, rfl, rfl⟩

section

variable (tracked : Tracked procMax s log)

include tracked

theorem Tracked.spawn (fresh : 0 < s.nextPid) (named : slot.pid = s.nextPid)
    (done : enlist procMax s slot (pidAfter s.nextPid) = some t) : Tracked procMax t log := by
  obtain ⟨next, numbered⟩ := tracked.numbered
  obtain ⟨here, -, -⟩ := pidAfter_next numbered fresh
  have lower := numbered.next_ge
  have same := enlist_done done
  refine ⟨tracked.logged.congr same.1 same.2.1 same.2.2, next + 1, ?_⟩
  refine (numbered.thread fresh).enlist (fun i a taken => ?_) (fun r member => ?_)
    (.inr (by omega)) done
  · rcases numbered.live i a taken with init | range <;> omega
  · have range := numbered.ended r member
    omega

theorem Tracked.finish {state : Ending} {exitCode us : Int}
    (done : procFinish s i state exitCode us = some t) :
    Tracked procMax t (log ++ made s (.finish i state exitCode us)) := by
  obtain ⟨slot, before, rfl⟩ := Option.map_eq_some_iff.mp done
  obtain ⟨next, numbered⟩ := tracked.numbered
  dsimp only [made]
  rw [before]
  dsimp only
  by_cases kind : recorded slot.kind = true
  · simp only [kind, if_true]
    have logged := tracked.logged.record numbered.few (recordOf slot state exitCode us)
    exact ⟨logged.congr rfl rfl rfl, next,
      numbered.finish before (.inr ⟨_, rfl, rfl, kind⟩) rfl rfl⟩
  · simp only [kind, Bool.false_eq_true, if_false]
    have logged : Logged { s with slots := update s.slots i none } log :=
      tracked.logged.congr rfl rfl rfl
    exact ⟨logged.unchanged, next, numbered.finish before (.inl rfl) rfl rfl⟩

theorem Tracked.convert {change : Slot → Slot}
    (pid : ∀ slot, (change slot).pid = slot.pid) (kind : ∀ slot,
      recorded (change slot).kind = false)
    (done : convert s i change = some t) : Tracked procMax t log := by
  obtain ⟨next, numbered⟩ := tracked.numbered
  refine ⟨?_, next, numbered.convert pid kind done⟩
  obtain ⟨slot, -, rfl⟩ := convert_some done
  exact tracked.logged.congr rfl rfl rfl

theorem tracked_step (fresh : Fresh procMax s e)
    (done : step procMax s e = some t) : Tracked procMax t (logAfter s log e) := by
  cases e with
  | spawn kind ppid name us => exact (tracked.spawn fresh rfl done).unchanged
  | spawnInit ppid name us =>
    dsimp only [step] at done
    split at done
    · rename_i none
      obtain ⟨next, numbered⟩ := tracked.numbered
      have same := enlist_done done
      have unused : ∀ i a, s.slots i = some a → a.pid ≠ 1 := by
        intro i a taken one
        have found : (procFind procMax s 1).isSome :=
          procFind_isSome.mpr ⟨i, a, numbered.inside i a taken, taken, one⟩
        rw [Option.isNone_iff_eq_none.mp none] at found
        cases found
      have fresh : ∀ r ∈ log, r.pid ≠ 1 := by
        intro r member
        have range := (numbered.ended r member).1
        omega
      have enlisted : Tracked procMax t log :=
        ⟨tracked.logged.congr same.1 same.2.1 same.2.2, next,
          numbered.enlist unused fresh (.inl ⟨rfl, rfl⟩) done⟩
      exact enlisted.unchanged
    · rename_i taken
      have init : (procFind procMax s 1).isSome := by
        cases found : procFind procMax s 1 with
        | none => simp [found] at taken
        | some _ => rfl
      exact (tracked.spawn (fresh init) rfl done).unchanged
  | thread =>
    cases done
    obtain ⟨next, numbered⟩ := tracked.numbered
    have counted : Tracked procMax { s with nextPid := pidAfter s.nextPid } log :=
      ⟨tracked.logged.congr rfl rfl rfl, next + 1, numbered.thread fresh⟩
    exact counted.unchanged
  | adopt i name | leave i =>
    dsimp only [step] at done
    refine (tracked.convert ?_ ?_ done).unchanged <;> exact fun _ => rfl
  | finish i state exitCode us => exact tracked.finish done
  | wait pid reap =>
    cases done
    obtain ⟨next, numbered⟩ := tracked.numbered
    cases reap with
    | true =>
      obtain ⟨slots, counter⟩ := procWait_table procMax s pid true
      exact ⟨tracked.logged.reap numbered pid, next, numbered.mark pid slots counter⟩
    | false =>
      rw [procWait_observe]
      exact tracked.unchanged
  | history n =>
    cases done
    exact tracked.unchanged

end

end Steps

section Runs

variable {procMax : Nat} {s t : State} {log : List Record} {es : List Event}

def logAlong (procMax : Nat) : State → List Record → List Event → List Record
  | _, log, [] => log
  | s, log, e :: es =>
      ((step procMax s e).map fun t => logAlong procMax t (logAfter s log e) es).getD log

theorem logAlong_cons {u : State} (first : step procMax s e = some u) :
    logAlong procMax s log (e :: es) = logAlong procMax u (logAfter s log e) es := by
  rw [logAlong, first, Option.map_some, Option.getD_some]

theorem logAlong_append {fs : List Event} (done : run (step procMax) s es = some t) :
    logAlong procMax s log (es ++ fs) = logAlong procMax t (logAlong procMax s log es) fs := by
  induction es generalizing s log with
  | nil =>
    cases done
    rfl
  | cons e es ih =>
    obtain ⟨u, first, rest⟩ := run_cons done
    rw [List.cons_append, logAlong_cons first, logAlong_cons first, ih rest]

theorem finishes_cons {u : State} (first : step procMax s e = some u) :
    finishes procMax s (e :: es) = made s e ++ finishes procMax u es := by
  rw [finishes, first, Option.map_some, Option.getD_some]

theorem tracked_run (tracked : Tracked procMax s log)
    (fresh : Along (step procMax) (Fresh procMax) s es)
    (done : run (step procMax) s es = some t) : Tracked procMax t (logAlong procMax s log es) := by
  induction es generalizing s log with
  | nil =>
    cases done
    exact tracked
  | cons e es ih =>
    obtain ⟨u, first, rest⟩ := run_cons done
    rw [logAlong_cons first]
    exact ih (tracked_step tracked fresh.1 first) (fresh.2 u first) rest

def unread (r : Record) : Record := { r with reaped := false }

theorem unread_made (s : State) (e : Event) : (made s e).map unread = made s e := by
  unfold made
  split
  · split
    · rfl
    · split <;> rfl
  · rfl

theorem unread_logAfter (s : State) (log : List Record) (e : Event) :
    (logAfter s log e).map unread = log.map unread ++ made s e := by
  unfold logAfter
  split
  · rename_i pid
    show _ = log.map unread ++ []
    rw [mark, List.map_map, List.append_nil]
    refine List.map_congr_left fun r _ => ?_
    dsimp only [Function.comp_apply]
    split <;> rfl
  · rw [List.map_append, unread_made]

theorem unread_logAlong (log : List Record) (done : run (step procMax) s es = some t) :
    (logAlong procMax s log es).map unread = log.map unread ++ finishes procMax s es := by
  induction es generalizing s log with
  | nil => rw [logAlong, finishes, List.append_nil]
  | cons e es ih =>
    obtain ⟨u, first, rest⟩ := run_cons done
    rw [logAlong_cons first, finishes_cons first, ih _ rest, unread_logAfter, List.append_assoc]

theorem length_logAlong (log : List Record) (done : run (step procMax) s es = some t) :
    (logAlong procMax s log es).length = log.length + (finishes procMax s es).length := by
  have same := congrArg List.length (unread_logAlong log done)
  rwa [List.length_map, List.length_append, List.length_map] at same

theorem entry_logAfter (found : log[k]? = some r) (s : State) (e : Event) :
    (logAfter s log e)[k]? = some
    { r with reaped := r.reaped || decide (e = .wait r.pid true) } := by
  have inside := (List.getElem?_eq_some_iff.mp found).1
  unfold logAfter
  split
  · rename_i pid
    rw [mark, List.getElem?_map, found, Option.map_some]
    by_cases same : r.pid = pid
    · simp [same]
    · simp [same, Ne.symm same]
  · rename_i other
    rw [List.getElem?_append_left inside, found, decide_eq_false (other r.pid), Bool.or_false]

theorem entry_logAlong (found : log[k]? = some r) (done : run (step procMax) s es = some t) :
    (logAlong procMax s log es)[k]? = some
    { r with reaped := r.reaped || decide (Event.wait r.pid true ∈ es) } := by
  induction es generalizing s log r with
  | nil =>
    rw [logAlong, found]
    simp
  | cons e es ih =>
    obtain ⟨u, first, rest⟩ := run_cons done
    rw [logAlong_cons first, ih (entry_logAfter found s e) rest]
    simp [Bool.or_assoc, eq_comm]

section

variable (tracked : Tracked procMax s log)

include tracked

theorem procHistory_eq (n : Nat) : procHistory s n = (log.drop (log.length - doneMax)).take n := by
  have logged := tracked.logged
  rw [procHistory, logged.seq, logged.head]
  by_cases wrapped : doneMax ≤ log.length
  · simp only [wrapped, if_true]
    have turned : view doneMax s.done (log.length % doneMax) (min doneMax n) =
        view doneMax s.done (log.length - doneMax) (min doneMax n) := by
      rw [Nat.mod_eq_sub_mod wrapped, view_mod (dvd_refl _)]
    rw [turned, logged.holds.view (by omega) (by omega), List.take_eq_take_iff, List.length_drop]
    omega
  · simp only [wrapped, if_false]
    rw [logged.holds.view (by omega) (by omega), show log.length - doneMax = 0 by
      omega, List.take_eq_take_iff,
      List.length_drop]
    omega

theorem procWait_ended (found : log[k]? = some r) (reap : Bool) :
    (procWait procMax s r.pid reap).1 =
      if k + doneMax < log.length ∨ reap = true ∧ r.reaped = true then
      .notFound else .status r.exitCode := by
  obtain ⟨next, numbered⟩ := tracked.numbered
  have logged := tracked.logged
  rw [procWait, numbered.gone (List.mem_of_getElem? found)]
  rcases Nat.lt_or_ge (k + doneMax) log.length with far | near
  · simp [doneFind_forgotten logged numbered found far, far]
  · rw [doneFind_retained logged numbered found near]
    dsimp only
    rw [logged.holds k r found near]
    have kept : ¬k + doneMax < log.length := by omega
    cases reap <;> cases r.reaped <;> simp [kept]

theorem procWait_status {pid code : Int} {reap : Bool}
    (told : (procWait procMax s pid reap).1 = .status code) : ∃ r ∈ log, r.pid = pid ∧
    r.exitCode = code := by
  unfold procWait at told
  split at told
  · cases told
  · split at told
    · cases told
    · rename_i i found
      obtain ⟨k, r, entry, -, same, named⟩ := doneFind_sound tracked.logged found
      split at told
      · cases told
      · rw [same, Wait.status.injEq] at told
        exact ⟨r, List.mem_of_getElem? entry, named, told⟩

end

def livePids (procMax : Nat) (s : State) : List Int :=
  (List.range procMax).filterMap fun i => (s.slots i).map (·.pid)

theorem pids_nodup (tracked : Tracked procMax s log) :
    (livePids procMax s ++ (procHistory s doneMax).map (·.pid)).Nodup := by
  obtain ⟨next, numbered⟩ := tracked.numbered
  rw [procHistory_eq tracked]
  refine List.Nodup.append ?_ ?_ ?_
  · refine List.Nodup.filterMap (fun i j pid first second => ?_) List.nodup_range
    obtain ⟨a, here, rfl⟩ := Option.map_eq_some_iff.mp first
    obtain ⟨b, there, same⟩ := Option.map_eq_some_iff.mp second
    exact numbered.live_inj i j a b here there same.symm
  · have part : ((log.drop (log.length - doneMax)).take doneMax).Sublist log :=
      (List.take_sublist _ _).trans (List.drop_sublist _ _)
    exact numbered.ended_nodup.sublist (part.map _)
  · intro pid alive ended
    obtain ⟨i, -, here⟩ := List.mem_filterMap.mp alive
    obtain ⟨slot, taken, rfl⟩ := Option.map_eq_some_iff.mp here
    obtain ⟨r, member, same⟩ := List.mem_map.mp ended
    exact numbered.apart i slot taken r (List.mem_of_mem_drop (List.mem_of_mem_take member)) same

theorem made_finish {state : Ending} {exitCode us : Int} (taken : s.slots i = some slot)
    (kind : recorded slot.kind = true) : made s (.finish i state exitCode us) =
    [recordOf slot state exitCode us] := by
  rw [made, taken]
  simp [kind]

/-- As long as every pid handed out is positive: no pid is alive or retained twice, a listing is the
last finishes with the oldest first, a status that a wait returns is that of the pid, and a process
that ended is found with its status until eight more have ended, by reaping waits once. What is said
of the state a run ends in is said of every wait and every listing, at the end of the run before it.
-/
theorem statuses_kept (procMax : Nat) {es : List Event} {s : State}
    (fresh : Along (step procMax) (Fresh procMax) boot es)
    (done : run (step procMax) boot es = some s) :
    (livePids procMax s ++ (procHistory s doneMax).map (·.pid)).Nodup ∧
    (∀ n, (procHistory s n).map unread =
      ((finishes procMax boot es).drop ((finishes procMax boot es).length - doneMax)).take n) ∧
    (∀ pid reap code, (procWait procMax s pid reap).1 = .status code →
      ∃ r ∈ finishes procMax boot es, r.pid = pid ∧ r.exitCode = code) ∧
    ∀ before i state code us after u slot v, es = before ++ .finish i state code us :: after →
      run (step procMax) boot before = some u → u.slots i = some slot → recorded slot.kind = true →
      step procMax u (.finish i state code us) = some v →
      (procWait procMax s slot.pid true).1 =
        (if doneMax ≤ (finishes procMax v after).length ∨
          Event.wait slot.pid true ∈ after then .notFound
          else .status code) ∧
      (procWait procMax s slot.pid false).1 =
        if doneMax ≤ (finishes procMax v after).length then .notFound else .status code := by
  have tracked := tracked_run tracked_boot fresh done
  have records := unread_logAlong [] done
  rw [List.map_nil, List.nil_append] at records
  refine ⟨pids_nodup tracked, fun n => ?_, fun pid reap code told => ?_, ?_⟩
  · rw [procHistory_eq tracked, List.map_take, List.map_drop, records, ← records, List.length_map]
  · obtain ⟨r, member, named, same⟩ := procWait_status tracked told
    exact ⟨unread r, records ▸ List.mem_map_of_mem member, named, same⟩
  · intro before i state code us after u slot v split reached taken kind ended
    subst split
    have rest : run (step procMax) v after = some s := by
      rw [run_append, reached, Option.bind_some, run, ended, Option.bind_some] at done
      exact done
    -- the log up to the finish, which is its last entry
    let log := logAlong procMax boot [] before
    have whole : logAlong procMax boot [] (before ++ .finish i state code us :: after) =
        logAlong procMax v (log ++ [recordOf slot state code us]) after := by
      rw [logAlong_append reached, logAlong_cons ended, logAfter, made_finish taken kind]
      rintro _ ⟨⟩
    rw [whole] at tracked
    have here : (log ++ [recordOf slot state code us])[log.length]? =
        some (recordOf slot state code us) :=
      List.getElem?_concat_length
    have found := entry_logAlong here rest
    have length := length_logAlong (log ++ [recordOf slot state code us]) rest
    rw [List.length_append, List.length_singleton] at length
    have far : log.length + doneMax <
      (logAlong procMax v (log ++ [recordOf slot state code us]) after).length ↔
        doneMax ≤ (finishes procMax v after).length := by omega
    have told (reap : Bool) := procWait_ended tracked found reap
    constructor
    · refine (told true).trans (if_congr (or_congr far ?_) rfl rfl)
      exact (and_iff_right rfl).trans decide_eq_true_iff
    · refine (told false).trans (if_congr ((or_congr far Iff.rfl).trans ?_) rfl rfl)
      simp

/-- A program with its status, and a wait for it. -/
theorem statuses_kept_once : ∃ s : State,
    run (step 4) boot [.spawn .app 1 [] 0, .finish 0 .exited 7 1, .wait 2 true] = some s ∧
      (procWait 4 s 2 true).1 = .notFound ∧ (procWait 4 s 2 false).1 = .status 7 := by
  let es : List Event := [.spawn .app 1 [] 0, .finish 0 .exited 7 1, .wait 2 true]
  have fresh : Along (step 4) (Fresh 4) boot es :=
    ⟨show (0 : Int) < 2 by
      decide, fun t first => ⟨trivial, fun u second => ⟨trivial, fun _ _ => trivial⟩⟩⟩
  obtain ⟨s, done⟩ : ∃ s, run (step 4) boot es = some s := ⟨_, rfl⟩
  have kept := (statuses_kept 4 fresh done).2.2.2 [.spawn .app 1 [] 0] 0 .exited 7 1
    [.wait 2 true] _ ⟨2, 1, [], .app, 0⟩ _
    rfl rfl rfl rfl rfl
  exact ⟨s, done, kept.1, kept.2⟩

section Overflow

theorem run_threads (n : Nat) (few : n + 2 ≤ 2147483648) :
    run (step procMax) boot (List.replicate n .thread) =
      some { boot with nextPid := if n + 2 = 2147483648 then -2147483648 else n + 2 } := by
  induction n with
  | zero => rfl
  | succ n ih =>
    rw [List.replicate_succ', run_append, ih (by omega), Option.bind_some]
    have small : n + 2 ≠ 2147483648 := by omega
    simp only [run, step, Option.bind_some, small, if_false, pidAfter, pidLast]
    congr 2
    push_cast
    split <;> split <;> omega

/-- Once all positive pids have been given to threads, the status of a program that has just ended
is not found. -/
theorem status_lost_past_last_pid : ∃ s : State,
    run (step 4) boot (List.replicate 2147483646 .thread ++
      [.spawn .app 1 [] 0, .finish 0 .exited 7 1]) = some s ∧
      (procHistory s doneMax).map (fun r => (r.pid, r.exitCode)) = [(-2147483648, 7)] ∧
      (procWait 4 s (-2147483648) true).1 = .notFound := by
  rw [run_append, run_threads 2147483646 (by omega), Option.bind_some]
  exact ⟨_, rfl, by decide, by decide⟩

end Overflow

end Runs

end Espix.Proc.ExitLog
