import Espix.Proc.ExitLog

/-! Waiting for a process to end.

`espix_proc_finish` sets one bit of an event group for everyone, and every task in
`proc_wait_common` or `espix_proc_stop_all` looks at the table and then waits for the bit, which is
cleared on the way out. `xEventGroupSetBits` wakes every task that is blocked then, and clears the
bit if there was one; `xEventGroupWaitBits` returns at once when the bit is set. -/

namespace Espix.Proc.Waiting

open Function Lib.Run
open ExitLog hiding Event step boot

inductive Target
  | one (pid : Int) (reap : Bool)
  | all (self : Int)
  deriving DecidableEq

inductive Phase
  | looking
  /-- Has let go of the lock, and is about to wait for the bit. -/
  | ready
  | blocked
  /-- Its time is up, and it has not run since. -/
  | lapsed
  | returned
  deriving DecidableEq

/-- A task in one of the two functions. Without a timeout it is `portMAX_DELAY`. -/
structure Waiter where
  target : Target
  timed : Bool
  phase : Phase
  deriving DecidableEq

structure System where
  table : State
  bit : Bool
  /-- A finish has recorded its status, holds the lock, and is about to set the bit. -/
  setting : Bool
  waiters : List Waiter

inductive Event
  /-- Any other step under the table lock. -/
  | table (e : ExitLog.Event)
  /-- `espix_proc_finish` up to the clearing of the slot. -/
  | record (i : Nat) (state : Ending) (exitCode us : Int)
  | set
  | call (target : Target) (timed : Bool)
  | look (w : Nat) (timesUp : Bool)
  | await (w : Nat)
  | lapse (w : Nat)
  | recheck (w : Nat)

def boot : System := ⟨ExitLog.boot, false, false, []⟩

def whole : ExitLog.Event → Bool
  | .finish .. | .wait .. => false
  | _ => true

variable (procMax : Nat)

def left (s : State) (self : Int) : Nat :=
  (List.range procMax).countP fun i => (s.slots i).any fun slot =>
  slot.pid != self && recorded slot.kind

def put (s : System) (w : Nat) (waiter : Waiter) (phase : Phase) : System :=
  { s with waiters := s.waiters.set w { waiter with phase } }

def look (s : System) (w : Nat) (waiter : Waiter) (timesUp : Bool) : System :=
  match waiter.target with
  | .one pid reap =>
    match procWait procMax s.table pid reap with
    | (.running, _) => put s w waiter (if waiter.timed && timesUp then .returned else .ready)
    | (_, table) => put { s with table } w waiter .returned
  | .all self =>
      put s w waiter (if left procMax s.table self = 0 ∨ timesUp then .returned else .ready)

def wake (waiter : Waiter) : Waiter := if waiter.phase = .blocked then
    { waiter with phase := .looking } else waiter

def working (s : System) (w : Nat) (phase : Phase) : Option Waiter :=
  s.waiters[w]?.filter fun waiter => decide (waiter.phase = phase)

def step (s : System) : Event → Option System
  | .table e =>
    if s.setting || !whole e then none else (ExitLog.step procMax s.table e).map fun table =>
      { s with table }
  | .record i state exitCode us =>
    if s.setting then none
    else (procFinish s.table i state exitCode us).map fun table => { s with table, setting := true }
  | .set =>
    if !s.setting then none
    else if s.waiters.any fun waiter => waiter.phase = .blocked then
      some { s with setting := false, bit := false, waiters := s.waiters.map wake }
    else some { s with setting := false, bit := true }
  | .call target timed =>
    match target, timed with
    | .all _, false => none
    | _, _ => some { s with waiters := s.waiters ++ [⟨target, timed, .looking⟩] }
  | .look w timesUp =>
    if s.setting then none else (working s w .looking).map fun waiter =>
      look procMax s w waiter timesUp
  | .await w =>
    (working s w .ready).map fun waiter =>
      if s.bit then put { s with bit := false } w waiter .looking else put s w waiter .blocked
  | .lapse w =>
    (working s w .blocked).bind fun waiter => if waiter.timed then
      some (put s w waiter .lapsed) else none
  | .recheck w =>
    (working s w .lapsed).map fun waiter =>
      if s.bit then put { s with bit := false } w waiter .looking
      else
        match waiter.target with
        | .one .. => put s w waiter .returned
        | .all _ => put s w waiter .looking

def Ended (s : State) (pid : Int) : Prop := procFind procMax s pid = none ∧ (doneFind s pid).isSome

def Stale (s : System) (waiter : Waiter) : Prop :=
  waiter.timed = false ∧ ∃ pid reap, waiter.target = .one pid reap ∧ Ended procMax s.table pid

/-- Blocked for good: nothing is set, and nothing is about to be. -/
def Lost (s : System) : Prop :=
  s.bit = false ∧ s.setting = false ∧ ∃ waiter ∈ s.waiters, waiter.phase = .blocked ∧
  Stale procMax s waiter

/-- The bit is taken, or goes with the tasks it wakes, while another task comes from its look at a
process that has ended since, and nobody is about to set it again. -/
def Steals (s : System) : Event → Prop
  | .await w | .recheck w =>
    s.bit = true ∧ s.setting = false ∧
      ∃ v waiter, v ≠ w ∧ s.waiters[v]? = some waiter ∧ waiter.phase = .ready ∧
      Stale procMax s waiter
  | .set =>
    (∃ waiter ∈ s.waiters, waiter.phase = .blocked) ∧
      ∃ waiter ∈ s.waiters, waiter.phase = .ready ∧ Stale procMax s waiter
  | _ => False

def Safe (s : System) : Prop :=
  ¬Lost procMax s ∧ ∀ w t, step procMax s (.await w) = some t → ¬Lost procMax t

/-- A task that is blocked or about to wait for a process that has ended has something to wake it.
-/
structure Owed (s : System) : Prop where
  clear : s.bit = true → ∀ waiter ∈ s.waiters, waiter.phase ≠ .blocked
  pending : ∀ waiter ∈ s.waiters, waiter.phase = .ready ∨ waiter.phase = .blocked →
    Stale procMax s waiter →
    s.bit = true ∨ s.setting = true

variable {w : Nat} {phase : Phase} {waiter : Waiter} {pid : Int} {other : State}

section Steps

variable {procMax} {s t : System}

theorem working_some (found : working s w phase = some waiter) :
    s.waiters[w]? = some waiter ∧ waiter.phase = phase := by
  obtain ⟨here, right⟩ := Option.filter_eq_some_iff.mp found
  exact ⟨here, of_decide_eq_true right⟩

theorem mem_put {other : Waiter} (member : other ∈ (put s w waiter phase).waiters) :
    other = { waiter with phase } ∨ ∃ v, v ≠ w ∧ s.waiters[v]? = some other := by
  obtain ⟨v, found⟩ := List.getElem?_of_mem member
  dsimp only [put] at found
  by_cases same : w = v
  · subst same
    rw [List.getElem?_set_self'] at found
    obtain ⟨_, _, rfl⟩ := Option.map_eq_some_iff.mp found
    exact .inl rfl
  · rw [List.getElem?_set_ne same] at found
    exact .inr ⟨v, Ne.symm same, found⟩

theorem mem_put_self {old : Waiter} (found : s.waiters[w]? = some old) :
    { waiter with phase } ∈ (put s w waiter phase).waiters := by
  have inside := (List.getElem?_eq_some_iff.mp found).1
  exact List.mem_of_getElem? (List.getElem?_set_self inside)

section

variable {table : State}

theorem procFind_none :
    procFind procMax table pid = none ↔ ∀ i slot, i < procMax → table.slots i = some slot →
    slot.pid ≠ pid := by
  rw [← Option.not_isSome_iff_eq_none, procFind_isSome]
  exact ⟨fun none i slot inside taken same => none ⟨i, slot, inside, taken, same⟩,
    fun none ⟨i, slot, inside, taken, same⟩ => none i slot inside taken same⟩

theorem doneFind_congr (same : ∀ i, (other.done i).pid = (table.done i).pid) (pid : Int) :
    doneFind other pid = doneFind table pid := by
  unfold doneFind
  simp only [same]

theorem Ended.earlier (ended : Ended procMax other pid)
    (slots : ∀ i slot, i < procMax → table.slots i = some slot →
      ∃ later, other.slots i = some later ∧ later.pid = slot.pid)
    (done : ∀ i, (other.done i).pid = (table.done i).pid) : Ended procMax table pid := by
  refine ⟨procFind_none.mpr fun i slot inside taken => ?_, by
    rw [← doneFind_congr done]; exact ended.2⟩
  obtain ⟨later, there, same⟩ := slots i slot inside taken
  exact same ▸ procFind_none.mp ended.1 i later inside there

theorem ended_enlist {slot : Slot} {next : Int} (done : enlist procMax table slot next = some other)
    (ended : Ended procMax other pid) : Ended procMax table pid := by
  obtain ⟨i, free, rfl⟩ := Option.map_eq_some_iff.mp done
  refine ended.earlier (fun j old inside taken => ?_) fun _ => rfl
  have empty : table.slots i = none := by
    have here := List.find?_some free
    exact Option.isNone_iff_eq_none.mp here
  refine ⟨old, ?_, rfl⟩
  by_cases same : j = i
  · rw [same, empty] at taken
    cases taken
  · exact (update_of_ne same _ _).trans taken

theorem ended_convert {i : Nat} {change : Slot → Slot}
    (done : convert table i change = some other) (kept : ∀ slot, (change slot).pid = slot.pid)
    (ended : Ended procMax other pid) : Ended procMax table pid := by
  obtain ⟨slot, before, rfl⟩ := convert_some done
  refine ended.earlier (fun j old inside taken => ?_) fun _ => rfl
  by_cases same : j = i
  · subst same
    cases before.symm.trans taken
    exact ⟨change slot, update_self _ _ _, kept slot⟩
  · exact ⟨old, (update_of_ne same _ _).trans taken, rfl⟩

theorem ended_table {e : ExitLog.Event} (kind : whole e = true)
    (done : ExitLog.step procMax table e = some other)
    (ended : Ended procMax other pid) : Ended procMax table pid := by
  cases e with
  | spawn kind ppid name us => exact ended_enlist done ended
  | spawnInit ppid name us =>
    dsimp only [ExitLog.step] at done
    split at done
    · exact ended_enlist done ended
    · exact ended_enlist done ended
  | thread | history n =>
    cases done
    exact ended
  | adopt i name | leave i =>
    dsimp only [ExitLog.step] at done
    exact ended_convert done (fun _ => rfl) ended
  | finish i state exitCode us => cases kind
  | wait pid reap => cases kind

end

theorem procWait_pids (table : State) (pid : Int) (reap : Bool) (i : Nat) :
    ((procWait procMax table pid reap).2.done i).pid = (table.done i).pid := by
  unfold procWait
  split
  · rfl
  · split
    · rfl
    · rename_i k _
      split
      · rfl
      · cases reap with
        | false => rfl
        | true =>
          by_cases same : i = k
          · rw [same]
            simp
          · simp [update_of_ne same]

theorem ended_procWait {table : State} {q : Int} {reap : Bool} :
    Ended procMax (procWait procMax table pid reap).2 q → Ended procMax table q := by
  intro ended
  refine ended.earlier (fun i slot _ taken => ⟨slot, ?_, rfl⟩) (procWait_pids table pid reap)
  rw [(procWait_table procMax table pid reap).1]
  exact taken

theorem Stale.earlier (earlier : ∀ pid, Ended procMax t.table pid → Ended procMax s.table pid)
    (stale : Stale procMax t waiter) : Stale procMax s waiter := by
  obtain ⟨untimed, pid, reap, target, ended⟩ := stale
  exact ⟨untimed, pid, reap, target, earlier pid ended⟩

section

variable (owed : Owed procMax s)

include owed

theorem Owed.write (awake : s.bit = true → phase ≠ .blocked)
    (woken : phase = .ready ∨ phase = .blocked → Stale procMax s waiter → s.bit = true ∨
      s.setting = true) :
    Owed procMax (put s w waiter phase) := by
  refine ⟨fun set other member => ?_, fun other member waits stale => ?_⟩
  · rcases mem_put member with rfl | ⟨v, -, found⟩
    · exact awake set
    · exact owed.clear set other (List.mem_of_getElem? found)
  · rcases mem_put member with rfl | ⟨v, -, found⟩
    · exact woken waits stale
    · exact owed.pending other (List.mem_of_getElem? found) waits stale

theorem Owed.put (idle : phase ≠ .ready ∧ phase ≠ .blocked) : Owed procMax (put s w waiter phase) :=
  owed.write (fun _ => idle.2) fun waits => absurd waits (not_or.mpr idle)

theorem Owed.table {table : State}
    (earlier : ∀ pid, Ended procMax table pid → Ended procMax s.table pid) : Owed procMax
    { s with table } :=
  ⟨owed.clear, fun waiter member waits stale =>
    owed.pending waiter member waits (stale.earlier earlier)⟩

theorem Owed.look (timesUp : Bool) : Owed procMax (look procMax s w waiter timesUp) := by
  unfold Waiting.look
  split
  · rename_i pid reap target
    split
    · rename_i running
      refine owed.write (fun _ => by split <;> nofun) fun _ stale => ?_
      obtain ⟨-, q, reap', same, ended⟩ := stale
      rw [target] at same
      cases same
      have alive : (procFind procMax s.table pid).isSome := by
        by_contra gone
        unfold procWait at running
        rw [if_neg gone] at running
        split at running
        · cases running
        · split at running <;> cases running
      exact absurd ended.1 (Option.isSome_iff_ne_none.mp alive)
    · rename_i table _ found
      have same : table = (procWait procMax s.table pid reap).2 := by rw [found]
      rw [same]
      exact (owed.table fun _ => ended_procWait).put ⟨nofun, nofun⟩
  · rename_i self target
    refine owed.write (fun _ => by split <;> nofun) fun _ stale => ?_
    obtain ⟨-, q, reap, same, -⟩ := stale
    rw [target] at same
    cases same

theorem Owed.take (set : s.bit = true)
    (spared : s.setting = false → ∀ v other, v ≠ w → s.waiters[v]? = some other →
      other.phase = .ready →
      ¬Stale procMax s other) : Owed procMax
      (Waiting.put { s with bit := false } w waiter .looking) := by
  refine ⟨nofun, fun other member waits stale => ?_⟩
  rcases mem_put member with rfl | ⟨v, differs, found⟩
  · rcases waits with impossible | impossible <;> cases impossible
  · cases setting : s.setting with
    | true => exact .inr rfl
    | false =>
      rcases waits with ready | blocked
      · exact absurd stale (spared setting v other differs found ready)
      · exact absurd blocked (owed.clear set other (List.mem_of_getElem? found))

theorem Owed.call (target : Target) (timed : Bool) :
    Owed procMax { s with waiters := s.waiters ++ [⟨target, timed, .looking⟩] } := by
  refine ⟨fun set other member => ?_, fun other member waits stale => ?_⟩
  · rcases List.mem_append.mp member with old | new
    · exact owed.clear set other old
    · rw [List.mem_singleton.mp new]
      nofun
  · rcases List.mem_append.mp member with old | new
    · exact owed.pending other old waits stale
    · rw [List.mem_singleton.mp new] at waits
      rcases waits with impossible | impossible <;> cases impossible

end

theorem owed_step {e : Event} (owed : Owed procMax s) (spared : ¬Steals procMax s e)
    (done : step procMax s e = some t) :
    Owed procMax t := by
  revert spared done
  fun_cases step procMax s e with
  | case2 e allowed =>
    intro _ done
    obtain ⟨table, stepped, rfl⟩ := Option.map_eq_some_iff.mp done
    have kind : whole e = true := by
      cases held : whole e with
      | true => rfl
      | false => simp [held] at allowed
    exact owed.table fun _ => ended_table kind stepped
  | case4 i state exitCode us =>
    intro _ done
    obtain ⟨table, -, rfl⟩ := Option.map_eq_some_iff.mp done
    exact ⟨owed.clear, fun _ _ _ _ => .inr rfl⟩
  | case6 _ some_blocked =>
    rintro spared ⟨⟩
    obtain ⟨sleeper, present, blocked⟩ := List.any_eq_true.mp some_blocked
    refine ⟨nofun, fun other member waits stale => ?_⟩
    obtain ⟨old, before, rfl⟩ := List.mem_map.mp member
    unfold wake at waits stale
    split at waits
    · rcases waits with impossible | impossible <;> cases impossible
    · rename_i awake
      rcases waits with ready | asleep
      · rw [if_neg awake] at stale
        exact absurd ⟨⟨sleeper, present, of_decide_eq_true blocked⟩, old, before, ready,
          stale⟩ spared
      · exact absurd asleep awake
  | case7 _ none_blocked =>
    rintro - ⟨⟩
    refine ⟨fun _ other member blocked => none_blocked (List.any_eq_true.mpr ⟨other, member, ?_⟩),
      fun _ _ _ _ => .inl rfl⟩
    exact decide_eq_true blocked
  | case9 target timed =>
    rintro - ⟨⟩
    exact owed.call target timed
  | case11 w timesUp =>
    intro _ done
    obtain ⟨waiter, -, rfl⟩ := Option.map_eq_some_iff.mp done
    exact owed.look timesUp
  | case12 w =>
    intro spared done
    obtain ⟨waiter, found, rfl⟩ := Option.map_eq_some_iff.mp done
    obtain ⟨here, phase⟩ := working_some found
    split
    · rename_i set
      refine owed.take set fun quiet v other differs there ready stale => ?_
      exact spared ⟨set, quiet, v, other, differs, there, ready, stale⟩
    · rename_i unset
      refine owed.write (fun set => absurd set unset) fun _ stale => ?_
      exact owed.pending waiter (List.mem_of_getElem? here) (.inl phase) stale
  | case13 w =>
    intro _ done
    obtain ⟨waiter, -, lapsed⟩ := Option.bind_eq_some_iff.mp done
    obtain ⟨-, ⟨⟩⟩ := Option.ite_none_right_eq_some.mp lapsed
    exact owed.put ⟨nofun, nofun⟩
  | case14 w =>
    intro spared done
    obtain ⟨waiter, found, rfl⟩ := Option.map_eq_some_iff.mp done
    split
    · rename_i set
      refine owed.take set fun quiet v other differs there ready stale => ?_
      exact spared ⟨set, quiet, v, other, differs, there, ready, stale⟩
    · split <;> exact owed.put ⟨nofun, nofun⟩
  | _ => rintro - ⟨⟩

theorem Owed.safe (owed : Owed procMax s) : Safe procMax s := by
  refine ⟨fun ⟨unset, quiet, waiter, member, blocked, stale⟩ => ?_,
    fun w t done ⟨unset, quiet, waiter, member, blocked, stale⟩ => ?_⟩
  · rcases owed.pending waiter member (.inr blocked) stale with set | setting
    · rw [unset] at set
      cases set
    · rw [quiet] at setting
      cases setting
  · obtain ⟨at_work, found, rfl⟩ := Option.map_eq_some_iff.mp done
    obtain ⟨here, ready⟩ := working_some found
    split at member
    · rename_i set
      rcases mem_put member with rfl | ⟨v, -, there⟩
      · cases blocked
      · exact owed.clear set waiter (List.mem_of_getElem? there) blocked
    · rename_i clear
      rw [if_neg clear] at quiet stale
      have pending : s.bit = true ∨ s.setting = true := by
        rcases mem_put member with rfl | ⟨v, -, there⟩
        · exact owed.pending at_work (List.mem_of_getElem? here) (.inl ready) stale
        · exact owed.pending waiter (List.mem_of_getElem? there) (.inr blocked) stale
      rcases pending with set | setting
      · exact clear set
      · rw [show s.setting = false from quiet] at setting
        cases setting

theorem lost_by_await {v : Nat} (unset : s.bit = false) (quiet : s.setting = false)
    (here : s.waiters[v]? = some waiter) (ready : waiter.phase = .ready)
    (stale : Stale procMax s waiter) :
    ∃ t, step procMax s (.await v) = some t ∧ Lost procMax t := by
  have found : working s v .ready = some waiter :=
    Option.filter_eq_some_iff.mpr ⟨here, decide_eq_true ready⟩
  refine ⟨put s v waiter .blocked, ?_, unset, quiet, { waiter with phase := .blocked },
    mem_put_self here, rfl, stale⟩
  dsimp only [step]
  rw [found, Option.map_some, if_neg (by rw [unset]; nofun)]

theorem steals_lost {e : Event} (steals : Steals procMax s e) (done : step procMax s e = some t) :
    ¬Safe procMax t := by
  intro safe
  suffices left : ∃ v waiter, t.bit = false ∧ t.setting = false ∧ t.waiters[v]? = some waiter ∧
      waiter.phase = .ready ∧ Stale procMax t waiter by
    obtain ⟨v, waiter, unset, quiet, here, ready, stale⟩ := left
    obtain ⟨u, awaited, lost⟩ := lost_by_await unset quiet here ready stale
    exact safe.2 v u awaited lost
  cases e with
  | set =>
    obtain ⟨⟨sleeper, present, blocked⟩, waiter, member, ready, stale⟩ := steals
    obtain ⟨v, here⟩ := List.mem_iff_getElem?.mp member
    have woken : s.waiters.any (fun waiter => waiter.phase = .blocked) = true :=
      List.any_eq_true.mpr ⟨sleeper, present, decide_eq_true blocked⟩
    dsimp only [step] at done
    rw [if_pos woken] at done
    split at done
    · cases done
    · cases done
      refine ⟨v, waiter, rfl, rfl, ?_, ready, stale⟩
      rw [List.getElem?_map, here, Option.map_some, wake, if_neg (by rw [ready]; nofun)]
  | await w | recheck w =>
    obtain ⟨set, quiet, v, waiter, differs, here, ready, stale⟩ := steals
    obtain ⟨taker, -, rfl⟩ := Option.map_eq_some_iff.mp done
    rw [if_pos set]
    exact ⟨v, waiter, rfl, quiet, (List.getElem?_set_ne differs.symm).trans here, ready, stale⟩
  | _ => exact steals.elim

end Steps

theorem owed_boot : Owed procMax boot := ⟨nofun, nofun⟩

/-- No exit is lost, at any moment of the run, exactly where the bit is never taken from under a
task on its way from its look to its wait. -/
theorem no_lost_exit_iff {es : List Event} {s : System}
    (done : run (step procMax) boot es = some s) :
    (∀ before t, before <+: es → run (step procMax) boot before = some t → Safe procMax t) ↔
      Along (step procMax) (fun s e => ¬Steals procMax s e) boot es :=
  safe_throughout_iff (fun _ _ _ owed spared stepped => owed_step owed spared stepped)
  (fun _ owed => owed.safe)
    (fun _ _ _ _ steals stepped => steals_lost steals stepped) (owed_boot procMax) done

def woken : List Event :=
  [.table (.spawn .app 1 [] 0), .call (.one 2 true) false, .look 0 false, .await 0,
    .record 0 .exited 7 1, .set,
    .look 0 false]

theorem no_lost_exit_alone : (run (step 4) boot woken).isSome ∧
    ∀ before t, before <+: woken → run (step 4) boot before = some t → Safe 4 t := by
  obtain ⟨s, done⟩ : ∃ s, run (step 4) boot woken = some s := ⟨_, rfl⟩
  refine ⟨by rw [done]; rfl, (no_lost_exit_iff 4 done).mpr ?_⟩
  refine ⟨id, fun _ spawned =>
    ⟨id, fun _ called => ⟨id, fun _ looked => ⟨?_, fun _ awaited => ⟨id, fun _ ended =>
    ⟨?_, fun _ _ => ⟨id, fun _ _ => trivial⟩⟩⟩⟩⟩⟩⟩
  · cases spawned
    cases called
    cases looked
    exact fun steals => Bool.false_ne_true steals.1
  · cases spawned
    cases called
    cases looked
    cases awaited
    cases ended
    rintro ⟨-, waiter, member, ready, -⟩
    cases List.mem_singleton.mp member
    cases ready

/-- The first task looks while its program is alive, the second one takes the bit for its own wait,
and the first goes to sleep for good. -/
def bitTaken : List Event :=
  [.table (.spawn .app 1 [] 0), .table (.spawn .app 1 [] 0), .call (.one 2 true) false,
    .call (.one 3 true) false,
    .look 0 false, .look 1 false, .record 0 .exited 7 1, .set, .await 1, .await 0]

theorem exit_lost : ∃ s, run (step 4) boot bitTaken = some s ∧ Lost 4 s := by
  refine ⟨_, rfl, rfl, rfl, ⟨.one 2 true, false, .blocked⟩, List.mem_cons_self,
    rfl, rfl, 2, true, rfl, ?_, ?_⟩
  · decide
  · decide

end Espix.Proc.Waiting
