import Espix.Proc.Tasks
import Mathlib.Data.List.Nodup
import Mathlib.Tactic

/-! The invariant of the process table, the thread books and the tasks.

A task is the main task of at most one slot, or booked as one thread of one
process, never both; a booked thread has its slot in its local storage and no
session there. -/

namespace Espix.Proc.Tasks

open Function Fs.Access Lib

structure Inv (cfg : Config) (s : State) : Prop where
  bounded : ∀ i a, s.slots i = some a → i < cfg.procMax
  main_unique : ∀ i j a b t, s.slots i = some a → s.slots j = some b →
    a.task = some t → b.task = some t → i = j
  main_live : ∀ i a t, s.slots i = some a → a.task = some t → s.live t = true
  thread_live : ∀ e ∈ s.threads, ∀ t, e.task = some t → s.live t = true
  thread_session : ∀ e ∈ s.threads, ∀ t, e.task = some t → s.sessionTls t = none
  thread_tls : ∀ e ∈ s.threads, ∀ t, e.task = some t → s.procTls t = some e.slot
  thread_main : ∀ e ∈ s.threads, ∀ t, e.task = some t →
    ∀ i a, s.slots i = some a → a.task ≠ some t
  thread_slot : ∀ e ∈ s.threads, s.slots e.slot ≠ none
  thread_unique : ∀ e ∈ s.threads, ∀ e' ∈ s.threads, ∀ t,
    e.task = some t → e'.task = some t → e = e'
  tids_nodup : (s.threads.map (·.tid)).Nodup
  tids_old : ∀ e ∈ s.threads, e.tid < s.nextPid
  tls_owner : ∀ t i, s.procTls t = some i →
    (∃ a, s.slots i = some a ∧ a.task = some t ∧ a.kind = .app) ∨
      ∃ e ∈ s.threads, e.slot = i ∧ e.task = some t

theorem boot_inv (cfg : Config) (sessions : SessionId → Cred) : Inv cfg (boot sessions) := by
  constructor <;> simp [boot]

variable {i : SlotId} {t : TaskId} {a : Slot}

section Lookup

variable {cfg : Config} {s : State}

theorem allocSlot_spec (found : allocSlot cfg s = some i) : i < cfg.procMax ∧ s.slots i = none := by
  have member := List.mem_of_find?_eq_some found
  have free := List.find?_some found
  exact ⟨List.mem_range.mp member, by simpa using free⟩

theorem slotOfTask_spec (found : slotOfTask cfg s t = some i) :
    ∃ a, s.slots i = some a ∧ a.task = some t := by
  have hit := List.find?_some found
  simpa [Option.any_eq_true] using hit

theorem slotOfTask_task (found : slotOfTask cfg s t = some i)
    (slot : s.slots i = some a) : a.task = some t := by
  obtain ⟨b, slot_b, task⟩ := slotOfTask_spec found
  rw [slot] at slot_b
  cases slot_b
  exact task

theorem slotOfTask_main (inv : Inv cfg s)
    (slot : s.slots i = some a) (main : a.task = some t) : slotOfTask cfg s t = some i := by
  cases found : slotOfTask cfg s t with
  | none =>
    have missing := List.find?_eq_none.mp found i (List.mem_range.mpr (inv.bounded i a slot))
    simp [slot, main] at missing
  | some j =>
    obtain ⟨b, slot', main'⟩ := slotOfTask_spec found
    rw [inv.main_unique i j a b t slot slot' main main']

theorem slotOfTask_none (inv : Inv cfg s) (none_found : slotOfTask cfg s t = none)
    (i : SlotId) (a : Slot) (slot : s.slots i = some a) : a.task ≠ some t := by
  intro main
  rw [slotOfTask_main inv slot main] at none_found
  cases none_found

theorem isThread_iff : isThread s t = true ↔ ∃ e ∈ s.threads, e.task = some t := by
  simp [isThread]

theorem not_isThread (plain : isThread s t = false) : ∀ e ∈ s.threads, e.task ≠ some t := by
  intro e member task
  rw [isThread_iff.mpr ⟨e, member, task⟩] at plain
  cases plain

end Lookup

variable {v : List Thread} {tid : Nat} {e : Thread}

section Frames

variable {cfg : Config} {s s' : State}

structure Local (s : State) (t : TaskId) : Prop where
  main_unique : ∀ i j a b, s.slots i = some a → s.slots j = some b → a.task = some t →
    b.task = some t → i = j
  main_live : ∀ i a, s.slots i = some a → a.task = some t → s.live t = true
  thread : ∀ e ∈ s.threads, e.task = some t → s.live t = true ∧ s.sessionTls t = none ∧
    s.procTls t = some e.slot ∧
    ∀ i a, s.slots i = some a → a.task ≠ some t
  thread_unique : ∀ e ∈ s.threads, ∀ e' ∈ s.threads, e.task = some t → e'.task = some t → e = e'
  tls_owner : ∀ i, s.procTls t = some i →
    (∃ a, s.slots i = some a ∧ a.task = some t ∧ a.kind = .app) ∨ ∃ e ∈ s.threads, e.slot = i ∧
    e.task = some t

structure Books (cfg : Config) (slots : SlotId → Option Slot) (threads : List Thread)
    (nextPid : Nat) : Prop where
  bounded : ∀ i a, slots i = some a → i < cfg.procMax
  thread_slot : ∀ e ∈ threads, slots e.slot ≠ none
  tids_nodup : (threads.map (·.tid)).Nodup
  tids_old : ∀ e ∈ threads, e.tid < nextPid

structure Apart (s s' : State) (t : TaskId) : Prop where
  slots : ∀ i a u, a.task = some u → u ≠ t → (s'.slots i = some a ↔ s.slots i = some a)
  threads : ∀ e u, e.task = some u → u ≠ t → (e ∈ s'.threads ↔ e ∈ s.threads)
  tasks : ∀ u, u ≠ t → s'.live u = s.live u ∧ s'.procTls u = s.procTls u ∧
    s'.sessionTls u = s.sessionTls u

theorem Books.update {slot : Option Slot} (books : Books cfg s.slots s.threads s.nextPid)
    (fits : slot ≠ none → i < cfg.procMax) (empty : slot = none → ∀ e ∈ s.threads, e.slot ≠ i) :
    Books cfg (Function.update s.slots i slot) s.threads s.nextPid := by
  obtain ⟨bounded, thread_slot, tids_nodup, tids_old⟩ := books
  refine ⟨?_, ?_, tids_nodup, tids_old⟩ <;> simp only [update_apply] <;> grind

theorem mem_threadsRemove : e ∈ threadsRemove v tid ↔ e ∈ v ∧ e.tid ≠ tid := by
  simp [threadsRemove]

theorem threadsSetTask_tids (v : List Thread) (tid : Nat) (t : TaskId) :
    (threadsSetTask v tid t).map (·.tid) = v.map (·.tid) := by
  simp only [threadsSetTask, List.map_map]
  apply List.map_congr_left
  intro e _
  simp only [Function.comp]
  split <;> rfl

variable (inv : Inv cfg s)

include inv

theorem Inv.local (t : TaskId) : Local s t := by
  obtain ⟨-, main_unique, main_live, thread_live, thread_session, thread_tls,
    thread_main, -, thread_unique, -, -, owner⟩ := inv
  constructor <;> grind

theorem Inv.change (apart : Apart s s' t) (after : Local s' t)
    (books : Books cfg s'.slots s'.threads s'.nextPid) : Inv cfg s' := by
  have each : ∀ u, Local s' u := by
    intro u
    by_cases same : u = t
    · exact same ▸ after
    · obtain ⟨slots, threads, tasks⟩ := apart
      cases inv.local u
      constructor <;> grind
  refine ⟨books.bounded, fun i j a b u => (each u).main_unique i j a b,
    fun i a u => (each u).main_live i a,
    fun e member u task => ((each u).thread e member task).1, fun e member u task =>
    ((each u).thread e member task).2.1,
    fun e member u task => ((each u).thread e member task).2.2.1,
    fun e member u task => ((each u).thread e member task).2.2.2, books.thread_slot,
    fun e member e' member' u => (each u).thread_unique e member e' member', books.tids_nodup,
    books.tids_old,
    fun u => (each u).tls_owner⟩

theorem Inv.books : Books cfg s.slots s.threads s.nextPid :=
  ⟨inv.bounded, inv.thread_slot, inv.tids_nodup, inv.tids_old⟩

theorem newTask_inv (dead : s.live t = false) : Inv cfg (s.newTask t) := by
  have here := inv.local t
  refine inv.change (t := t) ?_ ?_ inv.books
  · constructor <;> simp only [State.newTask, update_apply] <;> grind
  · cases here
    constructor <;> simp only [State.newTask, update_apply] <;> grind

theorem dropTask_inv (main : ∀ i a, s.slots i = some a → a.task ≠ some t)
    (thread : ∀ e ∈ s.threads, e.task ≠ some t) : Inv cfg (s.dropTask t) := by
  refine inv.change (t := t) ?_ ?_ inv.books
  · constructor <;> simp only [State.dropTask, update_apply] <;> grind
  · constructor <;> simp only [State.dropTask, update_apply] <;> grind

theorem setCurrent_inv (session : Option SessionId)
    (thread : ∀ e ∈ s.threads, e.task ≠ some t) : Inv cfg (s.setCurrent t session) := by
  have here := inv.local t
  refine inv.change (t := t) ?_ ?_ inv.books
  · constructor <;> simp only [State.setCurrent, update_apply] <;> grind
  · cases here
    constructor <;> simp only [State.setCurrent, update_apply] <;> grind

theorem setProcTls_inv {owner : Option SlotId} (thread : ∀ e ∈ s.threads, e.task ≠ some t)
    (app : ∀ i, owner = some i → ∃ a, s.slots i = some a ∧ a.task = some t ∧ a.kind = .app) :
    Inv cfg (s.setProcTls t owner) := by
  have here := inv.local t
  refine inv.change (t := t) ?_ ?_ inv.books
  · constructor <;> simp only [State.setProcTls, update_apply] <;> grind
  · cases here
    constructor <;> simp only [State.setProcTls, update_apply] <;> grind

theorem Inv.setSlot_same {b : Slot} (slot : s.slots i = some a)
    (task : b.task = a.task) (kind : a.kind = .app → b.kind = .app) : Inv cfg
    (s.setSlot i (some b)) := by
  have here := inv.local (a.task.getD 0)
  refine inv.change (t := a.task.getD 0) ?_ ?_
    (inv.books.update (fun _ => inv.bounded i a slot) nofun)
  · constructor <;> simp only [State.setSlot, update_apply] <;> grind
  · cases here
    constructor <;> simp only [State.setSlot, update_apply] <;> grind

theorem Inv.setSlot_new (free : i < cfg.procMax ∧ s.slots i = none) (task : a.task = some t)
    (alive : s.live t = true)
    (thread : ∀ e ∈ s.threads, e.task ≠ some t)
    (main : ∀ j b, s.slots j = some b → b.task ≠ some t) : Inv cfg (s.setSlot i (some a)) := by
  have here := inv.local t
  refine inv.change (t := t) ?_ ?_ (inv.books.update (fun _ => free.1) nofun)
  · constructor <;> simp only [State.setSlot, update_apply] <;> grind
  · cases here
    constructor <;> simp only [State.setSlot, update_apply] <;> grind

theorem finishSlot_inv (done : finishSlot s i = some s')
    (noTls : ∀ t a, s.procTls t = some i → s.slots i = some a → a.task = some t →
      a.kind ≠ .app) : Inv cfg s' := by
  obtain ⟨idle, ⟨⟩⟩ := Option.ite_none_right_eq_some.mp done
  have none_left : ∀ e ∈ s.threads, e.slot ≠ i := by
    simpa [threadsOf, List.filter_eq_nil_iff] using idle
  have here := inv.local (((s.slots i).bind Slot.task).getD 0)
  refine inv.change (t := ((s.slots i).bind Slot.task).getD 0) ?_ ?_
    (inv.books.update nofun fun _ => none_left)
  · constructor <;> simp only [State.setSlot, update_apply] <;> grind
  · cases here
    constructor <;> simp only [State.setSlot, update_apply] <;> grind

theorem dropMain_inv (slot : s.slots i = some a) (main : a.task = some t) :
    Inv cfg ((s.dropTask t).setSlot i (some { a with task := none })) := by
  have here := inv.local t
  refine inv.change (t := t) ?_ ?_ (inv.books.update (fun _ => inv.bounded i a slot) nofun)
  · constructor <;> simp only [State.dropTask, State.setSlot, update_apply] <;> grind
  · cases here
    constructor <;> simp only [State.dropTask, State.setSlot, update_apply] <;> grind

theorem Inv.tid_inj {e' : Thread} (he : e ∈ s.threads) (he' : e' ∈ s.threads)
    (same : e.tid = e'.tid) : e = e' :=
  List.inj_on_of_nodup_map inv.tids_nodup he he' same

theorem Inv.books_remove (tid : Nat) : Books cfg s.slots (threadsRemove s.threads tid) s.nextPid :=
  ⟨inv.bounded, fun e member => inv.thread_slot e (mem_threadsRemove.mp member).1,
    inv.tids_nodup.sublist (List.Sublist.map _ List.filter_sublist), fun e member =>
    inv.tids_old e (mem_threadsRemove.mp member).1⟩

theorem removeReservation_inv (reserved : ∀ e ∈ s.threads, e.tid = tid → e.task = none) :
    Inv cfg { s with threads := threadsRemove s.threads tid } := by
  have here := inv.local 0
  refine inv.change (t := 0) ?_ ?_ (inv.books_remove tid)
  · constructor <;> grind [mem_threadsRemove]
  · cases here
    constructor <;> grind [mem_threadsRemove]

theorem removeThread_inv (member : e ∈ s.threads) (task : e.task = some t) :
    Inv cfg { s.dropTask t with threads := threadsRemove s.threads e.tid } := by
  have here := inv.local t
  have same := fun other (there : other ∈ s.threads) => inv.tid_inj there member
  refine inv.change (t := t) ?_ ?_ (inv.books_remove e.tid)
  · constructor <;> simp only [State.dropTask, update_apply] <;> grind [mem_threadsRemove]
  · cases here
    constructor <;> simp only [State.dropTask, update_apply] <;> grind [mem_threadsRemove]

theorem startThread_inv (member : e ∈ s.threads)
    (reserved : e.task = none) (dead : s.live t = false) :
    Inv cfg { (s.newTask t).setProcTls t (some e.slot) with
      threads := threadsSetTask s.threads e.tid t } := by
  have here := inv.local t
  have same := fun other (there : other ∈ s.threads) => inv.tid_inj there member
  -- An entry of the new books is the entered one, or an old entry of another task.
  have entry : ∀ e', e' ∈ threadsSetTask s.threads e.tid t ↔ e' = { e with task := some t } ∨
      e' ∈ s.threads ∧ e' ≠ e := by
    simp only [threadsSetTask, List.mem_map]
    grind
  have slots := inv.thread_slot
  have old := inv.tids_old
  refine inv.change (t := t) ?_ ?_ ⟨inv.bounded, ?_,
    threadsSetTask_tids s.threads e.tid t ▸ inv.tids_nodup, ?_⟩
  · constructor <;> simp only [State.newTask, State.setProcTls, update_apply] <;> grind
  · cases here
    have new := (entry _).mpr (.inl rfl)
    constructor <;> simp only [State.newTask, State.setProcTls, update_apply] <;> grind
  · simp only [State.newTask, State.setProcTls]
    grind
  · simp only [State.newTask, State.setProcTls]
    grind

theorem reserveThread_inv (slot : s.slots i ≠ none) :
    Inv cfg
    { s with threads := s.threads ++ [⟨i, s.nextPid, none⟩], nextPid := s.nextPid + 1 } := by
  have here := inv.local 0
  have slots := inv.thread_slot
  have nodup := inv.tids_nodup
  have old := inv.tids_old
  refine inv.change (t := 0) ?_ ?_ ⟨inv.bounded, ?_, ?_, ?_⟩
  · constructor <;> grind
  · cases here
    constructor <;> grind
  · grind
  · grind
  · grind

theorem dead_unowned (dead : s.live t = false) :
    (∀ i a, s.slots i = some a → a.task ≠ some t) ∧ ∀ e ∈ s.threads, e.task ≠ some t := by
  constructor
  · intro i a slot task
    rw [inv.main_live i a t slot task] at dead
    cases dead
  · intro e member task
    rw [inv.thread_live e member t task] at dead
    cases dead

theorem Inv.untouched (slots : s'.slots = s.slots)
    (threads : s'.threads = s.threads) (pid : s.nextPid ≤ s'.nextPid) (live : s'.live = s.live)
    (tls : s'.procTls = s.procTls) (session : s'.sessionTls = s.sessionTls) : Inv cfg s' := by
  cases s'
  cases slots
  cases threads
  cases live
  cases tls
  cases session
  exact { inv with tids_old := fun e member => (inv.tids_old e member).trans_le pid }

end Frames

variable {session : Option SessionId}

section Steps

variable {cfg : Config} {s s' : State}

theorem procSelf_slot (self : procSelf cfg s t = some i) : s.slots i ≠ none := by
  have byHandle : slotOfTask cfg s t = some i → s.slots i ≠ none := by
    intro found
    obtain ⟨a, slot, -⟩ := slotOfTask_spec found
    simp [slot]
  simp only [procSelf] at self
  split at self
  · split at self
    · rename_i present
      cases self
      exact Option.isSome_iff_ne_none.mp present
    · exact byHandle self
  · exact byHandle self

theorem procSelf_none (inv : Inv cfg s) (self : procSelf cfg s t = none) :
    (∀ i a, s.slots i = some a → a.task ≠ some t) ∧ ∀ e ∈ s.threads, e.task ≠ some t := by
  have handle : slotOfTask cfg s t = none := by
    simp only [procSelf] at self
    split at self
    · split at self
      · cases self
      · exact self
    · exact self
  refine ⟨slotOfTask_none inv handle, fun e member task => ?_⟩
  have present := Option.isSome_iff_ne_none.mpr (inv.thread_slot e member)
  simp [procSelf, inv.thread_tls e member t task, present] at self

theorem find_tid (found : v.find? (·.tid == tid) = some e) : e ∈ v ∧ e.tid = tid :=
  ⟨List.mem_of_find?_eq_some found, by simpa using List.find?_some found⟩

section

variable (inv : Inv cfg s)

include inv

theorem spawn_inv (free : allocSlot cfg s = some i) (dead : s.live t = false)
    (task : a.task = some t) :
    Inv cfg ((s.newTask t).setSlot i (some a)) := by
  obtain ⟨main, thread⟩ := dead_unowned inv dead
  exact (newTask_inv inv dead).setSlot_new (allocSlot_spec free) task (by simp [State.newTask])
    thread main

theorem step_inv {e : Event} (done : step cfg s e = some s') : Inv cfg s' := by
  revert done
  fun_cases step cfg s e with
  | case2 t dead =>
    rintro ⟨⟩
    exact newTask_inv inv (by simpa using dead)
  | case3 t plain =>
    rintro ⟨⟩
    simp only [Bool.and_eq_true, Option.isNone_iff_eq_none, Bool.not_eq_true'] at plain
    exact dropTask_inv inv (slotOfTask_none inv plain.1.2) (not_isThread plain.2)
  | case6 t session setuid setgid root i free dead =>
    rintro ⟨⟩
    exact spawn_inv inv free (by simpa using dead) rfl
  | case8 t i found slot present app =>
    -- the program starts on its own task
    rintro ⟨⟩
    have task : slot.task = some t := slotOfTask_task found present
    have thread : ∀ e ∈ s.threads, e.task ≠ some t :=
      fun e member taken => inv.thread_main e member t taken i slot present task
    have owned : Inv cfg (s.setProcTls t (some i)) :=
      setProcTls_inv inv thread (by rintro j ⟨⟩; exact ⟨slot, present, task, app⟩)
    exact setCurrent_inv owned slot.session thread
  | case12 t i found =>
    rintro ⟨⟩
    obtain ⟨a, slot, -⟩ := slotOfTask_spec found
    rw [slot]
    exact inv.setSlot_same slot rfl id
  | case15 t kind session i free dead =>
    rintro ⟨⟩
    simp only [Bool.or_eq_true, not_or, Bool.not_eq_true] at dead
    exact spawn_inv inv free dead.1 rfl
  | case18 t session alive i self slot present worker =>
    rintro ⟨⟩
    exact inv.setSlot_same present rfl (by simp [worker.1])
  | case21 t session alive self i free =>
    rintro ⟨⟩
    obtain ⟨main, thread⟩ := procSelf_none inv self
    exact inv.setSlot_new (allocSlot_spec free) rfl (by simpa using alive) thread main
  | case24 t i self slot present shell was =>
    rintro ⟨⟩
    simp only [ne_eq, not_or, not_not] at shell
    exact inv.setSlot_same present rfl (by simp [shell.1])
  | case25 t i self slot present shell was =>
    simp only [ne_eq, not_or, not_not] at shell
    refine fun done => finishSlot_inv inv done fun u a _ slot_a _ app => ?_
    rw [present] at slot_a
    cases slot_a
    simp [shell.1] at app
  | case28 t plain i free =>
    rintro ⟨⟩
    simp only [Bool.and_eq_true, Option.isNone_iff_eq_none, Bool.not_eq_true'] at plain
    exact inv.setSlot_new (allocSlot_spec free) rfl plain.1.1 (not_isThread plain.2)
      (slotOfTask_none inv plain.1.2)
  | case31 t i found worker =>
    refine fun done => finishSlot_inv inv done fun u a _ slot _ app => ?_
    simp [slot, app] at worker
  | case34 t session plain =>
    rintro ⟨⟩
    simp only [Bool.and_eq_true, Bool.not_eq_true'] at plain
    exact setCurrent_inv inv session (not_isThread plain.2)
  | case36 caller i self v added =>
    rintro ⟨⟩
    obtain ⟨-, added⟩ := Option.ite_none_left_eq_some.mp added
    split at added
    · cases added
      exact reserveThread_inv inv (procSelf_slot self)
    · cases added
  | case37 caller i self refused =>
    -- the number is used up all the same
    rintro ⟨⟩
    exact inv.untouched rfl rfl (Nat.le_succ _) rfl rfl rfl
  | case40 tid reserved =>
    rintro ⟨⟩
    refine removeReservation_inv inv fun e member same => ?_
    by_contra running
    refine reserved (List.any_eq_true.mpr ⟨e, member, ?_⟩)
    simp [same, Option.isSome_iff_ne_none, running]
  | case42 t tid e found fresh =>
    rintro ⟨⟩
    obtain ⟨member, rfl⟩ := find_tid found
    simp only [Bool.or_eq_true, not_or, Bool.not_eq_true, Option.isSome_eq_false_iff,
      Option.isNone_iff_eq_none] at fresh
    exact startThread_inv inv member fresh.2 fresh.1
  | case44 t tid found =>
    rintro ⟨⟩
    simp only [threadsTidOf, Option.map_eq_some_iff] at found
    obtain ⟨e, hit, rfl⟩ := found
    exact removeThread_inv inv (List.mem_of_find?_eq_some hit) (by simpa using List.find?_some hit)
  | case46 tid e found after =>
    rintro ⟨⟩
    obtain ⟨member, rfl⟩ := find_tid found
    cases task : e.task with
    | some t => simpa [after, task] using removeThread_inv inv member task
    | none =>
      have left := removeReservation_inv inv fun e' member' same => by
        rw [inv.tid_inj member' member same, task]
      simpa [after, task] using left
  | case48 t i found =>
    intro done
    obtain ⟨a, slot, main⟩ := slotOfTask_spec found
    have left := dropMain_inv inv slot main
    apply finishSlot_inv left (i := i)
    · simpa [finishSlot, threadsOf, State.setSlot, State.dropTask] using done
    · intro u b _ slot_b main_b
      have : b = { a with task := none } := by simpa [State.setSlot] using slot_b.symm
      rw [this] at main_b
      cases main_b
  | case50 i slot present t main app =>
    rintro ⟨⟩
    exact dropMain_inv inv present main
  | case54 i orphan =>
    refine fun done => finishSlot_inv inv done fun u a _ slot main => ?_
    simp [slot, main] at orphan
  | case56 | case58 | case60 | case61 | case62 =>
    rintro ⟨⟩
    exact inv.untouched rfl rfl le_rfl rfl rfl rfl
  | _ => rintro ⟨⟩

end

end Steps

end Espix.Proc.Tasks
