import Espix.Lib.Run
import Espix.Umode.Signal

/-! What is true of every thread of a U-mode process in every run: which signals it can block,
which registers it goes on with, and what is kept of the call it made last. -/

namespace Espix.Umode.Delivery

open Function Lib.Page Lib.Run Lib.Words Copy Mm Signal

variable {c : Libc} {p q : Proc} {i j : Nat} {t : Thread}

def context (t : Thread) : Regs := if t.diverted then t.regs.set pc t.sigPc else t.regs

def afterCall (r : Regs) (ret : Word) : Regs := (r.set pc (r pc + 4)).set a0 ret

def CallKept (t : Thread) : Prop := t.sysNr = t.atCall a7 ∧ t.sysA0 = t.atCall a0

structure ThreadOk (c : Libc) (t : Thread) : Prop where
  blocked : t.blocked &&& uncatchable c = 0
  saved : t.saved &&& uncatchable c = 0
  quiet : t.mode = .user → t.diverted = false → t.sysIntr = false ∧ t.suspended = false
  kicked : t.diverted = true → t.mode = .user
  silent : t.mode ≠ .user → t.sysIntr = false
  calling : t.mode = .call → CallKept t ∧ t.regs = t.atCall.set pc (t.atCall pc + 4)
  interrupted : t.sysIntr = true ∨ t.mode = .delivering true →
    CallKept t ∧ context t = afterCall t.atCall (minusEintr c)

section Masks

variable {a b : Word}

theorem strip_apart (a b : Word) : a &&& ~~~b &&& b = 0 := by
  rw [and_eq_zero_iff]
  intro i small inside
  rw [BitVec.getLsbD_and, BitVec.getLsbD_not, Bool.and_eq_true] at inside
  simpa [small] using inside.2

theorem strip_same (apart : a &&& b = 0) : a &&& ~~~b = a := by
  rw [and_eq_zero_iff] at apart
  apply BitVec.eq_of_getLsbD_eq
  intro i small
  rw [BitVec.getLsbD_and, BitVec.getLsbD_not]
  cases inside : a.getLsbD i with
  | false => rfl
  | true =>
    rw [apart i small inside]
    simp [small]

theorem or_apart {d : Word} (left : a &&& d = 0) (right : b &&& d = 0) : (a ||| b) &&& d = 0 := by
  rw [and_eq_zero_iff] at left right ⊢
  intro i small inside
  rw [BitVec.getLsbD_or, Bool.or_eq_true] at inside
  exact inside.elim (left i small) (right i small)

theorem and_apart {d : Word} (b : Word) (left : a &&& d = 0) : a &&& b &&& d = 0 := by
  rw [and_eq_zero_iff] at left ⊢
  intro i small inside
  rw [BitVec.getLsbD_and, Bool.and_eq_true] at inside
  exact left i small inside.1

end Masks

section Threads

structure Ready (c : Libc) (t : Thread) : Prop where
  blocked : t.blocked &&& uncatchable c = 0
  saved : t.saved &&& uncatchable c = 0
  straight : t.diverted = false
  interrupted : t.sysIntr = true → CallKept t ∧ t.regs = afterCall t.atCall (minusEintr c)

theorem ThreadOk.of_quiet (blocked : t.blocked &&& uncatchable c = 0)
    (saved : t.saved &&& uncatchable c = 0)
    (user : t.mode = .user) (silent : t.sysIntr = false)
    (awake : t.suspended = false) : ThreadOk c t := by
  refine ⟨blocked, saved, fun _ _ => ⟨silent, awake⟩, fun _ => user, fun _ => silent, ?_, ?_⟩
  · rw [user]
    exact nofun
  · rw [silent, user]
    exact nofun

@[simp]
theorem set_set (r : Regs) (i : Fin 32) (v w : Word) : (r.set i v).set i w = r.set i w := by
  simp [Regs.set]

@[simp]
theorem set_self (r : Regs) (i : Fin 32) : r.set i (r i) = r := by
  simp [Regs.set]

theorem Ready.restored (ready : Ready c t) : Ready c (restored t) := by
  unfold Signal.restored
  split
  · exact ⟨ready.saved, ready.saved, ready.straight, ready.interrupted⟩
  · exact ready

theorem ok_returnTo (ready : Ready c t) (p : Proc) : ThreadOk c (returnTo p t) := by
  fun_cases returnTo p t with
  | case1 diverted => exact absurd (ready.straight.symm.trans diverted) nofun
  | case2 =>
    refine ⟨ready.blocked, ready.saved, nofun, fun _ => rfl, nofun, nofun, ?_⟩
    rintro (intr | delivering)
    · obtain ⟨kept, same⟩ := ready.interrupted intr
      refine ⟨kept, ?_⟩
      simp only [context, if_true, set_set, set_self]
      exact same
    · cases delivering
  | case3 =>
    have back := ready.restored
    refine .of_quiet back.blocked back.saved rfl rfl ?_
    show (Signal.restored t).suspended = false
    fun_cases Signal.restored t with
    | case1 => rfl
    | case2 awake => exact Bool.eq_false_iff.mpr awake

theorem Ready.of_silent (blocked : t.blocked &&& uncatchable c = 0)
    (saved : t.saved &&& uncatchable c = 0)
    (straight : t.diverted = false) (silent : t.sysIntr = false) : Ready c t :=
  ⟨blocked, saved, straight, fun intr => by rw [silent] at intr; cases intr⟩

theorem ThreadOk.ready (ok : ThreadOk c t) (straight : t.diverted = false)
    (silent : t.sysIntr = false) : Ready c t :=
  .of_silent ok.blocked ok.saved straight silent

theorem ThreadOk.straight (ok : ThreadOk c t) (away : t.mode ≠ .user) : t.diverted = false := by
  cases diverted : t.diverted with
  | false => rfl
  | true => exact absurd (ok.kicked diverted) away

theorem ready_entered (ready : Ready c t) (silent : t.sysIntr = false) (sig : Nat) (act : Action) :
    Ready c (entered c t sig act) :=
  .of_silent (strip_apart _ _) ready.saved ready.straight silent

theorem afterCall_undone (r : Regs) (ret : Word) :
    ((afterCall r ret).set pc (afterCall r ret pc - 4)).set a0 (r a0) = r := by
  have differ : pc ≠ a0 := by decide
  funext k
  simp only [afterCall, Regs.set, update_apply, if_neg differ]
  by_cases first : k = a0
  · simp [first]
  · by_cases zeroth : k = pc
    · subst zeroth
      simp only [if_neg differ, if_true]
      exact BitVec.add_sub_cancel _ _
    · simp [first, zeroth]

theorem restarted_regs (ok : ThreadOk c t) (act : Action) :
    (restarted c t (t.mode == .delivering true) act).regs =
      if t.mode = .delivering true ∧ act.flags &&& c.saRestart ≠ 0 ∧
        restartable (t.atCall a7) = true then t.atCall else t.regs := by
  have condition : (t.mode == .delivering true && act.flags &&& c.saRestart != 0 &&
      restartable t.sysNr) = true ↔ t.mode = .delivering true ∧ act.flags &&& c.saRestart ≠ 0 ∧
        restartable t.sysNr = true := by
    simp only [Bool.and_eq_true, beq_iff_eq, bne_iff_ne, and_assoc]
  unfold restarted
  by_cases delivering : t.mode = .delivering true
  · obtain ⟨⟨number, argument⟩, same⟩ := ok.interrupted (.inr delivering)
    rw [context, ok.straight (by rw [delivering]; nofun)] at same
    rw [← number]
    split
    · rename_i restarts
      rw [if_pos (condition.mp restarts)]
      simp only [Bool.false_eq_true, if_false] at same
      simp only [same, argument]
      exact afterCall_undone _ _
    · rename_i stays
      rw [if_neg (fun restarts => stays (condition.mpr restarts))]
  · rw [if_neg (fun restarts => delivering (condition.mp restarts).1),
      if_neg (fun restarts => delivering restarts.1)]

end Threads

section Steps

/-- Every thread is in order, and the two signals keep their default action. -/
structure Orderly (c : Libc) (p : Proc) : Prop where
  threads : ∀ i t, p.threads i = some t → ThreadOk c t
  kill : (p.act c.kill).handler = 0
  stop : (p.act c.stop).handler = 0

variable {heap : Heap} {sig : Nat} {act : Action}

section

variable (orderly : Orderly c p)

include orderly

theorem Orderly.set (ok : ThreadOk c t) : Orderly c (p.set i (some t)) := by
  refine ⟨?_, orderly.kill, orderly.stop⟩
  intro j u there
  simp only [Proc.set, update_apply] at there
  split at there
  · cases there
    exact ok
  · exact orderly.threads j u there

theorem Orderly.drop (i : Nat) : Orderly c (p.set i none) := by
  refine ⟨?_, orderly.kill, orderly.stop⟩
  intro j u there
  simp only [Proc.set, update_apply] at there
  split at there
  · cases there
  · exact orderly.threads j u there

theorem Orderly.of_same (threads : q.threads = p.threads) (act : q.act = p.act) : Orderly c q := by
  refine ⟨?_, ?_, ?_⟩
  · rw [threads]
    exact orderly.threads
  · rw [act]
    exact orderly.kill
  · rw [act]
    exact orderly.stop

theorem orderly_resume (ready : Ready c t) : Orderly c (resume p i t) :=
  orderly.set (ok_returnTo ready p)

theorem orderly_exitGroup (i status : Nat) : Orderly c (exitGroup p i status) := by
  have leaving : Orderly c { p with exiting := true } := orderly.of_same rfl rfl
  exact (leaving.drop i).of_same rfl rfl

end

theorem forget_eq (c : Libc) (p : Proc) (sig : Nat) :
    ∃ act, forget c p sig = { p with act := act } := by
  fun_cases forget c p sig with
  | case1 => exact ⟨_, rfl⟩
  | case2 => exact ⟨p.act, rfl⟩

theorem orderly_forget (orderly : Orderly c p) (sig : Nat) : Orderly c (forget c p sig) := by
  fun_cases forget c p sig with
  | case1 act =>
    have other {n : Nat} (default : (p.act n).handler = 0) :
        (update p.act sig { act with handler := 0 } n).handler = 0 := by
      rw [update_apply]
      split
      · rfl
      · exact default
    exact ⟨orderly.threads, other orderly.kill, other orderly.stop⟩
  | case2 => exact orderly

theorem orderly_push (orderly : Orderly c p) (ready : Ready c t) (silent : t.sysIntr = false)
    (info : Info) (status : Nat) : Orderly c (push c heap p i t sig act info status) := by
  fun_cases push c heap p i t sig act info status with
  | case1 base frame r stored p' =>
    have noted : Orderly c p' := orderly.of_same rfl rfl
    exact orderly_resume noted (ready_entered ready silent sig act)
  | case2 base frame r =>
    have stored : Orderly c { p with space := r.2 } := orderly.of_same rfl rfl
    exact orderly_exitGroup stored i status

theorem ready_restarted (ready : Ready c t) (silent : t.sysIntr = false) (intr : Bool)
    (act : Action) :
    Ready c (restarted c t intr act) ∧ (restarted c t intr act).sysIntr = false := by
  fun_cases restarted c t intr act with
  | case1 => exact ⟨.of_silent ready.blocked ready.saved ready.straight silent, silent⟩
  | case2 => exact ⟨ready, silent⟩

theorem orderly_handle (orderly : Orderly c p) (ok : ThreadOk c t) (away : t.mode ≠ .user)
    (intr : Bool) : Orderly c (handle c heap p i t intr sig) := by
  have forgotten : Orderly c ((forget c p sig).note [.handled i sig]) :=
    (orderly_forget orderly sig).of_same rfl rfl
  have ready : Ready c t := ok.ready (ok.straight away) (ok.silent away)
  fun_cases handle c heap p i t intr sig with
  | case1 => exact forgotten.set ok
  | case2 act p' =>
    have stopped : Orderly c { p' with stopReq := true } := forgotten.of_same rfl rfl
    exact stopped.set ok
  | case3 => exact orderly_exitGroup forgotten i _
  | case4 act =>
    obtain ⟨again, silent⟩ := ready_restarted ready (ok.silent away) intr act
    exact orderly_push forgotten again silent _ _

theorem ThreadOk.pending (ok : ThreadOk c t) (w : Word) : ThreadOk c { t with pending := w } :=
  ⟨ok.blocked, ok.saved, ok.quiet, ok.kicked, ok.silent, ok.calling, ok.interrupted⟩

theorem take_spec (found : p.threads i = some t) :
    (take p i t).2.1.threads i = some (take p i t).2.2 ∧
      (∃ w, (take p i t).2.2 = { t with pending := w }) ∧
      ((take p i t).1 ≠ 0 → t.blocked.getLsbD (take p i t).1 = false) := by
  have unblocked {w : Word} (member : lowest (w &&& ~~~t.blocked) ≠ 0) :
      t.blocked.getLsbD (lowest (w &&& ~~~t.blocked)) = false := by
    have inside := getLsbD_lowest member
    rw [BitVec.getLsbD_and, BitVec.getLsbD_not, Bool.and_eq_true, Bool.and_eq_true] at inside
    simpa using inside.2.2
  fun_cases take p i t with
  | case1 => exact ⟨update_self _ _ _, ⟨_, rfl⟩, unblocked⟩
  | case2 => exact ⟨found, ⟨_, rfl⟩, fun zero => absurd rfl zero⟩
  | case3 => exact ⟨found, ⟨_, rfl⟩, unblocked⟩

theorem orderly_take (orderly : Orderly c p) (ok : ThreadOk c t) : Orderly c (take p i t).2.1 := by
  fun_cases take p i t with
  | case1 => exact orderly.set (ok.pending _)
  | case2 => exact orderly
  | case3 => exact orderly.of_same rfl rfl

theorem orderly_turn (orderly : Orderly c p) (found : p.threads i = some t) (away : t.mode ≠ .user)
    (intr : Bool) (next : turn c heap p i t intr = some q) : Orderly c q := by
  have ok := orderly.threads i t found
  obtain ⟨-, ⟨w, same⟩, -⟩ := take_spec found
  have taken : Orderly c (take p i t).2.1 := orderly_take orderly ok
  revert next
  fun_cases turn c heap p i t intr with
  | case1 =>
    rintro ⟨⟩
    exact orderly_exitGroup orderly i _
  | case2 => exact nofun
  | case3 _ _ r u took =>
    rintro ⟨⟩
    rw [took] at taken same
    cases same
    have left := ok.pending w
    exact orderly_resume taken (left.ready (left.straight away) (left.silent away)).restored
  | case4 _ _ sig r u took =>
    rintro ⟨⟩
    rw [took] at taken same
    cases same
    exact orderly_handle taken (ok.pending w) away intr

theorem atMode_some {ok : Thread → Bool} (there : atMode p i ok = some t) :
    p.threads i = some t ∧ ok t = true := Option.filter_eq_some_iff.mp there

theorem atMode_map {ok : Thread → Bool} {f : Thread → Proc}
    (next : (atMode p i ok).map f = some q) :
    ∃ t, p.threads i = some t ∧ ok t = true ∧ f t = q := by
  obtain ⟨t, there, made⟩ := Option.map_eq_some_iff.mp next
  obtain ⟨found, right⟩ := atMode_some there
  exact ⟨t, found, right, made⟩

theorem atMode_bind {ok : Thread → Bool} {f : Thread → Option Proc}
    (next : (atMode p i ok).bind f = some q) :
    ∃ t, p.threads i = some t ∧ ok t = true ∧ f t = some q := by
  obtain ⟨t, there, made⟩ := Option.bind_eq_some_iff.mp next
  obtain ⟨found, right⟩ := atMode_some there
  exact ⟨t, found, right, made⟩

theorem inUser_spec (there : inUser t = true) : t.mode = .user ∧ t.diverted = false := by
  simpa [inUser] using there

theorem inCall_spec (there : inCall t = true) : t.mode = .call := by
  simpa [inCall] using there

theorem inDelivery_away (there : inDelivery t = true) : t.mode ≠ .user := by
  intro user
  simp [inDelivery, user] at there

theorem orderly_sigReturn (orderly : Orderly c p) (ok : ThreadOk c t) (user : inUser t = true) :
    Orderly c (sigReturn c heap p i t) := by
  obtain ⟨mode, straight⟩ := inUser_spec user
  have read (space : Space) : Orderly c { p with space := space } := orderly.of_same rfl rfl
  fun_cases sigReturn c heap p i t with
  | case1 => exact orderly_exitGroup (read _) i _
  | case2 =>
    apply orderly_resume (read _)
    exact .of_silent (strip_apart _ _) ok.saved straight (ok.quiet mode straight).1

theorem orderly_fault (orderly : Orderly c p) (ok : ThreadOk c t) (user : inUser t = true)
    (code : Nat) (addr : Word) : Orderly c (fault c heap p i t code addr) := by
  obtain ⟨mode, straight⟩ := inUser_spec user
  have silent := (ok.quiet mode straight).1
  fun_cases fault c heap p i t code addr with
  | case1 => exact orderly_exitGroup orderly i _
  | case2 => exact orderly_exitGroup (orderly_forget orderly _) i _
  | case3 => exact orderly_push (orderly_forget orderly _) (ok.ready straight silent) silent _ _

theorem single_uncatchable (c : Libc) :
    single c.kill &&& uncatchable c ≠ 0 ∧ single c.stop &&& uncatchable c ≠ 0 := by
  have member {n : Nat} (signal : 0 < n ∧ n < 32) (inside : (uncatchable c).getLsbD n = true) :
      single n &&& uncatchable c ≠ 0 := by
    intro apart
    rw [and_eq_zero_iff] at apart
    have no := apart n signal.2 (by rw [getLsbD_single]; simp [signal])
    rw [inside] at no
    cases no
  constructor
  · apply member c.kill_signal
    rw [uncatchable, BitVec.getLsbD_or, getLsbD_single]
    simp [c.kill_signal]
  · apply member c.stop_signal
    rw [uncatchable, BitVec.getLsbD_or, getLsbD_single c.stop]
    simp [c.stop_signal]

section

variable (orderly : Orderly c p) (ok : ThreadOk c t)

include orderly ok

theorem orderly_sigaction (sig : Nat) (act : Action) : Orderly c (sigaction c p i t sig act) := by
  have assigned (act : Action) (allowed : ¬(single sig = 0 ∨ single sig &&& uncatchable c ≠ 0)) :
      Orderly c { p with act := update p.act sig act } := by
    rw [not_or, not_not] at allowed
    have other {n : Nat} (fixed : single n &&& uncatchable c ≠ 0)
      (default : (p.act n).handler = 0) :
        (update p.act sig act n).handler = 0 := by
      rw [update_of_ne]
      · exact default
      · rintro rfl
        exact fixed allowed.2
    exact ⟨orderly.threads, other (single_uncatchable c).1 orderly.kill,
      other (single_uncatchable c).2 orderly.stop⟩
  fun_cases sigaction c p i t sig act with
  | case1 => exact orderly
  | case2 allowed act p' =>
    have discarded : Orderly c (offProcess p' sig) := (assigned act allowed).of_same rfl rfl
    exact discarded.set (ok.pending _)
  | case3 allowed => exact assigned _ allowed

theorem orderly_sigClaim : Orderly c (sigClaim c p i t) := by
  fun_cases sigClaim c p i t with
  | case1 want sig =>
    have off : Orderly c (offProcess p sig) := orderly.of_same rfl rfl
    exact (off.set (ok.pending _)).of_same rfl rfl
  | case2 => exact orderly

theorem orderly_raiseSig (sig : Nat) : Orderly c (raiseSig c p i t sig) := by
  fun_cases raiseSig c p i t sig with
  | case1 => exact orderly
  | case2 => exact orderly_exitGroup orderly i _
  | case3 => exact orderly.of_same rfl rfl
  | case4 => exact (orderly.set (ok.pending _)).of_same rfl rfl

end

theorem post_cases (next : step c p (.post sig) = some q) :
    q = p ∨ q = { p with stopRequested := true, stopReq := false } ∨
      q = { p with stopReq := true } ∧ sentAs c p sig = c.stop ∨
      q = { ontoProcess p (sentAs c p sig) with stopReq := false } := by
  simp only [step] at next
  split at next
  · cases next
    exact .inl rfl
  · split at next
    · cases next
      exact .inr (.inl rfl)
    · cases next
      unfold procSignal
      split
      · rename_i stop
        exact .inr (.inr (.inl ⟨rfl, stop⟩))
      · exact .inr (.inr (.inr rfl))

theorem ThreadOk.remask (ok : ThreadOk c t) (calling : t.mode = .call) {blocked saved : Word}
    {suspended : Bool} (stripped : blocked &&& uncatchable c = 0)
    (saved_stripped : saved &&& uncatchable c = 0) :
    ThreadOk c { t with blocked := blocked, saved := saved, suspended := suspended } :=
  ⟨stripped, saved_stripped, fun user => absurd (calling.symm.trans user) nofun, ok.kicked,
    ok.silent, ok.calling, ok.interrupted⟩

theorem ok_sigprocmask (ok : ThreadOk c t) (calling : t.mode = .call) (how : How) (set : Word) :
    ThreadOk c (sigprocmask c t how set) := by
  cases how with
  | block => exact ok.remask calling (or_apart ok.blocked (strip_apart _ _)) ok.saved
  | unblock => exact ok.remask calling (and_apart _ ok.blocked) ok.saved
  | setmask => exact ok.remask calling (strip_apart _ _) ok.saved

theorem orderly_step {e : Event} (orderly : Orderly c p) (next : step c p e = some q) :
    Orderly c q := by
  cases e
  case post sig =>
    rcases post_cases next with rfl | rfl | ⟨rfl, -⟩ | rfl <;> exact orderly.of_same rfl rfl
  case child =>
    cases next
    exact orderly.of_same rfl rfl
  case threadCreate i new regs =>
    obtain ⟨t, found, -, made⟩ := atMode_bind next
    have ok := orderly.threads i t found
    split at made
    · cases made
    · cases made
      exact orderly.set (.of_quiet ok.blocked (by simp) rfl rfl rfl)
  case turn i heap =>
    obtain ⟨t, found, delivering, taken⟩ := atMode_bind next
    exact orderly_turn orderly found (inDelivery_away delivering) _ taken
  -- the others are one thread's
  all_goals
    obtain ⟨t, found, ready, rfl⟩ := atMode_map next
    have ok := orderly.threads _ t found
  case user i regs fregs space =>
    obtain ⟨mode, straight⟩ := inUser_spec ready
    obtain ⟨silent, awake⟩ := ok.quiet mode straight
    have moved : Orderly c { p with space := space } := orderly.of_same rfl rfl
    exact moved.set (.of_quiet ok.blocked ok.saved mode silent awake)
  case interrupt i =>
    cases diverted : t.diverted with
    | true =>
      rw [resume, returnTo, if_pos diverted]
      exact orderly.set ok
    | false =>
      have mode : t.mode = .user := by simpa using ready
      exact orderly_resume orderly (ok.ready diverted (ok.quiet mode diverted).1)
  case ecall i =>
    rw [Bool.and_eq_true] at ready
    obtain ⟨mode, straight⟩ := inUser_spec ready.1
    have silent := (ok.quiet mode straight).1
    refine orderly.set ⟨ok.blocked, ok.saved, nofun, ?_, fun _ => silent,
      fun _ => ⟨⟨rfl, rfl⟩, rfl⟩, ?_⟩
    · intro diverted
      change t.diverted = true at diverted
      rw [straight] at diverted
      cases diverted
    · simp [silent]
  case claim i => exact orderly_sigClaim orderly ok
  case sigaction i sig act => exact orderly_sigaction orderly ok sig act
  case sigprocmask i how set => exact orderly.set (ok_sigprocmask ok (inCall_spec ready) how set)
  case sigsuspend i mask =>
    exact orderly.set (ok.remask (inCall_spec ready) (strip_apart _ _) ok.blocked)
  case raise i sig => exact orderly_raiseSig orderly ok sig
  case threadExit i => exact orderly.drop i
  case memory i space => exact orderly.of_same rfl rfl
  case leave i ret =>
    rw [Bool.and_eq_true] at ready
    have mode := inCall_spec ready.1
    obtain ⟨kept, regs⟩ := ok.calling mode
    apply orderly_resume orderly
    refine ⟨ok.blocked, ok.saved, ok.straight (by rw [mode]; nofun), ?_⟩
    intro interrupted
    have eintr : ret = minusEintr c := by simpa using interrupted
    refine ⟨kept, ?_⟩
    show t.regs.set a0 ret = afterCall t.atCall (minusEintr c)
    rw [regs, eintr, afterCall]
  case kick i =>
    rw [Bool.and_eq_true] at ready
    refine orderly.set ⟨ok.blocked, ok.saved, nofun, nofun, fun _ => rfl, nofun, ?_⟩
    rintro (interrupted | delivering)
    · cases interrupted
    · have was : t.sysIntr = true := by simpa using delivering
      obtain ⟨kept, same⟩ := ok.interrupted (.inl was)
      rw [context, if_pos ready.2] at same
      exact ⟨kept, same⟩
  case sigreturn i heap =>
    rw [Bool.and_eq_true] at ready
    exact orderly_sigReturn orderly ok ready.1
  case fault i heap code addr => exact orderly_fault orderly ok ready code addr

theorem orderly_boot (regs : Regs) (space : Space) : Orderly c (boot regs space) := by
  refine ⟨?_, rfl, rfl⟩
  intro i t there
  simp only [boot, update_apply] at there
  split at there
  · cases there
    exact .of_quiet (by simp) (by simp) rfl rfl rfl
  · cases there

end Steps

end Espix.Umode.Delivery
