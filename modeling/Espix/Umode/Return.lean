import Espix.Umode.Pending

/-! What a handler's return brings back, and what a step may deliver.

A thread's `home` is what it goes on with in U. A frame that is pushed holds it, steps that
are not the thread's own keep it, and a return with an untouched frame restores it, however
many deliveries came in between. -/

namespace Espix.Umode.Return

open Function Lib.Page Lib.Run Lib.Words Copy Delivery Mm Pending Signal

variable {c : Libc} {p q : Proc} {i j : Nat} {t u : Thread} {f : Entry} {heap : Heap} {e : Event}

/-- Registers and mask; during a `sigsuspend`, the mask from before it. -/
structure Home where
  regs : Regs
  fregs : Fregs
  mask : Word

def home (t : Thread) : Home := ⟨context t, t.fregs, if t.suspended then t.saved else t.blocked⟩

def frameHome (f : Frame) : Home := ⟨f.regs, f.fregs, f.mask⟩

section Kept

theorem home_restored (t : Thread) : home (restored t) = home t := by
  unfold restored
  split
  · rename_i asleep
    simp [home, context, asleep]
  · rfl

theorem home_returnTo (p : Proc) (t : Thread) : home (returnTo p t) = home t := by
  unfold returnTo
  split
  · rfl
  · rename_i straight
    split
    · simp [home, context, straight]
    · exact home_restored t

theorem home_pending (t : Thread) (w : Word) : home { t with pending := w } = home t := rfl

/-- The event is the thread's own doing: what it runs in U, its calls, its return from a
handler. -/
def Own (p : Proc) (i : Nat) : Event → Prop
  | .user j _ _ _ => j = i
  | .ecall j => j = i
  | .leave j _ => j = i
  | .sigprocmask j _ _ => j = i
  | .sigsuspend j _ => j = i ∧ ∃ t, p.threads i = some t ∧ t.suspended = true
  | .sigreturn j _ => j = i
  | _ => False

def Stays (i : Nat) (p q : Proc) : Prop :=
  ∀ j t u, j ≠ i → p.threads j = some t → q.threads j = some u → home u = home t

/-- A thread that is there before and after has the home it had. -/
def Unmoved (p q : Proc) : Prop :=
  ∀ j t u, p.threads j = some t → q.threads j = some u → home u = home t

theorem stays_set (p : Proc) (i : Nat) (thread : Option Thread) : Stays i p (p.set i thread) := by
  intro j t u other before after
  simp only [Proc.set, update_of_ne other] at after
  rw [before] at after
  cases after
  rfl

theorem unmoved_of_same (threads : q.threads = p.threads) : Unmoved p q := by
  intro j t u before after
  rw [threads, before] at after
  cases after
  rfl

theorem unmoved_set (found : p.threads i = some t) (same : home u = home t) :
    Unmoved p (p.set i (some u)) := by
  intro j v w before after
  by_cases this : j = i
  · subst this
    simp only [Proc.set, update_self] at after
    rw [found] at before
    cases before
    cases after
    exact same
  · exact stays_set p i _ j v w this before after

theorem unmoved_drop (p : Proc) (i : Nat) : Unmoved p (p.set i none) := by
  intro j v w before after
  by_cases this : j = i
  · subst this
    simp [Proc.set] at after
  · exact stays_set p i _ j v w this before after

theorem Unmoved.kept (unmoved : Unmoved p q) :
    ∀ i t u, p.threads i = some t → q.threads i = some u → Own p i e ∨ home u = home t :=
  fun i t u before after => .inr (unmoved i t u before after)

end Kept

variable {r : Proc} {sig : Nat}

variable {status : Nat} {ok : Entry → Prop} {tail : List Note} {w : Word} {info : Info}

section Effects

/-- A frame that is pushed: who it is for, that the signal is caught and not blocked, and that
it holds the thread's home, or the call as it was made if that is to be restarted. -/
structure Holding (c : Libc) (p : Proc) (f : Entry) (t : Thread) : Prop where
  found : p.threads f.thread = some t
  unblocked : t.blocked &&& single f.sig = 0
  caught : 1 < (p.act f.sig).handler.toNat
  mask : f.frame.mask = (home t).mask
  fregs : f.frame.fregs = t.fregs
  regs : f.frame.regs =
    if t.mode = .delivering true ∧ (p.act f.sig).flags &&& c.saRestart ≠ 0 ∧
      restartable (t.atCall a7) = true then t.atCall else context t
  eintr : t.mode = .delivering true → context t = afterCall t.atCall (minusEintr c)

/-- The event asks for a stop: `SIGSTOP`, or a terminal's stop at its default action. -/
def Asked (c : Libc) (p : Proc) : Event → Prop
  | .post sig => sig = c.stop ∨ defaultStops c sig = true ∧ (p.act sig).handler = 0
  | .raise _ sig => sig = c.stop
  | _ => False

/-- The event may end its thread with no signal that was pending: a fault, a frame that cannot
be read, or `SIGKILL` raised. -/
def Ends (c : Libc) (i : Nat) : Event → Prop
  | .raise j sig => j = i ∧ sig = c.kill
  | .sigreturn j _ => j = i
  | .fault j _ _ _ => j = i
  | _ => False

structure Effects (c : Libc) (p : Proc) (e : Event) (q : Proc) (new : List Note) : Prop where
  log : q.log = p.log ++ new
  handled : ∀ i sig, Note.handled i sig ∈ new →
    ∃ t, p.threads i = some t ∧ t.blocked &&& single sig = 0
  pushed : ∀ f, Note.pushed f ∈ new → (∃ t, Holding c p f t) ∧ Holds q.space f.base f.frame
  exited : ∀ i status, Note.exited i status ∈ new →
    p.stopRequested = true ∨ p.exiting = true ∨ (∃ sig, Note.handled i sig ∈ new) ∨ Ends c i e
  stopped : q.stopReq = true →
    p.stopReq = true ∨ Asked c p e ∨ ∃ i sig, Note.handled i sig ∈ new
  kept : ∀ i t u, p.threads i = some t → q.threads i = some u →
    Own p i e ∨ (∃ f, Note.pushed f ∈ new ∧ f.thread = i) ∨ home u = home t

def neutral : Note → Bool
  | .posted _ => true
  | .took _ _ => true
  | .raised _ _ => true
  | _ => false

theorem Effects.of_neutral {new : List Note} (log : q.log = p.log ++ new)
    (none : ∀ n ∈ new, neutral n = true) (stopped : q.stopReq = true → p.stopReq = true ∨
      Asked c p e)
    (kept : ∀ i t u, p.threads i = some t → q.threads i = some u → Own p i e ∨ home u = home t) :
    Effects c p e q new := by
  refine ⟨log, ?_, ?_, ?_, ?_, ?_⟩
  · intro i sig member
    exact absurd (none _ member) nofun
  · intro f member
    exact absurd (none _ member) nofun
  · intro i status member
    exact absurd (none _ member) nofun
  · intro now
    exact (stopped now).imp_right .inl
  · intro i t u before after
    exact (kept i t u before after).imp_right .inr

theorem Effects.of_unmoved (log : q.log = p.log) (stopped : q.stopReq = p.stopReq)
    (unmoved : Unmoved p q) : Effects c p e q [] := by
  apply Effects.of_neutral
  · rw [log, List.append_nil]
  · nofun
  · intro now
    exact .inl (stopped ▸ now)
  · exact unmoved.kept

theorem Effects.of_own (log : q.log = p.log) (stopped : q.stopReq = p.stopReq)
    (stays : Stays i p q) (own : Own p i e) : Effects c p e q [] := by
  apply Effects.of_neutral
  · rw [log, List.append_nil]
  · nofun
  · intro now
    exact .inl (stopped ▸ now)
  · intro j t u before after
    by_cases this : j = i
    · exact .inl (this ▸ own)
    · exact .inr (stays j t u this before after)

/-- What the action of a signal leaves for thread `i`. -/
structure Outcome (i : Nat) (ok : Entry → Prop) (p q : Proc) (tail : List Note) : Prop where
  log : q.log = p.log ++ tail
  notes : ∀ n ∈ tail, (∃ f, n = .pushed f ∧ f.thread = i ∧ ok f ∧ Holds q.space f.base f.frame) ∨
    ∃ status, n = .exited i status
  kept : ∀ j t u, p.threads j = some t → q.threads j = some u →
    (∃ f, Note.pushed f ∈ tail ∧ f.thread = j) ∨ home u = home t

theorem Outcome.of_same (outcome : Outcome i ok p q tail)
    (log : p.log = r.log) (threads : p.threads = r.threads) : Outcome i ok r q tail := by
  refine ⟨?_, outcome.notes, ?_⟩
  · rw [← log]
    exact outcome.log
  · rw [← threads]
    exact outcome.kept

theorem outcome_exitGroup (p : Proc) (i status : Nat) (ok : Entry → Prop) :
    Outcome i ok p (exitGroup p i status) [.exited i status] := by
  refine ⟨rfl, ?_, ?_⟩
  · intro n member
    exact .inr ⟨status, List.mem_singleton.mp member⟩
  · intro j t u before after
    exact .inr (unmoved_drop p i j t u before after)

theorem Effects.of_outcome {pre : List Note} (log : r.log = p.log ++ pre)
    (early : ∀ n ∈ pre, neutral n = true ∨ ∃ sig t, n = .handled i sig ∧ p.threads i = some t ∧
      t.blocked &&& single sig = 0)
    (carried : ∀ j t, p.threads j = some t → ∃ u, r.threads j = some u ∧ home u = home t)
    (cause : p.stopRequested = true ∨ p.exiting = true ∨
      (∃ sig, Note.handled i sig ∈ pre) ∨ Ends c i e)
    (stopped : q.stopReq = true → p.stopReq = true ∨ ∃ sig, Note.handled i sig ∈ pre)
    (holding : ∀ f, f.thread = i → ok f → ∃ t, Holding c p f t) (outcome : Outcome i ok r q tail) :
    Effects c p e q (pre ++ tail) := by
  have notes := outcome.notes
  refine ⟨by rw [outcome.log, log, List.append_assoc], ?_, ?_, ?_, ?_, ?_⟩
  · grind [neutral]
  · grind [neutral]
  · grind [neutral]
  · grind
  · intro j t u before after
    obtain ⟨v, there, same⟩ := carried j t before
    have := outcome.kept j v u there after
    grind

theorem Effects.of_exitGroup (log : r.log = p.log) (threads : r.threads = p.threads)
    (stopped : r.stopReq = p.stopReq)
    (cause : p.stopRequested = true ∨ p.exiting = true ∨ Ends c i e) :
    Effects c p e (exitGroup r i status) [.exited i status] :=
  Effects.of_outcome (by simpa using log : r.log = p.log ++
    []) nofun (fun j t there => ⟨t, threads ▸ there, rfl⟩)
    (cause.imp_right (Or.imp_right .inr)) (fun now => .inl (stopped ▸ now))
      (fun _ _ (impossible : False) => impossible.elim)
    (outcome_exitGroup r i status _)

theorem outcome_push (heap : Heap) (p : Proc) (i : Nat) (t : Thread) (sig : Nat)
    (act : Action) (info : Info)
    (status : Nat) : ∃ tail, Outcome i (fun f => f.sig = sig ∧ f.frame = frameFor t info) p
      (push c heap p i t sig act info status) tail := by
  fun_cases push c heap p i t sig act info status with
  | case1 base frame r stored p' =>
    refine ⟨[.pushed ⟨i, sig, pushedSp t, frameFor t info⟩], rfl, ?_, ?_⟩
    · intro n member
      exact .inl ⟨_, List.mem_singleton.mp member, rfl, ⟨rfl, rfl⟩, store_holds stored⟩
    · intro j v w before after
      by_cases this : j = i
      · exact .inl ⟨_, List.mem_singleton_self _, this.symm⟩
      · exact .inr (stays_set _ i _ j v w this before after)
  | case2 => exact ⟨_, (outcome_exitGroup _ i status _).of_same rfl rfl⟩

theorem forget_same (p : Proc) (sig : Nat) :
    (forget c p sig).log = p.log ∧ (forget c p sig).threads = p.threads ∧
      (forget c p sig).stopReq = p.stopReq ∧ (forget c p sig).space = p.space := by
  obtain ⟨act, forgot⟩ := forget_eq c p sig
  rw [forgot]
  exact ⟨rfl, rfl, rfl, rfl⟩

theorem caught_of {handler : Word} (acts : ¬ doesNothing c handler sig = true)
    (custom : handler ≠ 0) : 1 < handler.toNat := by
  have listens : handler ≠ 1 := by
    rintro rfl
    exact acts rfl
  have zeroth : handler.toNat ≠ 0 := fun same => custom (BitVec.eq_of_toNat_eq same)
  have first : handler.toNat ≠ 1 := fun same => listens (BitVec.eq_of_toNat_eq same)
  omega

def Caught (c : Libc) (p : Proc) (t : Thread) (intr : Bool) (sig : Nat) (f : Entry) : Prop :=
  f.sig = sig ∧ 1 < (p.act sig).handler.toNat ∧
    ∃ info, f.frame = frameFor (restarted c t intr (p.act sig)) info

theorem outcome_handle (heap : Heap) (sig : Nat) (found : p.threads i = some t) (intr : Bool) :
    ∃ tail, Outcome i (Caught c p t intr sig) (p.note [.handled i sig])
      (handle c heap p i t intr sig) tail := by
  obtain ⟨log, threads, -⟩ := forget_same (c := c) p sig
  have noted : ((forget c p sig).note [.handled i sig]).log = (p.note [.handled i sig]).log := by
    simp only [Proc.note, log]
  have there : ((forget c p sig).note [.handled i sig]).threads i = some t := by
    show (forget c p sig).threads i = some t
    rw [threads, found]
  fun_cases handle c heap p i t intr sig with
  | case1 | case2 =>
    refine ⟨[], ?_, by simp, ?_⟩
    · rw [List.append_nil]
      exact noted
    · intro j v w before after
      exact .inr (unmoved_set there rfl j v w (threads ▸ before) after)
  | case3 => exact ⟨_, (outcome_exitGroup _ i _ _).of_same noted threads⟩
  | case4 act p' acts custom =>
    obtain ⟨tail, outcome⟩ := outcome_push (c := c) heap
      ((forget c p sig).note [.handled i sig]) i (restarted c t intr (p.act sig)) sig (p.act sig)
      ⟨BitVec.ofNat 32 sig, c.siUser, 0⟩ (128 + c.segv)
    have same := outcome.of_same noted threads
    refine ⟨tail, same.log, ?_, same.kept⟩
    intro n member
    refine (same.notes n member).imp_left ?_
    rintro ⟨f, rfl, mine, ⟨signal, frame⟩, holds⟩
    exact ⟨f, rfl, mine, ⟨signal, caught_of acts custom, _, frame⟩, holds⟩

structure Took (p q : Proc) (pre : List Note) : Prop where
  log : q.log = p.log ++ pre
  none : ∀ n ∈ pre, neutral n = true
  act : q.act = p.act
  stopReq : q.stopReq = p.stopReq
  carried : ∀ j t, p.threads j = some t → ∃ u, q.threads j = some u ∧ home u = home t

theorem took_take (found : p.threads i = some t) : ∃ pre, Took p (take p i t).2.1 pre := by
  fun_cases take p i t with
  | case1 =>
    refine ⟨[], (List.append_nil _).symm, by simp, rfl, rfl, ?_⟩
    intro j v there
    by_cases this : j = i
    · subst this
      rw [found] at there
      cases there
      exact ⟨_, update_self _ _ _, rfl⟩
    · exact ⟨v, (update_of_ne this _ _).trans there, rfl⟩
  | case2 =>
      exact ⟨[], (List.append_nil _).symm, by simp, rfl, rfl, fun j v there => ⟨v, there, rfl⟩⟩
  | case3 =>
    refine ⟨_, rfl, ?_, rfl, rfl, fun j v there => ⟨v, there, rfl⟩⟩
    intro n member
    rw [List.mem_singleton.mp member]
    rfl

theorem take_quiet (zero : (take p i t).1 = 0) : (take p i t).2.1.log = p.log := by
  revert zero
  fun_cases take p i t with
  | case1 | case2 => exact fun _ => rfl
  | case3 _ _ _ nonzero => exact fun zero => absurd zero nonzero

theorem apart_single (clear : w.getLsbD sig = false) : w &&& single sig = 0 := by
  rw [and_eq_zero_iff]
  intro k small inside
  rw [getLsbD_single]
  by_cases same : k = sig
  · subst same
    rw [clear] at inside
    cases inside
  · simp [same]

theorem restarted_same (t : Thread) (intr : Bool) (act : Action) :
    restarted c t intr act = { t with regs := (restarted c t intr act).regs } := by
  unfold restarted
  split
  · rfl
  · rfl

theorem holding_turn (found : p.threads i = some t) (ok : ThreadOk c t)
    (away : t.mode ≠ .user) (unblocked : t.blocked.getLsbD sig = false)
    (act : r.act = p.act) (mine : f.thread = i)
    (caught : Caught c r { t with pending := w } (t.mode == .delivering true) sig f) :
    Holding c p f t := by
  obtain ⟨rfl, handler, info, frame⟩ := caught
  have straight : context t = t.regs := by
    rw [context, ok.straight away]
    rfl
  have regs := restarted_regs (ok.pending w) (p.act f.sig)
  rw [act] at handler frame
  rw [restarted_same] at frame
  subst mine
  refine ⟨found, apart_single unblocked, handler, ?_, ?_, ?_, ?_⟩
  · rw [frame]
    rfl
  · rw [frame]
    rfl
  · rw [frame, straight]
    exact regs
  · intro delivering
    exact (ok.interrupted (.inr delivering)).2

theorem effects_handle {pre : List Note}
    (took : Took p r pre) (found : p.threads i = some t) (unblocked : t.blocked &&& single sig = 0)
    (holding : ∀ f, f.thread = i → ok f → Holding c p f t)
    (outcome : Outcome i ok (r.note [.handled i sig]) q tail) :
    Effects c p e q (pre ++ .handled i sig :: tail) := by
  have here : ∃ n, Note.handled i n ∈ pre ++ [.handled i sig] :=
    ⟨sig, List.mem_append_right _ List.mem_cons_self⟩
  rw [List.append_cons]
  refine Effects.of_outcome (r := r.note _) ?_ ?_ took.carried (.inr (.inr (.inl here)))
    (fun _ => .inr here)
    (fun f mine fine => ⟨t, holding f mine fine⟩) outcome
  · rw [Proc.note, took.log, List.append_assoc]
  · intro n member
    rcases List.mem_append.mp member with before | last
    · exact .inl (took.none n before)
    · exact .inr ⟨sig, t, List.mem_singleton.mp last, found, unblocked⟩

theorem effects_turn (orderly : Orderly c p) (found : p.threads i = some t) (away : t.mode ≠ .user)
    (next : turn c heap p i t (t.mode == .delivering true) = some q) :
    ∃ new, Effects c p (.turn i heap) q new := by
  have ok := orderly.threads i t found
  obtain ⟨there, ⟨w, same⟩, clear⟩ := take_spec found
  obtain ⟨pre, took⟩ := took_take found
  revert next
  fun_cases turn c heap p i t (t.mode == .delivering true) with
  | case1 killed =>
    rintro ⟨⟩
    rw [Bool.or_eq_true] at killed
    exact ⟨_, Effects.of_exitGroup rfl rfl rfl (killed.imp_right .inl)⟩
  | case2 => rintro ⟨⟩
  | case3 _ _ r u taken =>
    rintro ⟨⟩
    have quiet := take_quiet (p := p) (i := i) (t := t)
    rw [taken] at took there quiet
    refine ⟨[], Effects.of_unmoved (quiet rfl) took.stopReq ?_⟩
    intro j v w before after
    obtain ⟨v', there', carried⟩ := took.carried j v before
    rw [← carried]
    exact unmoved_set there ((home_returnTo _ _).trans (home_restored _)) j v' w there' after
  | case4 _ _ sig r u taken member =>
    rintro ⟨⟩
    rw [taken] at took there clear same
    cases same
    obtain ⟨tail, outcome⟩ := outcome_handle (c := c) heap sig there (t.mode == .delivering true)
    refine ⟨_, effects_handle took found (apart_single (clear member)) ?_ outcome⟩
    intro f mine caught
    exact holding_turn found ok away (clear member) took.act mine caught

theorem push_stopReq (heap : Heap) (p : Proc) (i : Nat) (t : Thread) (sig : Nat) (act : Action)
    (info : Info) (status : Nat) : (push c heap p i t sig act info status).stopReq = p.stopReq := by
  fun_cases push c heap p i t sig act info status with | case1 | case2 => rfl

theorem holding_fault (found : p.threads i = some t) (mode : t.mode = .user)
    (straight : t.diverted = false) (mine : f.thread = i) (clear : t.blocked &&& single f.sig = 0)
    (handler : 1 < (p.act f.sig).handler.toNat) (frame : f.frame = frameFor t info) :
    Holding c p f t := by
  have running : t.mode ≠ .delivering true := by
    rw [mode]
    nofun
  subst mine
  refine ⟨found, clear, handler, ?_, ?_, ?_, fun delivering => absurd delivering running⟩
  · rw [frame]
    rfl
  · rw [frame]
    rfl
  · rw [frame, if_neg (fun restarts => running restarts.1), context, straight]
    rfl

theorem effects_fault (found : p.threads i = some t) (user : inUser t = true)
    (code : Nat) (addr : Word) :
    ∃ new, Effects c p (.fault i heap code addr) (fault c heap p i t code addr) new := by
  obtain ⟨mode, straight⟩ := inUser_spec user
  obtain ⟨log, threads, stopped, -⟩ := forget_same (c := c) p (faultSignal c code)
  fun_cases fault c heap p i t code addr with
  | case1 => exact ⟨_, Effects.of_exitGroup rfl rfl rfl (.inr (.inr rfl))⟩
  | case2 => exact ⟨_, Effects.of_exitGroup log threads stopped (.inr (.inr rfl))⟩
  | case3 sig clear act p' handler =>
    obtain ⟨tail, outcome⟩ := outcome_push (c := c) heap (forget c p sig) i t sig act
      ⟨BitVec.ofNat 32 sig, 0, addr⟩ (128 + sig)
    refine ⟨[] ++ tail, Effects.of_outcome (by rw [log, List.append_nil]) (by simp)
      (fun j t there => ⟨t, threads ▸ there, rfl⟩)
      (.inr (.inr (.inr rfl))) ?_ ?_ outcome⟩
    · intro now
      rw [push_stopReq, stopped] at now
      exact .inl now
    · rintro f mine ⟨signal, frame⟩
      exact ⟨t, holding_fault found mode straight mine (signal ▸ not_not.mp clear)
        (signal ▸ Nat.lt_of_not_le handler) frame⟩

theorem effects_sigReturn (p : Proc) (i : Nat) (t : Thread) :
    ∃ new, Effects c p (.sigreturn i heap) (sigReturn c heap p i t) new := by
  fun_cases sigReturn c heap p i t with
  | case1 => exact ⟨_, Effects.of_exitGroup rfl rfl rfl (.inr (.inr rfl))⟩
  | case2 => exact ⟨[], Effects.of_own rfl rfl (stays_set _ i _) rfl⟩

theorem effects_sigaction (found : p.threads i = some t) (sig : Nat) (act : Action) :
    Effects c p (.sigaction i sig act) (sigaction c p i t sig act) [] := by
  fun_cases sigaction c p i t sig act with
  | case1 | case3 => exact Effects.of_unmoved rfl rfl (unmoved_of_same rfl)
  | case2 => exact Effects.of_unmoved rfl rfl (unmoved_set found rfl)

theorem effects_sigClaim (found : p.threads i = some t) :
    ∃ new, Effects c p (.claim i) (sigClaim c p i t) new := by
  fun_cases sigClaim c p i t with
  | case1 =>
    refine ⟨_, Effects.of_neutral rfl ?_ (fun now => .inl now)
      (unmoved_set found (home_pending t _)).kept⟩
    intro n member
    rw [List.mem_singleton.mp member]
    rfl
  | case2 => exact ⟨[], Effects.of_unmoved rfl rfl (unmoved_of_same rfl)⟩

theorem effects_raiseSig (found : p.threads i = some t) (sig : Nat) :
    ∃ new, Effects c p (.raise i sig) (raiseSig c p i t sig) new := by
  fun_cases raiseSig c p i t sig with
  | case1 => exact ⟨[], Effects.of_unmoved rfl rfl (unmoved_of_same rfl)⟩
  | case2 _ kill => exact ⟨_, Effects.of_exitGroup rfl rfl rfl (.inr (.inr ⟨rfl, kill⟩))⟩
  | case3 _ _ stop =>
    exact ⟨[], Effects.of_neutral (List.append_nil _).symm (by simp) (fun _ => .inr stop)
      (unmoved_of_same rfl).kept⟩
  | case4 =>
    refine ⟨_, Effects.of_neutral rfl ?_ (fun now => .inl now)
      (unmoved_set found (home_pending t _)).kept⟩
    intro n member
    rw [List.mem_singleton.mp member]
    rfl

theorem neutral_posted {n : Note} {w : Bool}
    (member : n ∈ if w then [] else [Note.posted sig]) : neutral n = true := by
  cases w with
  | true => cases member
  | false =>
    rw [List.mem_singleton.mp member]
    rfl

theorem effects_post (next : step c p (.post sig) = some q) :
    ∃ new, Effects c p (.post sig) q new := by
  rcases post_cases next with rfl | rfl | ⟨rfl, stop⟩ | rfl
  · exact ⟨[], Effects.of_unmoved rfl rfl (unmoved_of_same rfl)⟩
  · exact ⟨[], Effects.of_neutral (List.append_nil _).symm nofun nofun (unmoved_of_same rfl).kept⟩
  · refine ⟨[], Effects.of_neutral (List.append_nil _).symm nofun (fun _ => .inr ?_)
      (unmoved_of_same rfl).kept⟩
    unfold sentAs at stop
    split at stop
    · rename_i default
      rw [Bool.and_eq_true, beq_iff_eq] at default
      exact .inr default
    · exact .inl stop
  · exact ⟨_, Effects.of_neutral rfl (fun n member => neutral_posted member) nofun
      (unmoved_of_same rfl).kept⟩

theorem effects_step (orderly : Orderly c p) (next : step c p e = some q) :
    ∃ new, Effects c p e q new := by
  cases e
  case post sig => exact effects_post next
  case child =>
    cases next
    exact ⟨_, Effects.of_neutral rfl (fun n member => neutral_posted member) (fun now => .inl now)
      (unmoved_of_same rfl).kept⟩
  case threadCreate i new regs =>
    obtain ⟨t, -, -, made⟩ := atMode_bind next
    split at made
    · cases made
    · rename_i free
      cases made
      refine ⟨[], Effects.of_unmoved rfl rfl ?_⟩
      intro j v u before after
      have other : j ≠ new := by
        rintro rfl
        rw [free] at before
        cases before
      exact stays_set p new _ j v u other before after
  case turn i heap =>
    obtain ⟨t, found, delivering, taken⟩ := atMode_bind next
    exact effects_turn orderly found (inDelivery_away delivering) taken
  -- the others are one thread's
  all_goals obtain ⟨t, found, ready, rfl⟩ := atMode_map next
  case user i regs fregs space | ecall i | sigprocmask i how set | leave i ret =>
    exact ⟨[], Effects.of_own rfl rfl (stays_set _ i _) rfl⟩
  case interrupt i => exact ⟨[], Effects.of_unmoved rfl rfl (unmoved_set found (home_returnTo p t))⟩
  case claim i => exact effects_sigClaim found
  case sigaction i sig act => exact ⟨[], effects_sigaction found sig act⟩
  case sigsuspend i mask =>
    cases asleep : t.suspended with
    | true => exact ⟨[], Effects.of_own rfl rfl (stays_set _ i _) ⟨rfl, t, found, asleep⟩⟩
    | false =>
      refine ⟨[], Effects.of_unmoved rfl rfl (unmoved_set found ?_)⟩
      simp only [home, sigsuspend, asleep, if_true, Bool.false_eq_true, if_false]
      rfl
  case raise i sig => exact effects_raiseSig found sig
  case threadExit i => exact ⟨[], Effects.of_unmoved rfl rfl (unmoved_drop p i)⟩
  case memory i space => exact ⟨[], Effects.of_unmoved rfl rfl (unmoved_of_same rfl)⟩
  case kick i =>
    rw [Bool.and_eq_true] at ready
    refine ⟨[], Effects.of_unmoved rfl rfl (unmoved_set found ?_)⟩
    simp [home, context, ready.2]
  case sigreturn i heap => exact effects_sigReturn p i t
  case fault i heap code addr => exact effects_fault found ready code addr

end Effects

variable {intr : Bool}

section Frames

def Apart (a b : Word) : Prop :=
  ∀ k < frameSize, ∀ m < frameSize, wrap (a.toNat + k) ≠ wrap (b.toNat + m)

def Nested (base : Word) (t : Thread) : Prop :=
  frameSize ≤ (t.regs sp).toNat ∧ (t.regs sp).toNat ≤ base.toNat ∧
    base.toNat + frameSize ≤ 4294967296

def Beside (f : Entry) (p : Proc) (j : Nat) : Prop :=
  ∀ t, p.threads j = some t → Nested f.base t ∨ Apart f.base (pushedSp t)

/-- The step does not change the frame: neither code in U nor a call writes there, and no
other delivery pushes its frame over it. -/
def Spares (f : Entry) (p : Proc) : Event → Prop
  | .user _ _ _ space => ∀ k < frameSize,
      space.byte (wrap (f.base.toNat + k)) = p.space.byte (wrap (f.base.toNat + k))
  | .memory _ space => ∀ k < frameSize,
      space.byte (wrap (f.base.toNat + k)) = p.space.byte (wrap (f.base.toNat + k))
  | .turn j _ => Beside f p j
  | .fault j _ _ _ => Beside f p j
  | _ => True

theorem Nested.apart {base : Word} (nested : Nested base t) : Apart base (pushedSp t) := by
  obtain ⟨room, below, whole⟩ := nested
  have low : (pushedSp t).toNat ≤ (t.regs sp).toNat - frameSize := by
    have difference : (t.regs sp - BitVec.ofNat 32 frameSize).toNat = (t.regs sp).toNat -
        frameSize :=
      BitVec.toNat_sub_of_le (BitVec.le_def.mpr room)
    rw [pushedSp, BitVec.toNat_and, difference]
    exact Nat.and_le_left
  have top := base.isLt
  intro k first m second
  unfold frameSize at *
  rw [wrap, wrap, Nat.mod_eq_of_lt (by omega), Nat.mod_eq_of_lt (by omega)]
  omega

theorem Beside.apart (beside : Beside f p j) (found : p.threads j = some t) :
    Apart f.base (pushedSp t) :=
  (beside t found).elim Nested.apart id

theorem restarted_sp (t : Thread) (intr : Bool) (act : Action) :
    pushedSp (restarted c t intr act) = pushedSp t := by
  have above : sp ≠ a0 ∧ sp ≠ pc := by decide
  unfold restarted
  split
  · simp only [pushedSp, Regs.set, update_of_ne above.1, update_of_ne above.2]
  · rfl

theorem take_space (p : Proc) (i : Nat) (t : Thread) : (take p i t).2.1.space = p.space := by
  fun_cases take p i t with | case1 | case2 | case3 => rfl

section Space

variable (holds : Holds p.space f.base f.frame)
include holds

theorem holds_push {act : Action} (apart : Apart f.base (pushedSp t)) :
    Holds (push c heap p i t sig act info status).space f.base f.frame := by
  have stored : Holds (store heap p.space (pushedSp t) (frameFor t info)).2 f.base f.frame := by
    intro k low
    rw [store_elsewhere (wrap_lt _) (fun m => apart k low m)]
    exact holds k low
  fun_cases push c heap p i t sig act info status with | case1 | case2 => exact stored

theorem holds_handle (apart : Apart f.base (pushedSp t)) :
    Holds (handle c heap p i t intr sig).space f.base f.frame := by
  have forgotten : Holds ((forget c p sig).note [.handled i sig]).space f.base f.frame := by
    show Holds (forget c p sig).space f.base f.frame
    rw [(forget_same p sig).2.2.2]
    exact holds
  fun_cases handle c heap p i t intr sig with
  | case1 | case2 | case3 => exact forgotten
  | case4 =>
    apply holds_push forgotten
    rw [restarted_sp]
    exact apart

theorem holds_turn (found : p.threads i = some t)
    (apart : Apart f.base (pushedSp t)) (next : turn c heap p i t intr = some q) :
    Holds q.space f.base f.frame := by
  obtain ⟨-, ⟨w, same⟩, -⟩ := take_spec found
  rw [← take_space p i t] at holds
  revert next
  fun_cases turn c heap p i t intr with
  | case1 =>
    rintro ⟨⟩
    rwa [take_space] at holds
  | case2 => rintro ⟨⟩
  | case3 _ _ r u taken =>
    rintro ⟨⟩
    rwa [taken] at holds
  | case4 _ _ sig r u taken =>
    rintro ⟨⟩
    rw [taken] at holds same
    cases same
    exact holds_handle holds apart

theorem holds_fault {code : Nat} {addr : Word}
    (apart : Apart f.base (pushedSp t)) :
    Holds (fault c heap p i t code addr).space f.base f.frame := by
  have forgotten : Holds (forget c p (faultSignal c code)).space f.base f.frame := by
    rw [(forget_same p (faultSignal c code)).2.2.2]
    exact holds
  fun_cases fault c heap p i t code addr with
  | case1 => exact holds
  | case2 => exact forgotten
  | case3 => exact holds_push forgotten apart

theorem holds_sigReturn : Holds (sigReturn c heap p i t).space f.base f.frame := by
  have read : Holds (load heap p.space (t.regs sp)).2 f.base f.frame := by
    intro k low
    rw [load_byte]
    exact holds k low
  fun_cases sigReturn c heap p i t with
  | case1 space loaded | case2 frame space loaded =>
    rw [loaded] at read
    exact read

theorem holds_step (spares : Spares f p e)
    (next : step c p e = some q) : Holds q.space f.base f.frame := by
  cases e
  case post sig => rcases post_cases next with rfl | rfl | ⟨rfl, -⟩ | rfl <;> exact holds
  case child =>
    cases next
    exact holds
  case threadCreate i new regs =>
    obtain ⟨t, -, -, made⟩ := atMode_bind next
    split at made
    · cases made
    · cases made
      exact holds
  case turn i heap =>
    obtain ⟨t, found, -, taken⟩ := atMode_bind next
    exact holds_turn holds found (Beside.apart spares found) taken
  -- the others are one thread's
  all_goals obtain ⟨t, found, -, rfl⟩ := atMode_map next
  case user i regs fregs space | memory i space =>
    exact fun k low => (spares k low).trans (holds k low)
  case claim i => fun_cases sigClaim c p i t with | case1 | case2 => exact holds
  case sigaction i sig act =>
    fun_cases sigaction c p i t sig act with | case1 | case2 | case3 => exact holds
  case raise i sig =>
    fun_cases raiseSig c p i t sig with | case1 | case2 | case3 | case4 => exact holds
  case sigreturn i heap => exact holds_sigReturn holds
  case fault i heap code addr => exact holds_fault holds (Beside.apart spares found)
  all_goals exact holds

end Space

def Returned (heap : Heap) (f : Entry) (r s : Proc) : Prop :=
  (Closed r.space.1 .r f.base.toNat frameSize ∨
      SomeRefused heap r.space.1 (load heap r.space f.base).2.1) ∧ s.threads f.thread = none ∨
    ∃ u, s.threads f.thread = some u ∧ home u = frameHome f.frame

theorem returned_sigReturn (ok : ThreadOk c u) (user : inUser u = true)
    (at_frame : u.regs sp = f.base) (holds : Holds r.space f.base f.frame)
    (stripped : f.frame.mask &&& uncatchable c = 0) :
    Returned heap f r (sigReturn c heap r f.thread u) := by
  obtain ⟨mode, straight⟩ := inUser_spec user
  simp only [sigReturn, at_frame]
  split
  · rename_i space unread
    refine .inl ⟨?_, ?_⟩
    · have contract := copyin_contract r.space.2 f.base.isLt heap frameSize
      apply contract.fails_iff.mp
      have none : (load heap r.space f.base).1 = none := by rw [unread]
      simpa [load] using none
    · simp [exitGroup, Proc.note, Proc.set]
  · rename_i g space read
    have same : g = f.frame := load_holds holds (by rw [read])
    subst same
    refine .inr ⟨_, update_self _ _ _, ?_⟩
    have awake := (ok.quiet mode straight).2
    rw [home_returnTo]
    simp only [home, context, straight, awake, Bool.false_eq_true, if_false, frameHome,
      strip_same stripped]

theorem Holding.stripped (holding : Holding c p f t) (orderly : Orderly c p) :
    f.frame.mask &&& uncatchable c = 0 := by
  have ok := orderly.threads _ t holding.found
  rw [holding.mask, home]
  dsimp only
  split
  · exact ok.saved
  · exact ok.blocked

end Frames

section Delivery

variable {regs : Regs} {space : Space} {es : List Event}

theorem orderly_run (reached : run (step c) (boot regs space) es = some p) : Orderly c p :=
  run_invariant (fun _ _ _ before next => orderly_step before next) reached
  (orderly_boot regs space)

theorem once_run (reached : run (step c) (boot regs space) es = some p) : Once p :=
  run_invariant (fun _ _ _ before next => once_step before next) reached (once_boot regs space)

theorem single_ne_zero {n : Nat} (signal : 0 < n ∧ n < 32) : single n ≠ 0 := by
  intro zero
  have inside : (single n).getLsbD n = true := by
    rw [getLsbD_single]
    simp [signal]
  rw [zero] at inside
  simp at inside

/-- Neither of the two is blocked, caught or ignored, and both do what they do. -/
structure Unstoppable (c : Libc) (p : Proc) : Prop where
  unblocked : ∀ i t, p.threads i = some t → t.blocked &&& uncatchable c = 0
  kill_default : (p.act c.kill).handler = 0
  stop_default : (p.act c.stop).handler = 0
  kills : ∀ q, step c p (.post c.kill) = some q → q.stopRequested = true
  stops : ∀ q, step c p (.post c.stop) = some q → q.stopReq = true

theorem unstoppable_of_orderly (orderly : Orderly c p) : Unstoppable c p := by
  refine ⟨fun i t found => (orderly.threads i t found).blocked, orderly.kill, orderly.stop, ?_, ?_⟩
  · intro q next
    simp only [step, if_neg (single_ne_zero c.kill_signal), if_true, Option.some.injEq] at next
    rw [← next]
  · intro q next
    simp only [step, if_neg (single_ne_zero c.stop_signal), if_neg c.differ.symm,
      Option.some.injEq] at next
    have sent : sentAs c p c.stop = c.stop := by
      unfold sentAs
      split
      · rfl
      · rfl
    rw [← next, procSignal, if_pos sent]

theorem restores {s : Proc} (orderly : Orderly c p) (holding : Holding c p f t)
    (next : step c p e = some q) (holds : Holds q.space f.base f.frame) {later : List Event}
    (along : Along (step c) (Spares f) q later) (went : run (step c) q later = some r)
    (found : r.threads f.thread = some u) (at_frame : u.regs sp = f.base)
    (returns : step c r (.sigreturn f.thread heap) = some s) : Returned heap f r s := by
  have kept : Orderly c r ∧ Holds r.space f.base f.frame := by
    apply run_invariant_along _ along went ⟨orderly_step orderly next, holds⟩
    intro p e q before spares moved
    exact ⟨orderly_step before.1 moved, holds_step before.2 spares moved⟩
  obtain ⟨v, there, rfl⟩ := Option.map_eq_some_iff.mp returns
  obtain ⟨same, user⟩ := atMode_some there
  rw [found] at same
  cases same
  rw [Bool.and_eq_true] at user
  exact returned_sigReturn (kept.1.threads _ _ found) user.1 at_frame kept.2
    (holding.stripped orderly)

structure Sound (c : Libc) (p : Proc) : Prop where
  fixed : Unstoppable c p
  /-- A signal is taken off the process once for each time it became pending there, whichever
  threads take it. -/
  taken : ∀ sig, tooks p.log sig ≤ p.log.count (.posted sig)
  /-- A thread handles what it took, and what was raised for it, once each. -/
  once : ∀ i sig, p.log.count (.handled i sig) ≤
    p.log.count (.took i sig) + p.log.count (.raised i sig)
  /-- What the next step delivers is not blocked, and what it interrupts comes back. -/
  next : ∀ e q, step c p e = some q → ∃ new, Effects c p e q new ∧
    ∀ f, Note.pushed f ∈ new → ∀ later r, Along (step c) (Spares f) q later →
      run (step c) q later = some r → ∀ u, r.threads f.thread = some u → u.regs sp = f.base →
        ∀ heap s, step c r (.sigreturn f.thread heap) = some s → Returned heap f r s

def newlib : Libc :=
  { kill := 9, stop := 17, tstp := 18, ttin := 21, ttou := 22, chld := 20, urg := 16, winch := 28
    cont := 19, ill := 4, trap := 5, bus := 10, segv := 11
    saRestart := 0x10000000, saResethand := 0x80000000, saNodefer := 0x40000000
    siUser := 1, eintr := 4
    kill_signal := by decide
    stop_signal := by decide
    differ := by decide }

def calling (nr : Word) : Regs :=
  Regs.set (Regs.set (Regs.set (fun _ => 0) pc 0x10040) sp 0x11f00) a7 nr

def stack : Space := ⟨reservedSpace, reservedSpace_wf⟩

def visit : List Event :=
  [.ecall 0, .sigaction 0 30 ⟨0x10100, 0, 0, 0x10200⟩, .leave 0 0,
    .user 0 (calling sysSigreturn) (fun _ => 0) stack, .post 30, .interrupt 0, .kick 0,
    .turn 0 (fun _ => true), .sigreturn 0 (fun _ => true)]

end Delivery

end Espix.Umode.Return
