import Espix.Umode.Delivery

/-! How often a signal is taken.

Every note of the log is an entry of an account: what became pending, who took it off the
process, and what was handled. A step that books nothing only makes less pending. -/

namespace Espix.Umode.Pending

open Lib.Page Lib.Run Lib.Words Copy Delivery Mm Signal

variable {c : Libc} {p q : Proc} {i j : Nat} {t : Thread}

def bit (w : Word) (sig : Nat) : Nat := (w.getLsbD sig).toNat

def held (thread : Option Thread) (sig : Nat) : Nat :=
  match thread with
  | none => 0
  | some t => bit t.pending sig

def Note.takes (sig : Nat) : Note → Bool
  | .took _ s => s == sig
  | _ => false

def Note.plain : Note → Bool
  | .pushed _ => true
  | .exited _ _ => true
  | _ => false

def tooks (log : List Note) (sig : Nat) : Nat := log.countP (Note.takes sig)

/-- A signal of the process is taken no oftener than it became pending, and a thread handles
what it took or what was raised for it. -/
structure Once (p : Proc) : Prop where
  process : ∀ sig, tooks p.log sig + bit p.pending sig ≤ p.log.count (.posted sig)
  own : ∀ i sig, p.log.count (.handled i sig) + held (p.threads i) sig ≤
    p.log.count (.took i sig) + p.log.count (.raised i sig)

structure Steady (p q : Proc) : Prop where
  pending : ∀ sig, bit q.pending sig ≤ bit p.pending sig
  held : ∀ i sig, held (q.threads i) sig ≤ held (p.threads i) sig
  log : ∃ new, q.log = p.log ++ new ∧ ∀ n ∈ new, Note.plain n = true

theorem bit_and_le (a b : Word) (sig : Nat) : bit (a &&& b) sig ≤ bit a sig := by
  simp only [bit, BitVec.getLsbD_and]
  cases a.getLsbD sig <;> cases b.getLsbD sig <;> decide

variable {n : Nat}

theorem bit_without (signal : 0 < n ∧ n < 32) (a : Word) : bit (a &&& ~~~single n) n = 0 := by
  simp only [bit, BitVec.getLsbD_and, BitVec.getLsbD_not, getLsbD_single]
  simp [signal]

theorem bit_with (a : Word) (n sig : Nat) :
    bit (a ||| single n) sig ≤ bit a sig + if n = sig then 1 else 0 := by
  simp only [bit, BitVec.getLsbD_or, getLsbD_single]
  by_cases same : n = sig
  · rw [if_pos same]
    cases a.getLsbD sig <;> cases decide (sig = n ∧ 0 < n ∧ n < 32) <;> decide
  · simp [same, Ne.symm same]

theorem bit_le_one (a : Word) (n : Nat) : bit a n ≤ 1 := Bool.toNat_le _

variable {a : Word}

theorem bit_of_mem (inside : a.getLsbD n = true) : bit a n = 1 := by
  rw [bit, inside]
  rfl

theorem bit_of_lowest {b : Word} (member : lowest (a &&& b) ≠ 0)
    (first : lowest (a &&& b) = n) : bit a n = 1 := by
  have both := getLsbD_lowest member
  rw [first, BitVec.getLsbD_and, Bool.and_eq_true] at both
  exact bit_of_mem both.1

theorem bit_taken (signal : 0 < n ∧ n < 32) (inside : bit a n = 1) (sig : Nat) :
    (if n = sig then 1 else 0) + bit (a &&& ~~~single n) sig ≤ bit a sig := by
  by_cases same : n = sig
  · subst same
    rw [if_pos rfl, bit_without signal, inside]
  · rw [if_neg same, Nat.zero_add]
    exact bit_and_le _ _ _

theorem Steady.refl (p : Proc) : Steady p p :=
  ⟨fun _ => Nat.le_refl _, fun _ _ => Nat.le_refl _, [], (List.append_nil _).symm, nofun⟩

theorem Steady.trans {r : Proc} (first : Steady p q) (second : Steady q r) : Steady p r := by
  obtain ⟨new, same, plain⟩ := first.log
  obtain ⟨more, same', plain'⟩ := second.log
  refine ⟨fun sig => (second.pending sig).trans (first.pending sig),
    fun i sig => (second.held i sig).trans (first.held i sig), new ++ more, ?_, ?_⟩
  · rw [same', same, List.append_assoc]
  · intro n member
    exact (List.mem_append.mp member).elim (plain n) (plain' n)

theorem Once.book (once : Once p) (new : List Note) (log : q.log = p.log ++ new)
    (process : ∀ sig, tooks new sig + bit q.pending sig ≤ bit p.pending sig +
      new.count (.posted sig))
    (own : ∀ i sig, new.count (.handled i sig) + held (q.threads i) sig ≤
      held (p.threads i) sig + new.count (.took i sig) + new.count (.raised i sig)) : Once q := by
  refine ⟨?_, ?_⟩
  · intro sig
    have before := once.process sig
    have change := process sig
    rw [log, tooks, List.countP_append, List.count_append]
    unfold tooks at before change
    omega
  · intro i sig
    have before := once.own i sig
    have change := own i sig
    rw [log, List.count_append, List.count_append, List.count_append]
    omega

theorem Once.steady (once : Once p) (steady : Steady p q) : Once q := by
  obtain ⟨new, same, plain⟩ := steady.log
  have absent {n : Note} (booked : Note.plain n = false) : new.count n = 0 := by
    rw [List.count_eq_zero]
    intro member
    rw [plain n member] at booked
    cases booked
  have none_taken (sig : Nat) : tooks new sig = 0 := by
    rw [tooks, List.countP_eq_zero]
    intro n member taken
    cases n <;> first | cases taken | exact absurd (plain _ member) nofun
  apply once.book new same
  · intro sig
    have less := steady.pending sig
    rw [none_taken, absent rfl]
    omega
  · intro i sig
    have less := steady.held i sig
    rw [absent rfl, absent rfl, absent rfl]
    omega

theorem held_set (p : Proc) (i j : Nat) (t : Option Thread) (sig : Nat) :
    held ((p.set i t).threads j) sig = if j = i then held t sig else held (p.threads j) sig := by
  simp only [Proc.set, Function.update_apply]
  split <;> rfl

theorem steady_set {thread : Option Thread}
    (less : ∀ sig, held thread sig ≤ held (p.threads i) sig) :
    Steady p (p.set i thread) := by
  refine ⟨fun _ => Nat.le_refl _, ?_, [], (List.append_nil _).symm, nofun⟩
  intro j sig
  rw [held_set]
  split
  · rename_i same
    rw [same]
    exact less sig
  · exact Nat.le_refl _

theorem steady_of_same (pending : q.pending = p.pending) (threads : q.threads = p.threads)
    (log : q.log = p.log) : Steady p q :=
  ⟨fun _ => by rw [pending], fun _ _ => by rw [threads], [], by rw [log, List.append_nil], nofun⟩

theorem restored_pending (t : Thread) : (restored t).pending = t.pending := by
  unfold restored
  split <;> rfl

theorem returnTo_pending (p : Proc) (t : Thread) : (returnTo p t).pending = t.pending := by
  fun_cases returnTo p t with
  | case1 | case2 => rfl
  | case3 => exact restored_pending t

theorem steady_resume (same : ∀ sig, bit t.pending sig ≤ held (p.threads i) sig) :
    Steady p (resume p i t) := by
  apply steady_set
  intro sig
  rw [held, returnTo_pending]
  exact same sig

theorem steady_exitGroup (p : Proc) (i status : Nat) : Steady p (exitGroup p i status) := by
  have leaving : Steady p { p with exiting := true } := steady_of_same rfl rfl rfl
  have left : Steady { p with exiting := true } ({ p with exiting := true }.set i none) :=
    steady_set fun _ => Nat.zero_le _
  have noted : Steady ({ p with exiting := true }.set i none) (exitGroup p i status) := by
    refine ⟨fun _ => Nat.le_refl _, fun _ _ => Nat.le_refl _, [.exited i status], rfl, ?_⟩
    intro n member
    rw [List.mem_singleton.mp member]
    rfl
  exact leaving.trans (left.trans noted)

variable {heap : Heap}

theorem steady_push {sig : Nat} {act : Action}
    (same : ∀ sig, bit t.pending sig ≤ held (p.threads i) sig) (info : Info) (status : Nat) :
    Steady p (push c heap p i t sig act info status) := by
  have kept (space : Space) : Steady p { p with space := space } := steady_of_same rfl rfl rfl
  fun_cases push c heap p i t sig act info status with
  | case1 base frame r stored p' =>
    have noted : Steady { p with space := r.2 } p' := by
      refine ⟨fun _ => Nat.le_refl _, fun _ _ => Nat.le_refl _, _, rfl, ?_⟩
      intro n member
      rw [List.mem_singleton.mp member]
      rfl
    exact (kept _).trans (noted.trans (steady_resume same))
  | case2 => exact (kept _).trans (steady_exitGroup _ i status)

theorem restarted_pending (intr : Bool) (act : Action) :
    (restarted c t intr act).pending = t.pending := by
  unfold restarted
  split <;> rfl

theorem steady_handle {sig : Nat} (found : p.threads i = some t) (intr : Bool) :
    Steady (p.note [.handled i sig]) (handle c heap p i t intr sig) := by
  obtain ⟨act, forgot⟩ := forget_eq c p sig
  have forgotten : Steady (p.note [.handled i sig]) ((forget c p sig).note [.handled i sig]) := by
    rw [forgot]
    exact steady_of_same rfl rfl rfl
  have there : ((forget c p sig).note [.handled i sig]).threads i = some t := by
    rw [forgot]
    exact found
  have same (n : Nat) : bit t.pending n ≤
      held (((forget c p sig).note [.handled i sig]).threads i) n := by
    rw [there]
    exact Nat.le_refl _
  fun_cases handle c heap p i t intr sig with
  | case1 => exact forgotten.trans (steady_set same)
  | case2 act p' =>
    have stopped : Steady p' { p' with stopReq := true } := steady_of_same rfl rfl rfl
    exact forgotten.trans (stopped.trans (steady_set same))
  | case3 => exact forgotten.trans (steady_exitGroup _ i _)
  | case4 =>
    apply forgotten.trans (steady_push _ _ _)
    rw [restarted_pending]
    exact same

theorem once_take (once : Once p) (found : p.threads i = some t) (member : (take p i t).1 ≠ 0) :
    Once ((take p i t).2.1.note [.handled i (take p i t).1]) := by
  have signal {a b : Word} (member : lowest (a &&& b) ≠ 0) (n : Nat) :=
    bit_taken ⟨Nat.pos_of_ne_zero member, lowest_lt _⟩ (bit_of_lowest member rfl) n
  revert member
  fun_cases take p i t with
  | case1 mine some_mine u =>
    intro member
    apply once.book [.handled i (lowest mine)] rfl
    · intro n
      simp [tooks, Note.takes, Proc.note, Proc.set]
    · intro j n
      have left := signal member n
      rw [show held (((p.set i (some u)).note [.handled i (lowest mine)]).threads j) n =
        _ from held_set _ _ _ _ _]
      by_cases same : j = i
      · subst same
        rw [if_pos rfl, found]
        simpa [held, List.count_cons] using left
      · have other : i ≠ j := Ne.symm same
        simp [same, other]
  | case2 => exact fun member => absurd rfl member
  | case3 mine none_mine sig nonzero =>
    intro member
    apply once.book [.took i sig, .handled i sig]
    · simp [Proc.note, offProcess]
    · intro n
      have left := signal member n
      simpa [tooks, Note.takes, Proc.note, offProcess, List.countP_cons] using left
    · intro j n
      simp [Proc.note, offProcess, List.count_cons, Nat.add_comm]

theorem steady_take (found : p.threads i = some t) (zero : (take p i t).1 = 0) :
    Steady p (take p i t).2.1 := by
  revert zero
  fun_cases take p i t with
  | case1 =>
    refine fun _ => steady_set fun n => ?_
    rw [found]
    exact bit_and_le _ _ _
  | case2 => exact fun _ => Steady.refl p
  | case3 _ _ _ nonzero => exact fun zero => absurd zero nonzero

theorem once_turn {intr : Bool} (once : Once p) (found : p.threads i = some t)
    (next : turn c heap p i t intr = some q) : Once q := by
  obtain ⟨there, -, -⟩ := take_spec found
  revert next
  fun_cases turn c heap p i t intr with
  | case1 =>
    rintro ⟨⟩
    exact once.steady (steady_exitGroup p i _)
  | case2 => rintro ⟨⟩
  | case3 _ _ r u taken =>
    rintro ⟨⟩
    have steady := steady_take found (by rw [taken])
    rw [taken] at there steady
    refine once.steady (steady.trans (steady_resume ?_))
    intro sig
    rw [there, restored_pending]
    exact Nat.le_refl _
  | case4 _ _ sig r u taken member =>
    rintro ⟨⟩
    have booked := once_take once found (by rwa [taken])
    rw [taken] at there booked
    exact booked.steady (steady_handle there intr)

theorem once_sigClaim (once : Once p) (found : p.threads i = some t) : Once (sigClaim c p i t) := by
  fun_cases sigClaim c p i t with
  | case1 want sig claimed =>
    have inside :=
      bit_taken ⟨Nat.pos_of_ne_zero claimed.2, lowest_lt _⟩ (bit_of_lowest claimed.2 rfl)
    apply once.book [.took i sig] rfl
    · intro n
      simpa [tooks, Note.takes, Proc.note, Proc.set, offProcess, List.countP_cons] using inside n
    · intro j n
      have more := bit_with t.pending sig n
      rw [show held ((((offProcess p sig).set i
        (some { t with pending := t.pending ||| single sig })).note [.took i sig]).threads j) n = _
        from held_set _ _ _ _ _]
      by_cases same : j = i
      · subst same
        rw [if_pos rfl, found]
        simpa [held, List.count_cons] using more
      · simp [same, offProcess]
  | case2 => exact once

theorem once_ontoProcess (once : Once p) (sig : Nat) : Once (ontoProcess p sig) := by
  apply once.book (if p.pending.getLsbD sig then [] else [.posted sig]) rfl
  · intro n
    have more := bit_with p.pending sig n
    show tooks _ n + bit (p.pending ||| single sig) n ≤ _
    split
    · rename_i inside
      by_cases same : sig = n
      · subst same
        rw [bit_of_mem inside]
        simpa [tooks] using bit_le_one _ _
      · simpa [tooks, same] using more
    · simpa [tooks, Note.takes, List.count_cons] using more
  · intro j n
    show _ + held (p.threads j) n ≤ _
    split <;> simp

theorem once_raiseSig (once : Once p) (found : p.threads i = some t) (sig : Nat) :
    Once (raiseSig c p i t sig) := by
  fun_cases raiseSig c p i t sig with
  | case1 => exact once
  | case2 => exact once.steady (steady_exitGroup p i _)
  | case3 => exact once.steady (steady_of_same rfl rfl rfl)
  | case4 =>
    apply once.book [.raised i sig] rfl
    · intro n
      simp [tooks, Note.takes, Proc.note, Proc.set]
    · intro j n
      have more := bit_with t.pending sig n
      rw [show held (((p.set i (some { t with pending := t.pending ||| single sig })).note
        [.raised i sig]).threads j) n = _ from held_set _ _ _ _ _]
      by_cases same : j = i
      · subst same
        rw [if_pos rfl, found]
        simpa [held, List.count_cons] using more
      · simp [same]

theorem steady_move {u : Thread} (found : p.threads i = some t) (same : u.pending = t.pending) :
    Steady p (p.set i (some u)) := by
  apply steady_set
  intro sig
  rw [found, held, same]
  exact Nat.le_refl _

theorem steady_back {u : Thread} (found : p.threads i = some t) (same : u.pending = t.pending) :
    Steady p (resume p i u) :=
  steady_move found ((returnTo_pending p u).trans same)

theorem steady_sigaction (found : p.threads i = some t) (sig : Nat) (act : Action) :
    Steady p (sigaction c p i t sig act) := by
  fun_cases sigaction c p i t sig act with
  | case1 => exact Steady.refl p
  | case2 =>
    refine ⟨fun n => bit_and_le _ _ _, ?_, [], (List.append_nil _).symm, by simp⟩
    intro j n
    rw [held_set]
    split
    · rename_i same
      rw [same, found]
      exact bit_and_le _ _ _
    · exact Nat.le_refl _
  | case3 => exact steady_of_same rfl rfl rfl

theorem steady_sigReturn (found : p.threads i = some t) : Steady p (sigReturn c heap p i t) := by
  have read (space : Space) : Steady p { p with space := space } := steady_of_same rfl rfl rfl
  fun_cases sigReturn c heap p i t with
  | case1 => exact (read _).trans (steady_exitGroup _ i _)
  | case2 => exact (read _).trans (steady_back found rfl)

theorem steady_fault (found : p.threads i = some t) (code : Nat) (addr : Word) :
    Steady p (fault c heap p i t code addr) := by
  obtain ⟨act, forgot⟩ := forget_eq c p (faultSignal c code)
  have forgotten : Steady p (forget c p (faultSignal c code)) := by
    rw [forgot]
    exact steady_of_same rfl rfl rfl
  have there : (forget c p (faultSignal c code)).threads i = some t := by
    rw [forgot]
    exact found
  fun_cases fault c heap p i t code addr with
  | case1 => exact steady_exitGroup p i _
  | case2 => exact forgotten.trans (steady_exitGroup _ i _)
  | case3 =>
    apply forgotten.trans (steady_push _ _ _)
    intro sig
    rw [there]
    exact Nat.le_refl _

theorem once_step {e : Event} (once : Once p) (next : step c p e = some q) : Once q := by
  cases e
  case post sig =>
    rcases post_cases next with rfl | rfl | ⟨rfl, -⟩ | rfl
    · exact once
    · exact once.steady (steady_of_same rfl rfl rfl)
    · exact once.steady (steady_of_same rfl rfl rfl)
    · exact (once_ontoProcess once _).steady (steady_of_same rfl rfl rfl)
  case child =>
    cases next
    exact once_ontoProcess once _
  case threadCreate i new regs =>
    obtain ⟨t, -, -, made⟩ := atMode_bind next
    split at made
    · cases made
    · cases made
      refine once.steady (steady_set fun sig => ?_)
      simp [held, bit]
  case turn i heap =>
    obtain ⟨t, found, -, taken⟩ := atMode_bind next
    exact once_turn once found taken
  -- the others are one thread's
  all_goals obtain ⟨t, found, -, rfl⟩ := atMode_map next
  case user i regs fregs space =>
    have moved : Steady p { p with space := space } := steady_of_same rfl rfl rfl
    exact once.steady (moved.trans (steady_move found rfl))
  case interrupt i | leave i ret => exact once.steady (steady_back found rfl)
  case ecall i | sigsuspend i mask | kick i => exact once.steady (steady_move found rfl)
  case claim i => exact once_sigClaim once found
  case sigaction i sig act => exact once.steady (steady_sigaction found sig act)
  case sigprocmask i how set => exact once.steady (steady_move found (by cases how <;> rfl))
  case raise i sig => exact once_raiseSig once found sig
  case threadExit i => exact once.steady (steady_set fun _ => Nat.zero_le _)
  case memory i space => exact once.steady (steady_of_same rfl rfl rfl)
  case sigreturn i heap => exact once.steady (steady_sigReturn found)
  case fault i heap code addr => exact once.steady (steady_fault found code addr)

theorem once_boot (regs : Regs) (space : Space) : Once (boot regs space) := by
  refine ⟨?_, ?_⟩
  · intro sig
    simp [boot, tooks, bit]
  · intro i sig
    simp only [boot, Function.update_apply]
    split <;> simp [held, bit]

end Espix.Umode.Pending
