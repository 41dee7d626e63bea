import Espix.Lib.Words
import Espix.Umode.Copy
import Mathlib.Data.List.GetD

/-! Signals of U-mode processes: `umode_sig.c`, with the return to U and the trap entry of
`umode.c` and the sending side of `proc.c`.

A thread is in U, in a call, or in the delivery loop. One turn of that loop is one step, so
other threads run between its turns, and so do senders. A step that takes a lock in the
source is atomic here. -/

namespace Espix.Umode.Signal

open Lib.Page Lib.Words Copy Mm

/-- Numbers of the toolchain's `signal.h` and `errno.h`; espix defines none of its own. -/
structure Libc where
  kill : Nat
  stop : Nat
  tstp : Nat
  ttin : Nat
  ttou : Nat
  chld : Nat
  urg : Nat
  winch : Nat
  cont : Nat
  ill : Nat
  trap : Nat
  bus : Nat
  segv : Nat
  saRestart : Word
  saResethand : Word
  saNodefer : Word
  siUser : Word
  eintr : Nat
  kill_signal : 0 < kill ∧ kill < 32
  stop_signal : 0 < stop ∧ stop < 32
  differ : kill ≠ stop

variable (c : Libc)

def uncatchable : Word := single c.kill ||| single c.stop

def defaultIgnores (sig : Nat) : Bool :=
  sig == c.chld || sig == c.urg || sig == c.winch || sig == c.cont

def defaultStops (sig : Nat) : Bool := sig == c.tstp || sig == c.ttin || sig == c.ttou

def minusEintr : Word := -BitVec.ofNat 32 c.eintr

/-- `struct espix_sigaction`; the handler is 0 for the default, 1 for ignore, or an address. -/
structure Action where
  handler : Word
  flags : Word
  mask : Word
  restorer : Word
deriving DecidableEq

def Action.default : Action := ⟨0, 0, 0, 0⟩

def doesNothing (handler : Word) (sig : Nat) : Bool :=
  handler == 1 || (handler == 0 && defaultIgnores c sig)

def ignored (act : Nat → Action) : Word :=
  (List.range 32).foldl
    (fun m sig => if doesNothing c (act sig).handler sig then m ||| single sig else m) 0

/-- The pc, then x1 to x31, as in `RvExcFrame`. -/
abbrev Regs := Fin 32 → Word

abbrev pc : Fin 32 := 0
abbrev ra : Fin 32 := 1
abbrev sp : Fin 32 := 2
abbrev a0 : Fin 32 := 10
abbrev a1 : Fin 32 := 11
abbrev a2 : Fin 32 := 12
abbrev a7 : Fin 32 := 17

abbrev Fregs := Fin 33 → Word

section Frames

structure Info where
  signo : Word
  code : Word
  addr : Word
deriving DecidableEq

structure Frame where
  info : Info
  mask : Word
  regs : Regs
  fregs : Fregs
deriving DecidableEq

def Frame.head (f : Frame) : List Word :=
  [f.info.signo, f.info.code, 0, 0, 0, f.info.addr, 0, 0, f.mask]

def Frame.words (f : Frame) : List Word := f.head ++ (List.ofFn f.regs ++ List.ofFn f.fregs)

def frameSize : Nat := 296

def frameOf (words : List Word) : Frame :=
  { info := ⟨words.getD 0 0, words.getD 1 0, words.getD 5 0⟩
    mask := words.getD 8 0
    regs := fun i => words.getD (9 + i) 0
    fregs := fun i => words.getD (41 + i) 0 }

theorem length_head (f : Frame) : f.head.length = 9 := rfl

theorem length_words (f : Frame) : (textOf f.words).length = frameSize := by
  rw [length_textOf, Frame.words, List.length_append, List.length_append, length_head,
    List.length_ofFn, List.length_ofFn, frameSize]

theorem words_regs (f : Frame) (i : Fin 32) : f.words.getD (9 + i) 0 = f.regs i := by
  have short : (i : Nat) < (List.ofFn f.regs).length := by
    rw [List.length_ofFn]
    exact i.2
  rw [Frame.words, List.getD_append_right _ _ _ _ (Nat.le_add_right 9 _), length_head,
    Nat.add_sub_cancel_left, List.getD_append _ _ _ _ short, List.getD_eq_getElem _ _ short,
    List.getElem_ofFn]

theorem words_fregs (f : Frame) (i : Fin 33) : f.words.getD (41 + i) 0 = f.fregs i := by
  have past : f.head.length ≤ 41 + (i : Nat) := by
    rw [length_head]
    omega
  have behind : 41 + (i : Nat) - 9 = 32 + i := by omega
  have short : (i : Nat) < (List.ofFn f.fregs).length := by
    rw [List.length_ofFn]
    exact i.2
  rw [Frame.words, List.getD_append_right _ _ _ _ past, length_head, behind,
    List.getD_append_right _ _ _ _ (by rw [List.length_ofFn]; exact Nat.le_add_right 32 _),
    List.length_ofFn, Nat.add_sub_cancel_left, List.getD_eq_getElem _ _ short, List.getElem_ofFn]

theorem frameOf_words (f : Frame) : frameOf f.words = f := by
  simp only [frameOf, words_regs, words_fregs]
  rfl

abbrev Space := { as : AddrSpace // Wf as }

def Space.byte (s : Space) (va : Nat) : UInt8 := viewByte s.1 va

def store (heap : Heap) (s : Space) (base : Word) (f : Frame) : Bool × Space :=
  let r := copyout heap s.1 base.toNat (textOf f.words)
  (r.1, ⟨r.2, by
    have small := base.isLt
    exact (copyoutLoop_spec s.2 small (Nat.le_refl _)
      (by rw [length_words]; decide) rfl).1⟩)

def load (heap : Heap) (s : Space) (base : Word) : Option Frame × Space :=
  let r := copyin heap s.1 base.toNat frameSize
  (if r.1.1 then some (frameOf (wordsOf r.1.2)) else none, ⟨r.2, by
    have small := base.isLt
    exact (copyinLoop_spec s.2 small (Nat.le_refl _) rfl).1.wf⟩)

def Holds (s : Space) (base : Word) (f : Frame) : Prop :=
  ∀ k < frameSize, s.byte (wrap (base.toNat + k)) = (textOf f.words).getD k 0

variable {heap : Heap} {s : Space} {base : Word} {f g : Frame}

theorem copyout_frame (heap : Heap) (s : Space) (base : Word) (f : Frame) :
    CopyoutContract heap s.1 base.toNat (textOf f.words) :=
  copyout_contract s.2 base.isLt heap (by rw [length_words]; decide)

theorem store_holds (stored : (store heap s base f).1 = true) :
    Holds (store heap s base f).2 base f := by
  have contract := copyout_frame heap s base f
  have fine : (copyout heap s.1 base.toNat (textOf f.words)).1 = true := stored
  intro k low
  rw [← length_words f] at low
  have here := contract.inside fine k low
  have mapped : (view s.1 (wrap (base.toNat + k))).isSome = true := by
    by_contra unmapped
    have closed : Closed s.1 .w base.toNat (textOf f.words).length := by
      refine ⟨k, low, ?_⟩
      rw [Option.not_isSome_iff_eq_none] at unmapped
      rw [accessible, unmapped]
      rfl
    rw [contract.fails_iff.mpr (.inl closed)] at fine
    cases fine
  obtain ⟨v, there⟩ := Option.isSome_iff_exists.mp mapped
  rw [there] at here
  show viewByte (copyout heap s.1 base.toNat (textOf f.words)).2 _ = _
  rw [viewByte, here]
  rfl

theorem store_elsewhere {va : Nat} (small : va < 4294967296)
    (elsewhere : ∀ k < frameSize, va ≠ wrap (base.toNat + k)) :
    (store heap s base f).2.byte va = s.byte va := by
  have contract := copyout_frame heap s base f
  rw [← length_words f] at elsewhere
  show viewByte (copyout heap s.1 base.toNat (textOf f.words)).2 va = viewByte s.1 va
  rw [viewByte, contract.outside va small elsewhere, viewByte]

theorem load_byte (va : Nat) : (load heap s base).2.byte va = s.byte va := by
  have contract := copyin_contract s.2 base.isLt heap frameSize
  show viewByte (copyin heap s.1 base.toNat frameSize).2 va = viewByte s.1 va
  rw [viewByte, contract.unchanged va, viewByte]

theorem bytesAt_of_holds (holds : Holds s base g) :
    bytesAt s.1 base.toNat frameSize = textOf g.words := by
  apply List.ext_getElem
  · rw [bytesAt_length, length_words]
  · intro k low high
    have there := holds k (length_words g ▸ high)
    rw [List.getD_eq_getElem _ _ high] at there
    rw [← there]
    simp [bytesAt, Space.byte]

theorem load_holds (holds : Holds s base g) (loaded : (load heap s base).1 = some f) : f = g := by
  have contract := copyin_contract s.2 base.isLt heap frameSize
  simp only [load, Option.ite_none_right_eq_some, Option.some.injEq] at loaded
  obtain ⟨fine, rfl⟩ := loaded
  rw [contract.bytes fine, bytesAt_of_holds holds, wordsOf_textOf, frameOf_words]

end Frames

inductive Mode
  | user
  | call
  /-- In `espix_um_sig_deliver`, with what `sys_intr` was. -/
  | delivering (intr : Bool)
deriving DecidableEq

/-- `espix_um_thread_t`, the registers it has in U or will have there, and where it is.
`atCall` is for the proofs: the registers with which it made its last call. -/
structure Thread where
  regs : Regs
  fregs : Fregs
  mode : Mode
  diverted : Bool
  suspended : Bool
  sysIntr : Bool
  sigPc : Word
  blocked : Word
  pending : Word
  saved : Word
  sysNr : Word
  sysA0 : Word
  atCall : Regs
deriving DecidableEq

structure Entry where
  thread : Nat
  sig : Nat
  base : Word
  frame : Frame
deriving DecidableEq

inductive Note
  | posted (sig : Nat)
  | took (thread sig : Nat)
  | raised (thread sig : Nat)
  | handled (thread sig : Nat)
  | pushed (e : Entry)
  | exited (thread status : Nat)
deriving DecidableEq

structure Proc where
  threads : Nat → Option Thread
  act : Nat → Action
  space : Space
  pending : Word
  stopReq : Bool
  stopRequested : Bool
  exiting : Bool
  log : List Note

def Proc.set (p : Proc) (i : Nat) (t : Option Thread) : Proc :=
  { p with threads := Function.update p.threads i t }

def Proc.note (p : Proc) (notes : List Note) : Proc := { p with log := p.log ++ notes }

def kickPc : Word := 0xffc

def sysSigreturn : Word := 47

def restartable (nr : Word) : Bool :=
  -- nanosleep, sigsuspend, futex and poll
  nr != 26 && nr != 46 && nr != 39 && nr != 63

def Regs.set (r : Regs) (i : Fin 32) (w : Word) : Regs := Function.update r i w

/-- The mask that was in force before a `sigsuspend` comes back. -/
def restored (t : Thread) : Thread :=
  if t.suspended then { t with suspended := false, blocked := t.saved } else t

def due (p : Proc) (t : Thread) : Bool :=
  p.stopRequested || p.exiting || p.stopReq || (p.pending ||| t.pending) &&& ~~~t.blocked != 0

def returnTo (p : Proc) (t : Thread) : Thread :=
  if t.diverted then t
  else if due p t then
    { t with diverted := true, sigPc := t.regs pc, regs := t.regs.set pc kickPc, mode := .user }
  else { restored t with sysIntr := false, mode := .user }

def resume (p : Proc) (i : Nat) (t : Thread) : Proc := p.set i (some (returnTo p t))

/-- `espix_um_exit_group`: the thread leaves, and the others at their next return. -/
def exitGroup (p : Proc) (i status : Nat) : Proc :=
  ({ p with exiting := true }.set i none).note [.exited i status]

def offProcess (p : Proc) (sig : Nat) : Proc := { p with pending := p.pending &&& ~~~single sig }

def sigClaim (p : Proc) (i : Nat) (t : Thread) : Proc :=
  let want := ~~~t.blocked &&& ~~~ignored c p.act
  let sig := lowest (p.pending &&& want)
  if t.pending &&& want = 0 ∧ sig ≠ 0 then
    ((offProcess p sig).set i (some { t with pending := t.pending ||| single sig })).note
      [.took i sig]
  else p

def take (p : Proc) (i : Nat) (t : Thread) : Nat × Proc × Thread :=
  let mine := t.pending &&& ~~~t.blocked
  if mine ≠ 0 then
    let t := { t with pending := t.pending &&& ~~~single (lowest mine) }
    (lowest mine, p.set i (some t), t)
  else
    let sig := lowest (p.pending &&& ~~~t.blocked)
    if sig = 0 then (0, p, t) else (sig, (offProcess p sig).note [.took i sig], t)

/-- `action_of`, which forgets a handler that asked for it. -/
def forget (p : Proc) (sig : Nat) : Proc :=
  let act := p.act sig
  if act.handler.toNat > 1 ∧ act.flags &&& c.saResethand ≠ 0 then
    { p with act := Function.update p.act sig { act with handler := 0 } }
  else p

def pushedSp (t : Thread) : Word := (t.regs sp - BitVec.ofNat 32 frameSize) &&& ~~~15

def frameFor (t : Thread) (info : Info) : Frame :=
  ⟨info, if t.suspended then t.saved else t.blocked, t.regs, t.fregs⟩

def entered (t : Thread) (sig : Nat) (act : Action) : Thread :=
  let base := pushedSp t
  { t with
    suspended := false
    blocked := (t.blocked ||| act.mask |||
      (if act.flags &&& c.saNodefer ≠ 0 then 0 else single sig)) &&& ~~~uncatchable c
    regs := ((((((t.regs.set sp base).set a0 (BitVec.ofNat 32 sig)).set a1 base).set a2 base).set ra
      act.restorer).set pc act.handler) }

/-- `push` and the return to U; the process ends if the stack cannot take the frame. -/
def push (heap : Heap) (p : Proc) (i : Nat) (t : Thread) (sig : Nat) (act : Action) (info : Info)
    (status : Nat) : Proc :=
  let base := pushedSp t
  let frame := frameFor t info
  let r := store heap p.space base frame
  if r.1 then
    let p := ({ p with space := r.2 }).note [.pushed ⟨i, sig, base, frame⟩]
    resume p i (entered c t sig act)
  else exitGroup { p with space := r.2 } i status

/-- What `SA_RESTART` does to a call that was interrupted. -/
def restarted (t : Thread) (intr : Bool) (act : Action) : Thread :=
  if intr && act.flags &&& c.saRestart != 0 && restartable t.sysNr then
    { t with regs := (t.regs.set pc (t.regs pc - 4)).set a0 t.sysA0 }
  else t

/-- The end of a turn: the action of a signal that was taken. -/
def handle (heap : Heap) (p : Proc) (i : Nat) (t : Thread) (intr : Bool) (sig : Nat) : Proc :=
  let act := p.act sig
  let p := (forget c p sig).note [.handled i sig]
  if doesNothing c act.handler sig then p.set i (some t)
  else if act.handler = 0 then
    if defaultStops c sig then { p with stopReq := true }.set i (some t)
    else exitGroup p i (128 + sig)
  else
    push c heap p i (restarted c t intr act) sig act ⟨BitVec.ofNat 32 sig, c.siUser, 0⟩
      (128 + c.segv)

/-- One turn of the loop of `espix_um_sig_deliver`; a stopped process takes none. -/
def turn (heap : Heap) (p : Proc) (i : Nat) (t : Thread) (intr : Bool) : Option Proc :=
  if p.stopRequested || p.exiting then some (exitGroup p i (128 + c.kill))
  else if p.stopReq then none
  else
    let (sig, p, t) := take p i t
    if sig = 0 then some (resume p i (restored t)) else some (handle c heap p i t intr sig)

def sigReturn (heap : Heap) (p : Proc) (i : Nat) (t : Thread) : Proc :=
  match load heap p.space (t.regs sp) with
  | (none, space) => exitGroup { p with space := space } i (128 + c.segv)
  | (some f, space) =>
    resume { p with space := space } i
      { t with regs := f.regs, fregs := f.fregs, blocked := f.mask &&& ~~~uncatchable c }

def faultSignal (code : Nat) : Nat :=
  if code = 2 then c.ill
  else if code = 3 then c.trap
  else if code = 0 ∨ code = 4 ∨ code = 6 then c.bus
  else c.segv

/-- `fault`, with `espix_um_sig_fault`. -/
def fault (heap : Heap) (p : Proc) (i : Nat) (t : Thread) (code : Nat) (addr : Word) : Proc :=
  let sig := faultSignal c code
  if t.blocked &&& single sig ≠ 0 then exitGroup p i (128 + sig)
  else
    let act := p.act sig
    let p := forget c p sig
    if act.handler.toNat ≤ 1 then exitGroup p i (128 + sig)
    else push c heap p i t sig act ⟨BitVec.ofNat 32 sig, 0, addr⟩ (128 + sig)

def sigaction (p : Proc) (i : Nat) (t : Thread) (sig : Nat) (act : Action) : Proc :=
  if single sig = 0 ∨ single sig &&& uncatchable c ≠ 0 then p
  else
    let act := { act with mask := act.mask &&& ~~~uncatchable c }
    let p := { p with act := Function.update p.act sig act }
    if doesNothing c act.handler sig then
      (offProcess p sig).set i (some { t with pending := t.pending &&& ~~~single sig })
    else p

inductive How
  | block
  | unblock
  | setmask

def sigprocmask (t : Thread) (how : How) (set : Word) : Thread :=
  let set := set &&& ~~~uncatchable c
  match how with
  | .block => { t with blocked := t.blocked ||| set }
  | .unblock => { t with blocked := t.blocked &&& ~~~set }
  | .setmask => { t with blocked := set }

def sigsuspend (t : Thread) (mask : Word) : Thread :=
  { t with saved := t.blocked, suspended := true, blocked := mask &&& ~~~uncatchable c }

/-- A terminal's stop at its default action is sent as `SIGSTOP`, whoever blocks it. -/
def sentAs (p : Proc) (sig : Nat) : Nat :=
  if defaultStops c sig && (p.act sig).handler == 0 then c.stop else sig

def ontoProcess (p : Proc) (sig : Nat) : Proc :=
  { p with
    pending := p.pending ||| single sig
    log := p.log ++ if p.pending.getLsbD sig then [] else [.posted sig] }

def procSignal (p : Proc) (sig : Nat) : Proc :=
  if sentAs c p sig = c.stop then { p with stopReq := true }
  else { ontoProcess p (sentAs c p sig) with stopReq := false }

def raiseSig (p : Proc) (i : Nat) (t : Thread) (sig : Nat) : Proc :=
  if single sig = 0 then p
  else if sig = c.kill then exitGroup p i (128 + c.kill)
  else if sig = c.stop then { p with stopReq := true }
  else (p.set i (some { t with pending := t.pending ||| single sig })).note [.raised i sig]

inductive Event
  | post (sig : Nat)
  | child
  /-- Code in U runs: registers and user memory are what it leaves. -/
  | user (i : Nat) (regs : Regs) (fregs : Fregs) (space : Space)
  | interrupt (i : Nat)
  | ecall (i : Nat)
  | claim (i : Nat)
  | sigaction (i sig : Nat) (act : Action)
  | sigprocmask (i : Nat) (how : How) (set : Word)
  | sigsuspend (i : Nat) (mask : Word)
  | raise (i sig : Nat)
  | threadCreate (i new : Nat) (regs : Regs)
  | threadExit (i : Nat)
  /-- A call reads or writes user memory, or maps some. -/
  | memory (i : Nat) (space : Space)
  | leave (i : Nat) (ret : Word)
  | kick (i : Nat)
  | turn (i : Nat) (heap : Heap)
  | sigreturn (i : Nat) (heap : Heap)
  | fault (i : Nat) (heap : Heap) (code : Nat) (addr : Word)

def atMode (p : Proc) (i : Nat) (ok : Thread → Bool) : Option Thread :=
  (p.threads i).filter ok

def inUser (t : Thread) : Bool := t.mode == .user && !t.diverted

def inCall (t : Thread) : Bool := t.mode == .call

def inDelivery (t : Thread) : Bool := t.mode == .delivering true || t.mode == .delivering false

def step (p : Proc) : Event → Option Proc
  | .post sig =>
    -- a process that is killed is not left stopped
    if single sig = 0 then some p
    else if sig = c.kill then some { p with stopRequested := true, stopReq := false }
    else some (procSignal c p sig)
  | .child => some (ontoProcess p c.chld)
  | .user i regs fregs space =>
    (atMode p i inUser).map fun t =>
      { p with space := space }.set i (some { t with regs := regs, fregs := fregs })
  | .interrupt i => (atMode p i fun t => t.mode == .user).map fun t => resume p i t
  | .ecall i =>
    (atMode p i fun t => inUser t && t.regs a7 != sysSigreturn).map fun t =>
      p.set i (some { t with
        mode := .call
        sysNr := t.regs a7
        sysA0 := t.regs a0
        atCall := t.regs
        regs := t.regs.set pc (t.regs pc + 4) })
  | .claim i => (atMode p i fun t => inCall t || inDelivery t).map fun t => sigClaim c p i t
  | .sigaction i sig act => (atMode p i inCall).map fun t => sigaction c p i t sig act
  | .sigprocmask i how set =>
    (atMode p i inCall).map fun t => p.set i (some (sigprocmask c t how set))
  | .sigsuspend i mask => (atMode p i inCall).map fun t => p.set i (some (sigsuspend c t mask))
  | .raise i sig => (atMode p i inCall).map fun t => raiseSig c p i t sig
  | .threadCreate i new regs =>
    (atMode p i inCall).bind fun t =>
      match p.threads new with
      | some _ => none
      | none => some (p.set new (some
          ⟨regs, fun _ => 0, .user, false, false, false, 0, t.blocked, 0, 0, 0, 0, regs⟩))
  | .threadExit i => (atMode p i inCall).map fun _ => p.set i none
  | .memory i space => (atMode p i inCall).map fun _ => { p with space := space }
  | .leave i ret =>
    (atMode p i fun t => inCall t && (!t.suspended || ret == minusEintr c)).map fun t =>
      resume p i { t with regs := t.regs.set a0 ret, sysIntr := ret == minusEintr c }
  | .kick i =>
    (atMode p i fun t => t.mode == .user && t.diverted).map fun t =>
      p.set i (some { t with
        diverted := false
        regs := t.regs.set pc t.sigPc
        mode := .delivering t.sysIntr
        sysIntr := false })
  | .turn i heap =>
    (atMode p i inDelivery).bind fun t => turn c heap p i t (t.mode == .delivering true)
  | .sigreturn i heap =>
    (atMode p i fun t => inUser t && t.regs a7 == sysSigreturn).map fun t => sigReturn c heap p i t
  | .fault i heap code addr => (atMode p i inUser).map fun t => fault c heap p i t code addr

def boot (regs : Regs) (space : Space) : Proc :=
  { threads := Function.update (fun _ => none) 0 (some
      ⟨regs, fun _ => 0, .user, false, false, false, 0, 0, 0, 0, 0, 0, regs⟩)
    act := fun _ => .default
    space := space
    pending := 0
    stopReq := false
    stopRequested := false
    exiting := false
    log := [] }

end Espix.Umode.Signal
