import Espix.Lib.Run
import Espix.Terminal.Ldisc
import Mathlib.Logic.Function.Basic

/-! Tasks that read a tty and producers that feed it: `espix_tty_read` and `espix_tty_input`.

Each part under the lock is a step, and so is what a task does between two of them. -/

namespace Espix.Terminal.Readers

open Function Lib.Run Ldisc

/-- Where a task is in `espix_tty_read`, with the length it asks for and what it has got. -/
inductive Phase
  | outside
  | reading (len got : Nat)
  /-- Out of the lock. `room` is that it is about to tell the producer; it is done, or has asked to
  be notified. -/
  | past (room done timed : Bool) (len got : Nat)
  | blocked (timed : Bool) (len got : Nat)
  /-- About to take its entry off the table, to try again or to return. -/
  | leaving (again : Bool) (len got : Nat)
  deriving DecidableEq

structure State where
  tty : Tty
  waiters : List (Option Nat)
  readers : Nat → Phase
  notified : Nat → Bool
  /-- The producers that have been told that the tty is full, with whether they have been told of
  room since. -/
  told : Nat → Option Bool
  /-- What the tty has taken, and what reads have returned. -/
  accepted : List UInt8
  given : List UInt8

def boot (tty : Tty) : State :=
  ⟨tty, List.replicate 4 none, fun _ => .outside, fun _ => false, fun _ => none, [], []⟩

inductive Event
  | read (i len : Nat)
  | take (i : Nat)
  | tell (i : Nat)
  /-- Up to the sleep. `quit` is a read that must not block, or a signal. -/
  | goOn (i : Nat) (quit : Bool)
  | wake (i : Nat)
  | unregister (i : Nat)
  /-- A notification of the task that is not the tty's. -/
  | notify (i : Nat)
  | feed (p : Nat) (bytes : List UInt8)
  /-- The producer sees that it has been told of room. -/
  | resume (p : Nat)
  | eof
  | hangup
  | setattr (flush : Bool) (tio : Termios)

def put (s : State) (i : Nat) (phase : Phase) : State :=
  { s with readers := Function.update s.readers i phase }

def wake (s : State) (called : Bool) : State :=
  { s with notified := fun i => s.notified i || (called && s.waiters.contains (some i)) }

def takePart (s : State) (i len got : Nat) : State :=
  let t := s.tty
  let canon := t.canonical
  let eol := canon && t.ends.head? == some 0
  let (bytes, u) := t.take (len - got)
  let got := got + min (len - got) t.avail
  let room := u.full && decide (lineCap < u.cap - u.ring.length)
  let want := if canon then 1 else if t.tio.vmin = 0 then 1 else min t.tio.vmin.toNat len
  let ended := t.hung || t.eofIn
  let done :=
    if canon then decide (0 < got) || eol || ended
    else decide (want ≤ got) || (ended && u.ring.isEmpty) || (t.tio.vmin == 0 && t.tio.vtime == 0)
  let timed := !canon && t.tio.vtime != 0 && (t.tio.vmin == 0 || decide (0 < got))
  put { s with
    tty := { u with full := u.full && !room }
    given := s.given ++ bytes
    waiters := if done then s.waiters
      else s.waiters.replace none (some i) } i (.past room done timed len got)

def step (s : State) : Event → Option State
  | .read i len =>
      if s.readers i = .outside ∧ len ≠ 0 then some (put s i (.reading len 0)) else none
  | .take i =>
    match s.readers i with
    | .reading len got => some (takePart s i len got)
    | _ => none
  | .tell i =>
    match s.readers i with
    | .past true done timed len got =>
      some (put { s with told := fun p => (s.told p).map fun _ => true } i
        (.past false done timed len got))
    | _ => none
  | .goOn i quit =>
    match s.readers i with
    | .past false done timed len got =>
      some (put s i (if done then .outside else if quit then
        .leaving false len got else .blocked timed len got))
    | _ => none
  | .wake i =>
    match s.readers i with
    | .blocked timed len got =>
      if s.notified i || timed then
        some (put { s with notified := Function.update s.notified i false } i
          (.leaving (s.notified i) len got))
      else none
    | _ => none
  | .unregister i =>
    match s.readers i with
    | .leaving again len got =>
      some (put { s with waiters := s.waiters.replace (some i) none } i (if again then
        .reading len got else .outside))
    | _ => none
  | .notify i => some { s with notified := Function.update s.notified i true }
  | .feed p bytes =>
    if s.told p = none then
      let bytes := bytes.take chunkMax
      let turn := s.tty.inputLoop bytes
      some (wake { s with
        tty := turn.tty
        accepted := s.accepted ++ bytes.take turn.done
        told := if turn.stopped then Function.update s.told p (some false)
          else s.told } (!s.tty.ready && turn.tty.ready))
    else none
  | .resume p =>
      if s.told p = some true then some { s with told := Function.update s.told p none } else none
  | .eof => some (wake { s with tty := { s.tty with eofIn := true } } true)
  | .hangup => some (wake { s with tty := { s.tty with hung := true } } true)
  | .setattr flush tio =>
    -- `vfs_tcsetattr` refuses a pipe
    if s.tty.pipe then none
    else some (wake { s with tty := s.tty.setattr flush tio } (s.tty.setattr flush tio).ready)

@[grind] def Phase.len : Phase → Nat
  | .outside => 1
  | .reading len _ | .past _ _ _ len _ | .blocked _ len _ | .leaving _ len _ => len

/-- It has an entry in the table. -/
@[grind] def Phase.registered : Phase → Bool
  | .past _ done .. => !done
  | .blocked .. | .leaving .. => true
  | _ => false

/-- It has looked, and will sleep until it is notified. -/
@[grind] def Phase.waits : Phase → Bool
  | .past _ done .. => !done
  | .blocked .. => true
  | _ => false

@[grind] def Phase.tells : Phase → Bool
  | .past room .. => room
  | _ => false

structure Inv (s : State) : Prop where
  wide : lineCap < s.tty.cap
  pipes : s.tty.full = true → s.tty.pipe = true
  asked : ∀ i, 0 < (s.readers i).len
  entry : ∀ i, (s.readers i).registered = true → some i ∈ s.waiters
  asleep : ∀ i, (s.readers i).waits = true → s.notified i = true ∨ s.tty.ready = false ∧
    s.tty.full = false
  heard : ∀ p, s.told p = some false → s.tty.full = true ∨ ∃ i, (s.readers i).tells = true
  order : s.tty.pipe = true → s.accepted = s.given ++ s.tty.ring

variable {s t : State} {e : Event} {tty : Tty}

/-- A place of the table is free where a task looks for data. -/
def Placed (s : State) : Event → Prop
  | .take _ => none ∈ s.waiters
  | _ => True

theorem Inv.move {i : Nat} {phase : Phase} {waiters : List (Option Nat)} {notified : Nat → Bool}
    {told : Nat → Option Bool} {given : List UInt8} (inv : Inv s) (wide : lineCap < tty.cap)
    (pipes : tty.full = true → tty.pipe = true) (asked : 0 < phase.len)
    (kept : ∀ j, j ≠ i → (some j ∈ s.waiters → some j ∈ waiters) ∧ notified j = s.notified j)
    (entry : phase.registered = true → some i ∈ waiters)
    (calm : s.tty.ready = false ∧ s.tty.full = false → tty.ready = false ∧ tty.full = false)
    (asleep : phase.waits = true → notified i = true ∨ tty.ready = false ∧ tty.full = false)
    (heard : ∀ p, told p = some false → s.told p = some false ∧
      (s.tty.full = true ∨ (s.readers i).tells = true → tty.full = true ∨ phase.tells = true))
    (order : tty.pipe = true → s.accepted = given ++ tty.ring) :
    Inv (put { s with tty, waiters, notified, told, given } i phase) := by
  obtain ⟨-, -, asks, entries, sleeps, hears, -⟩ := inv
  refine ⟨wide, pipes, ?_, ?_, ?_, ?_, order⟩ <;> simp only [put, update_apply]
  · grind
  · grind
  · grind
  · intro p now
    obtain ⟨before, here⟩ := heard p now
    rcases hears p before with full | ⟨j, tells⟩
    · grind
    · by_cases same : j = i
      · grind
      · exact .inr ⟨j, by simpa [same] using tells⟩

theorem registered_of_waits {phase : Phase} (waits : phase.waits = true) :
    phase.registered = true := by
  cases phase with
  | past room done => exact waits
  | blocked => rfl
  | _ => cases waits

theorem Inv.change (inv : Inv s) {accepted : List UInt8} {told : Nat → Option Bool} {called : Bool}
    (wide : lineCap < tty.cap) (pipes : tty.full = true → tty.pipe = true)
    (calm : called = false → s.tty.ready = false ∧ s.tty.full = false → tty.ready = false ∧
      tty.full = false)
    (heard : ∀ p, told p = some false → tty.full = true ∨ s.told p = some false ∧
      tty.full = s.tty.full)
    (order : tty.pipe = true → accepted = s.given ++ tty.ring) :
    Inv (wake { s with tty, accepted, told } called) := by
  refine ⟨wide, pipes, inv.asked, inv.entry, fun i waits => ?_, fun p now => ?_, order⟩
  · have listed := inv.entry i (registered_of_waits waits)
    have asleep := inv.asleep i waits
    grind [wake]
  · rcases heard p now with full | ⟨before, same⟩
    · exact .inl full
    · exact same ▸ inv.heard p before

theorem mem_replace {j : Nat} {old new : Option Nat}
    {waiters : List (Option Nat)} (listed : some j ∈ waiters)
    (other : some j ≠ old) : some j ∈ waiters.replace old new := by
  induction waiters with
  | nil => cases listed
  | cons first rest ih => grind

theorem mem_replace_self {i : Nat} {waiters : List (Option Nat)} (free : none ∈ waiters) :
    some i ∈ waiters.replace none (some i) := by
  induction waiters with
  | nil => cases free
  | cons first rest ih => grind

theorem Inv.take (inv : Inv s) {i len got : Nat} (free : none ∈ s.waiters)
    (here : s.readers i = .reading len got) :
    Inv (takePart s i len got) := by
  have wide := inv.wide
  have pipes := inv.pipes
  have order := inv.order
  have asked := inv.asked i
  unfold takePart
  apply inv.move
  · exact inv.wide
  · grind [Tty.take]
  · grind
  · grind [mem_replace]
  · grind [mem_replace_self]
  · grind [Tty.ready, Tty.canonical, Tty.take, Tty.avail]
  · intro waits
    refine .inr ?_
    by_cases canon : s.tty.canonical = true
    · simp only [Phase.waits, canon] at waits ⊢
      cases marks : s.tty.ends <;> grind [Tty.ready, Tty.canonical, Tty.avail, Tty.take]
    · simp only [Phase.waits, canon] at waits ⊢
      grind [Tty.ready, Tty.canonical, Tty.avail, Tty.take]
  · grind [Tty.take]
  · grind [Tty.take, List.take_append_drop]

theorem inv_step (inv : Inv s) (placed : Placed s e) (next : step s e = some t) : Inv t := by
  obtain ⟨wide, pipes, asked, entry, asleep, heard, order⟩ := id inv
  revert next placed
  fun_cases step s e with
  | case1 | case5 | case7 | case9 | case12 =>
    rintro - ⟨⟩
    apply inv.move <;> grind -linarith [update_apply, mem_replace, Option.map_eq_some_iff]
  | case3 i len got here =>
    rintro free ⟨⟩
    exact inv.take free here
  | case14 =>
    rintro - ⟨⟩
    refine { inv with asleep := fun j waits => ?_ }
    grind -linarith [update_apply]
  | case15 p bytes _ taken turn =>
    rintro - ⟨⟩
    have frame := s.tty.flush_inputLoop taken
    have cap := congrArg Tty.cap frame
    have kind := congrArg Tty.pipe frame
    have full := congrArg Tty.full frame
    simp only [Tty.flush] at cap kind full
    have piped := @Tty.inputLoop_pipe s.tty taken
    have typed := @Tty.inputLoop_terminal s.tty taken
    apply inv.change
    · grind
    · grind
    · grind [Tty.ready, Tty.canonical]
    · grind [update_apply]
    · grind
  | case17 =>
    rintro - ⟨⟩
    refine { inv with heard := fun q now => ?_ }
    grind -linarith [update_apply]
  | case19 | case20 =>
    rintro - ⟨⟩
    exact inv.change wide pipes (by simp) (fun p before => .inr ⟨before, rfl⟩) order
  | case22 flush tio =>
    rintro - ⟨⟩
    have frame := s.tty.flush_setattr flush tio
    have cap := congrArg Tty.cap frame
    have same := congrArg Tty.pipe frame
    have full := congrArg Tty.full frame
    simp only [Tty.flush] at cap same full
    apply inv.change <;> grind -linarith
  | _ => rintro - ⟨⟩

theorem inv_run {inbuf : Nat} {es : List Event} (new : tty = terminal inbuf ∨ tty = pipeline inbuf)
    (done : run step (boot tty) es = some t)
    (placed : Along step Placed (boot tty) es) : Inv t := by
  refine run_invariant_along (fun s e t inv ok next => inv_step inv ok next) placed done ?_
  rcases new with rfl | rfl <;> constructor <;> grind -linarith [boot, terminal, pipeline, lineCap]

/-- A task sleeps with no timeout where there is something for it to read, and nothing is to wake
it. -/
def Lost (s : State) (i : Nat) : Prop :=
  (∃ len got, s.readers i = .blocked false len got) ∧ s.tty.ready = true ∧ s.notified i = false ∧
  some i ∉ s.waiters

theorem reader_reachable {inbuf : Nat} {es : List Event}
    (new : tty = terminal inbuf ∨ tty = pipeline inbuf)
    (done : run step (boot tty) es = some t) (placed : Along step Placed (boot tty) es)
    (i : Nat) : ¬Lost t i := by
  rintro ⟨⟨len, got, asleep⟩, -, -, missing⟩
  exact missing ((inv_run new done placed).entry i (asleep ▸ rfl))

def fed : List Event := [.read 0 1, .take 0, .goOn 0 false, .feed 0 [10]]

theorem reader_reachable_fed : ∃ t, run step (boot (terminal 256)) fed = some t ∧ ¬Lost t 0 :=
  ⟨_, rfl, reader_reachable (.inl rfl) (show run step (boot (terminal 256)) fed = some _ from rfl)
    (by simp [fed, Along, step, Placed, boot, put]) 0⟩

def crowd : List Event := (List.range 5).flatMap fun i => [.read i 1, .take i, .goOn i false]

theorem reader_unreachable : ∃ t, run step (boot (terminal 256)) (crowd ++
    [.feed 0 [10]]) = some t ∧ Lost t 4 :=
  ⟨_, rfl, ⟨1, 0, rfl⟩, rfl, rfl, by decide⟩

/-- A producer waits for room and a task for data, with nothing on the way to either. -/
def Stuck (s : State) : Prop :=
  (∃ p, s.told p = some false) ∧ (∃ i timed len got, s.readers i = .blocked timed len got ∧
    s.notified i = false) ∧
    ∀ i, (s.readers i).tells = false

theorem pipe_step (next : step s e = some t) : t.tty.pipe = s.tty.pipe := by
  cases e with
  | feed p bytes =>
    have kind := congrArg Tty.pipe (s.tty.flush_inputLoop (bytes.take chunkMax))
    grind [step, wake, Tty.flush]
  | setattr flush tio =>
    have kind := congrArg Tty.pipe (s.tty.flush_setattr flush tio)
    grind [step, wake, Tty.flush]
  | take i => grind [step, put, takePart, Tty.take]
  | _ => grind [step, put, wake]

theorem pipe_flows {inbuf : Nat} {es : List Event}
    (done : run step (boot (pipeline inbuf)) es = some t)
    (placed : Along step Placed (boot (pipeline inbuf)) es) : t.accepted = t.given ++
    t.tty.ring ∧ ¬Stuck t := by
  have inv := inv_run (.inr rfl) done placed
  refine ⟨inv.order ?_, ?_⟩
  · exact run_invariant (P := fun s => s.tty.pipe = true) (fun s e t kind next =>
      (pipe_step next).trans kind) done rfl
  · rintro ⟨⟨p, waiting⟩, ⟨i, timed, len, got, asleep, quiet⟩, silent⟩
    have empty := (inv.asleep i (asleep ▸ rfl)).resolve_left (by simp [quiet])
    have full := (inv.heard p waiting).resolve_right (by simp [silent])
    exact absurd full (by simp [empty.2])

theorem pipe_flows_fed : ∃ t, run step (boot (pipeline 256)) fed = some t ∧
    t.accepted = t.given ++ t.tty.ring ∧ ¬Stuck t :=
  ⟨_, rfl, pipe_flows (show run step (boot (pipeline 256)) fed = some _ from rfl)
    (by simp [fed, Along, step, Placed, boot, put])⟩

def jam : List Event :=
  crowd ++ List.replicate 4 (.feed 0 (List.replicate 64 0)) ++ [.feed 0 [0]] ++
    (List.range 4).flatMap fun i => [.wake i, .unregister i, .take i, .goOn i false]

theorem pipe_jams : ∃ t, run step (boot (pipeline 256)) jam = some t ∧ Stuck t :=
  ⟨_, rfl, ⟨0, rfl⟩, ⟨4, false, 1, 0, rfl, rfl⟩, fun i => match i with
    | 0 | 1 | 2 | 3 | 4 => rfl
    | _ + 5 => rfl⟩

end Espix.Terminal.Readers
