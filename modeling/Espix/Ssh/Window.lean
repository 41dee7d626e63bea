import Espix.Lib.Run
import Espix.Ssh.Packet

/-! The window of a channel.

Writers send data as the peer's window allows and wait where it is used up. Every packet is built
and sent under the transmit lock; the reader adds to the window without it. -/

namespace Espix.Ssh.Window

open Function Lib.Run
open Lib.Xdr (Bytes word length_word)

inductive Pc
  | top
  | locked
  | first
  /-- The window was not larger than what is left: `MIN` looks at it again for its value. -/
  | second
  | sending (chunk : Nat)
  | charging (chunk : Nat)
  /-- About to give the lock back, with what `send_chunk` returned. -/
  | giving (n : Option Nat)
  | waiting
  | ended (ok : Bool)
  deriving DecidableEq

def Pc.inside : Pc → Bool
  | .top | .waiting | .ended _ => false
  | _ => true

structure Call where
  start : Nat
  total : Nat
  ext : Nat
  echo : Bool
  data : Nat
  len : Nat
  pc : Pc

structure Packet where
  call : Nat
  ext : Nat
  bytes : Bytes

/-- The memory of the writers, and what the peer said as it opened the channel. -/
structure Config where
  memory : Nat → UInt8
  peerChan : Nat
  peerWindow : Nat
  peerMaxPacket : Nat
  window_lt : peerWindow < 2 ^ 32

structure State where
  calls : Nat → Option Call
  peerWindow : Nat
  txLock : Option Nat
  closed : Bool
  txOrphaned : Bool
  /-- The data packets that went out whole. -/
  wire : List Packet
  /-- Data bytes that went out of a packet that did not go out whole. -/
  torn : Nat
  /-- The first window and every adjustment. -/
  granted : Nat

inductive Action
  | take
  /-- `chan_tx_take` gives up, at once or when the lock has been held for too long. -/
  | refuse (dead : Bool)
  | leave
  | look
  | send
  /-- The send fails after so many of the data bytes. -/
  | tear (k : Nat)
  | charge
  | give
  | wake (late : Bool)
  | kill

inductive Event
  | call (i start total ext : Nat) (echo : Bool)
  | act (i : Nat) (a : Action)
  | adjust (v : Nat)
  | close

variable (config : Config)

def slice (start n : Nat) : Bytes := (List.range n).map fun k => config.memory (start + k)

def capped (chunk : Nat) : Nat := min (min chunk config.peerMaxPacket) (maxPacket - 64)

def sized (chunk : Nat) : Pc := if capped config chunk = 0 then
    .giving (some 0) else .sending (capped config chunk)

def message (p : Packet) : Bytes :=
  (if p.ext = 0 then 94 else 95) :: (word config.peerChan ++
    (if p.ext = 0 then [] else word p.ext) ++ word p.bytes.length ++ p.bytes)

def opened : State :=
  ⟨fun _ => none, config.peerWindow, none, false, false, [], 0, config.peerWindow⟩

def put (s : State) (i : Nat) (c : Call) : State :=
  { s with calls := Function.update s.calls i (some c) }

def afterGive (c : Call) : Option Nat → Call
  | none => { c with pc := .ended false }
  | some n =>
    if c.echo then { c with pc := .ended true }
    else if n = 0 then { c with pc := .waiting }
    else { c with data := c.data + n, len := (c.len + 2 ^ 32 - n) % 2 ^ 32, pc := .top }

def act (s : State) (i : Nat) (c : Call) : Action → Option State
  | .take =>
    if c.pc = .top ∧ (c.echo ∨ 0 < c.len) ∧ s.txOrphaned = false ∧ s.txLock = none then
      some (put { s with txLock := some i } i { c with pc := .locked })
    else none
  | .refuse dead =>
    if c.pc = .top ∧ (c.echo ∨ 0 < c.len) ∧
      (s.txOrphaned ∨ s.txLock ≠ none ∧ (s.closed ∨ dead)) then
      some (put { s with closed := s.closed || dead } i { c with pc := .ended false })
    else none
  | .leave =>
      if c.pc = .top ∧ c.echo = false ∧ c.len = 0 then
        some (put s i { c with pc := .ended true }) else none
  | .look =>
    match c.pc with
    | .locked => some (put s i { c with pc := if s.closed then .giving none else .first })
    | .first =>
        some (put s i { c with pc := if c.len < s.peerWindow then sized config c.len else .second })
    | .second => some (put s i { c with pc := sized config s.peerWindow })
    | _ => none
  | .send =>
    match c.pc with
    | .sending chunk =>
      some (put { s with wire := s.wire ++ [⟨i, c.ext, slice config c.data chunk⟩] } i
        { c with pc := .charging chunk })
    | _ => none
  | .tear k =>
    match c.pc with
    | .sending chunk =>
      if k ≤ chunk then some (put { s with closed := true, torn := s.torn + k } i
        { c with pc := .giving none }) else none
    | _ => none
  | .charge =>
    match c.pc with
    | .charging chunk =>
      some (put { s with peerWindow := (s.peerWindow + 2 ^ 32 - chunk) % 2 ^ 32 } i
        { c with pc := .giving (some chunk) })
    | _ => none
  | .give =>
    match c.pc with
    | .giving n => some (put { s with txLock := none } i (afterGive c n))
    | _ => none
  | .wake late =>
    if c.pc = .waiting then
      if s.peerWindow = 0 ∧ s.closed = false then
        if late then some (put { s with closed := true } i { c with pc := .ended false }) else none
      else some (put s i { c with pc := if s.closed then .ended false else .top })
    else none
  | .kill =>
    match c.pc with
    | .ended _ => none
    -- what it held nobody can give back
    | pc =>
      some (put { s with txOrphaned := s.txOrphaned || pc.inside, closed := s.closed || pc.inside }
        i { c with pc := .ended false })

def step (s : State) : Event → Option State
  | .call i start total ext echo =>
    if s.calls i = none ∧ total < 2 ^ 32 then
      some (put s i ⟨start, total, ext, echo, start, total, .top⟩) else none
  | .act i a => (s.calls i).bind fun c => act config s i c a
  | .adjust v =>
    if v < 2 ^ 32 then
      some { s with peerWindow := (s.peerWindow + v) % 2 ^ 32, granted := s.granted + v } else none
  | .close => some { s with closed := true }

variable {j chunk : Nat} {lock : Option Nat} {closed : Bool} {a : Action} {e : Event}

section Flow

def debt : Pc → Nat
  | .charging chunk => chunk
  | _ => 0

def Pc.passed : Pc → Bool
  | .first | .second | .sending _ | .charging _ => true
  | _ => false

def sent (s : State) : Nat := (s.wire.map (·.bytes.length)).sum

def pending (s : State) : Nat := ((s.txLock.bind s.calls).map fun c => debt c.pc).getD 0

structure Flow (s : State) : Prop where
  owner : ∀ i c, s.calls i = some c → c.pc.inside = true → s.txLock = some i
  orphaned : s.txOrphaned = true → ∀ i c, s.calls i = some c → c.pc.inside = false
  small : s.peerWindow < 2 ^ 32
  balance : s.txOrphaned = false →
    (s.peerWindow + sent s) % 2 ^ 32 = (s.granted + pending s) % 2 ^ 32
  budget : sent s + s.torn ≤ s.granted
  room : ∀ i c, s.calls i = some c → ∀ chunk, c.pc = .sending chunk →
    sent s + chunk ≤ s.granted ∧ chunk ≤ config.peerMaxPacket ∧ chunk ≤ maxPacket - 64
  charged : ∀ i c, s.calls i = some c → ∀ chunk, c.pc = .charging chunk → chunk ≤ maxPacket - 64
  torn : s.torn ≠ 0 → s.closed = true ∧ ∀ i c, s.calls i = some c → c.pc.passed = false
  sizes : ∀ p ∈ s.wire, p.bytes.length ≤ config.peerMaxPacket ∧ p.bytes.length ≤ maxPacket - 64

variable {config} {s t : State} {i : Nat} {c c' : Call}

theorem calls_put : (put s i c).calls j = if j = i then some c else s.calls j := update_apply ..

theorem forall_put {P : Nat → Call → Prop} (here : P i c)
    (others : ∀ j d, s.calls j = some d → j ≠ i → P j d) :
    ∀ j d, (put s i c).calls j = some d → P j d := by
  intro j d found
  rw [calls_put] at found
  split at found
  · rename_i same
    subst same
    cases found
    exact here
  · rename_i differs
    exact others j d found differs

theorem capped_le (config : Config) (chunk : Nat) : capped config chunk ≤ chunk ∧
    capped config chunk ≤ config.peerMaxPacket ∧
    capped config chunk ≤ maxPacket - 64 := by
  unfold capped
  omega

theorem length_slice (start n : Nat) : (slice config start n).length = n := by
  rw [slice, List.length_map, List.length_range]

theorem sent_append (wire : List Packet) (p : Packet) :
    ((wire ++ [p]).map (·.bytes.length)).sum = (wire.map (·.bytes.length)).sum +
    p.bytes.length := by
  rw [List.map_append, List.sum_append, List.map_singleton, List.sum_singleton]

theorem Pc.inside_of_passed {pc : Pc} (passed : pc.passed = true) : pc.inside = true := by
  cases pc <;> first | rfl | cases passed

theorem Pc.inside_of_debt {pc : Pc} (due : debt pc ≠ 0) : pc.inside = true := by
  cases pc <;> first | rfl | exact absurd rfl due

def due (s : State) (i : Nat) : Nat := ((s.calls i).map fun c => debt c.pc).getD 0

theorem due_of (here : s.calls i = some c) : due s i = debt c.pc := by
  rw [due, here]
  rfl

theorem pending_change (owner : ∀ i c, s.calls i = some c → c.pc.inside = true → s.txLock = some i)
    (calls : t.calls = Function.update s.calls i (some c))
    (locks : t.txLock = s.txLock ∨ (s.txLock = none ∨ s.txLock = some i) ∧
      (t.txLock = none ∨ t.txLock = some i))
    (owns : c.pc.inside = true → t.txLock = some i) : ∃ p, pending s = p + due s i ∧
    pending t = p + debt c.pc := by
  have owed : t.txLock ≠ some i → debt c.pc = 0 :=
    fun free => by_contra fun owes => free (owns (Pc.inside_of_debt owes))
  have owing : s.txLock ≠ some i → due s i = 0 := by
    intro free
    unfold due
    cases found : s.calls i with
    | none => rfl
    | some d => exact by_contra fun owes => free (owner i d found (Pc.inside_of_debt owes))
  have now : t.calls i = some c := by rw [calls, update_self]
  by_cases mine : s.txLock = none ∨ s.txLock = some i
  · have also : t.txLock = none ∨ t.txLock = some i := locks.elim (fun same => same ▸ mine) (·.2)
    refine ⟨0, ?_, ?_⟩
    · rcases mine with free | held
      · rw [owing (by simp [free]), pending, free]
        rfl
      · rw [pending, held, due, Nat.zero_add]
        rfl
    · rcases also with free | held
      · rw [owed (by simp [free]), pending, free]
        rfl
      · rw [pending, held, Option.bind_some, now, Nat.zero_add]
        rfl
  · have same : t.txLock = s.txLock := locks.resolve_right fun changed => mine changed.1
    refine ⟨pending s, by rw [owing fun held => mine (.inr held), Nat.add_zero], ?_⟩
    rw [owed fun held => mine (.inr (same ▸ held)), pending, pending, same, calls]
    cases held : s.txLock with
    | none => rfl
    | some k =>
      have other : k ≠ i := fun same => mine (.inr (same ▸ held))
      rw [Option.bind_some, Option.bind_some, update_of_ne other]
      rfl

theorem Flow.change (flow : Flow config s) (calls : t.calls = Function.update s.calls i (some c))
    (locks : t.txLock = s.txLock ∨ (s.txLock = none ∨ s.txLock = some i) ∧
      (t.txLock = none ∨ t.txLock = some i))
    (owns : c.pc.inside = true → t.txLock = some i ∧ t.txOrphaned = false)
    (orphans : t.txOrphaned = true → s.txOrphaned = true ∨ s.txLock = some i)
    (stays : s.txOrphaned = true → t.txOrphaned = true) (small : t.peerWindow < 2 ^ 32)
    (flowed : ∀ p, t.txOrphaned = false →
      (s.peerWindow + sent s) % 2 ^ 32 = (s.granted + (p + due s i)) % 2 ^ 32 →
      (t.peerWindow + sent t) % 2 ^ 32 = (t.granted + (p + debt c.pc)) % 2 ^ 32)
    (budget : sent t + t.torn ≤ t.granted)
    (room : ∀ chunk, c.pc = .sending chunk → sent t + chunk ≤ t.granted ∧
      chunk ≤ config.peerMaxPacket ∧ chunk ≤ maxPacket - 64)
    (charged : ∀ chunk, c.pc = .charging chunk → chunk ≤ maxPacket - 64)
    (spends : sent t = sent s ∧ s.granted ≤ t.granted ∨ s.txLock = some i)
    (tears : t.torn ≠ 0 → t.closed = true ∧ c.pc.passed = false ∧ (s.torn ≠ 0 ∨ s.txLock = some i))
    (sizes : ∀ p ∈ t.wire, p.bytes.length ≤ config.peerMaxPacket ∧
      p.bytes.length ≤ maxPacket - 64) : Flow config t := by
  obtain ⟨owner, orphaned, -, balance, -, rooms, charges, torn, -⟩ := flow
  refine ⟨fun j d found => ?_, fun gone j d found => ?_, small, fun alive => ?_,
    budget, fun j d found => ?_, fun j d found => ?_,
    fun some_torn => ⟨(tears some_torn).1, fun j d found => ?_⟩, sizes⟩
  case refine_3 =>
    obtain ⟨p, before, after⟩ := pending_change owner calls locks fun inside => (owns inside).1
    rw [after]
    refine flowed p alive ?_
    rw [← before]
    exact balance (by grind -linarith)
  all_goals
    rw [calls, update_apply] at found
    grind -linarith [Pc.inside, Pc.inside_of_passed]

theorem Flow.window_le (flow : Flow config s) (here : s.calls i = some c)
    (looks : c.pc = .first ∨ c.pc = .second) :
    sent s + s.peerWindow ≤ s.granted := by
  have inside : c.pc.inside = true := by rcases looks with pc | pc <;> rw [pc] <;> rfl
  have nothing : pending s = 0 := by
    rw [pending, flow.owner i c here inside, Option.bind_some, here]
    rcases looks with pc | pc <;> simp [pc, debt]
  have balance := flow.balance (by grind -linarith [flow.orphaned])
  have budget := flow.budget
  have small := flow.small
  omega

/-- What is known of a call, and of the sums. -/
structure Known (config : Config) (s : State) (i : Nat) (c : Call) : Prop where
  owner : c.pc.inside = true → s.txLock = some i
  orphaned : s.txOrphaned = true → c.pc.inside = false
  small : s.peerWindow < 2 ^ 32
  budget : sent s + s.torn ≤ s.granted
  room : ∀ chunk, c.pc = .sending chunk → sent s + chunk ≤ s.granted ∧
    chunk ≤ config.peerMaxPacket ∧ chunk ≤ maxPacket - 64
  charged : ∀ chunk, c.pc = .charging chunk → chunk ≤ maxPacket - 64
  torn : s.torn ≠ 0 → s.closed = true ∧ c.pc.passed = false
  sizes : ∀ p ∈ s.wire, p.bytes.length ≤ config.peerMaxPacket ∧ p.bytes.length ≤ maxPacket - 64

attribute [local grind] put sent Pc.inside Pc.passed

section Acts

variable (flow : Flow config s) (here : s.calls i = some c)

include flow here

theorem Flow.known : Known config s i c where
  owner := flow.owner i c here
  orphaned := fun gone => flow.orphaned gone i c here
  small := flow.small
  budget := flow.budget
  room := flow.room i c here
  charged := flow.charged i c here
  torn := fun some_torn => ⟨(flow.torn some_torn).1, (flow.torn some_torn).2 i c here⟩
  sizes := flow.sizes

theorem Flow.acts (acted : act config s i c a = some t) : Flow config t := by
  cases flow.known here
  revert acted
  fun_cases act config s i c a with
  | case1 guard | case3 dead guard | case5 guard =>
    rintro ⟨⟩
    apply flow.change rfl
    case flowed => simp only [put, sent, due_of here, guard.1, debt]; omega
    all_goals grind -linarith
  | case7 pc =>
    rintro ⟨⟩
    apply flow.change rfl
    case flowed => simp only [put, sent, due_of here, pc, debt]; grind -linarith
    all_goals grind -linarith
  | case8 pc | case9 pc =>
    rintro ⟨⟩
    have window := flow.window_le here (by simp [pc])
    apply flow.change rfl
    case flowed => simp only [put, sent, due_of here, pc, debt, sized]; grind -linarith
    all_goals grind -linarith [sized, capped]
  | case11 chunk pc =>
    rintro ⟨⟩
    apply flow.change rfl
    case flowed => simp only [put, sent, sent_append, length_slice, due_of here, pc, debt]; omega
    all_goals grind -linarith [sent_append, length_slice]
  | case13 k chunk pc within =>
    rintro ⟨⟩
    apply flow.change rfl
    case flowed => simp only [put, sent, due_of here, pc, debt]; omega
    all_goals grind -linarith
  | case16 chunk pc =>
    rintro ⟨⟩
    apply flow.change rfl
    case flowed =>
      have := flow.charged i c here chunk pc
      simp only [put, sent, due_of here, pc, debt, maxPacket] at this ⊢
      omega
    all_goals grind -linarith
  | case18 n pc =>
    rintro ⟨⟩
    have out : (afterGive c n).pc ∈ [Pc.ended false, .ended true, .waiting, .top] := by
      cases n <;> grind -linarith [afterGive]
    apply flow.change rfl
    case flowed =>
      have nothing : debt (afterGive c n).pc = 0 := by grind -linarith [debt]
      simp only [put, sent, due_of here, pc, nothing]
      simp only [debt]
      omega
    all_goals grind -linarith
  | case20 pc | case22 late pc =>
    rintro ⟨⟩
    apply flow.change rfl
    case flowed => simp only [put, sent, due_of here, pc, debt]; grind -linarith
    all_goals grind -linarith
  | case25 =>
    rintro ⟨⟩
    apply flow.change rfl
    case flowed => simp only [put, sent, due_of here, debt]; grind -linarith [debt, Pc.inside]
    all_goals grind -linarith
  | _ => rintro ⟨⟩

end Acts

theorem flow_step (flow : Flow config s) (stepped : step config s e = some t) : Flow config t := by
  cases e with
  | act i a =>
    obtain ⟨c, here, acted⟩ := Option.bind_eq_some_iff.mp stepped
    exact flow.acts here acted
  | call i start total ext echo =>
    obtain ⟨guard, ⟨⟩⟩ := Option.ite_none_right_eq_some.mp stepped
    have owes : due s i = 0 := by rw [due, guard.1]; rfl
    have budget := flow.budget
    have sizes := flow.sizes
    have torn := fun some_torn => (flow.torn some_torn).1
    apply flow.change rfl
    case flowed => simp only [put, sent, owes, debt]; omega
    case small => exact flow.small
    all_goals grind -linarith
  | adjust v =>
    obtain ⟨-, ⟨⟩⟩ := Option.ite_none_right_eq_some.mp stepped
    refine ⟨flow.owner, flow.orphaned, Nat.mod_lt _ (by decide), fun alive => ?_,
      Nat.le_trans flow.budget (Nat.le_add_right _ _),
      fun j d found n sending => ?_, flow.charged, flow.torn, flow.sizes⟩
    · have balance := flow.balance alive
      change ((s.peerWindow + v) % 2 ^ 32 + sent s) % 2 ^ 32 = (s.granted + v + pending s) % 2 ^ 32
      omega
    · obtain ⟨room, packet, buffer⟩ := flow.room j d found n sending
      exact ⟨Nat.le_trans room (Nat.le_add_right _ _), packet, buffer⟩
  | close =>
    cases stepped
    exact ⟨flow.owner, flow.orphaned, flow.small, flow.balance, flow.budget, flow.room,
      flow.charged,
      fun torn => ⟨rfl, (flow.torn torn).2⟩, flow.sizes⟩

theorem flow_opened : Flow config (opened config) :=
  ⟨nofun, nofun, config.window_lt, fun _ => rfl, Nat.zero_le _, nofun, nofun, nofun, nofun⟩

end Flow

section Order

def onWire (i : Nat) (wire : List Packet) : Bytes := (wire.filter (·.call == i)).flatMap (·.bytes)

def text (c : Call) : Bytes := slice config c.start c.total

def inHand (c : Call) : Bytes :=
  match c.pc with
  | .sending chunk => slice config c.data chunk
  | _ => []

/-- Of every call the bytes on the wire, and then those of the packet in hand, are a beginning of
what it was given, and all of it if it returned well. -/
def Whole (s : State) : Prop :=
  ∀ i c, s.calls i = some c → onWire i s.wire ++ inHand config c <+: text config c ∧
    (c.pc = .ended true → c.echo = false → onWire i s.wire = text config c)

/-- The window has grown since the first look, past what the call has left. -/
def Stretches (s : State) : Event → Prop
  | .act i .look => ∃ c, s.calls i = some c ∧ c.pc = .second ∧ c.len < capped config s.peerWindow
  | _ => False

def Written (out : Bytes) (c : Call) : Prop :=
  match c.pc with
  | .sending chunk => out = slice config c.start (c.total - c.len) ∧ chunk ≤ c.len
  | .charging chunk | .giving (some chunk) =>
      out = slice config c.start (c.total - c.len + chunk) ∧ chunk ≤ c.len
  | .ended ok =>
      ∃ k ≤ c.total, out = slice config c.start k ∧ (ok = true → c.echo = false → k = c.total)
  | _ => out = slice config c.start (c.total - c.len)

structure Place (out : Bytes) (c : Call) : Prop where
  len : c.len ≤ c.total
  total : c.total < 2 ^ 32
  data : c.data = c.start + (c.total - c.len)
  written : Written config out c

structure Placed (s : State) : Prop where
  each : ∀ i c, s.calls i = some c → Place config (onWire i s.wire) c
  fresh : ∀ i, s.calls i = none → onWire i s.wire = []

variable {config} {s t : State} {i : Nat} {c c' : Call} {out : Bytes}

theorem slice_add (start m n : Nat) : slice config start (m + n) = slice config start m ++
    slice config (start + m) n := by
  rw [slice, List.range_add, List.map_append, List.map_map]
  refine congrArg (slice config start m ++ ·) (List.map_congr_left fun k _ => ?_)
  rw [Function.comp, Nat.add_assoc]

theorem slice_prefix (start : Nat) {m n : Nat} (le : m ≤ n) :
    slice config start m <+: slice config start n := by
  obtain ⟨k, rfl⟩ := Nat.exists_eq_add_of_le le
  rw [slice_add]
  exact List.prefix_append _ _

theorem onWire_append (i : Nat) (wire : List Packet) (p : Packet) :
    onWire i (wire ++ [p]) = onWire i wire ++ if p.call = i then p.bytes else [] := by
  rw [onWire, List.filter_append, List.flatMap_append, onWire]
  refine congrArg (_ ++ ·) ?_
  by_cases same : p.call = i
  · rw [List.filter_cons_of_pos (by simpa using same), if_pos same]
    exact List.append_nil _
  · rw [List.filter_cons_of_neg (by simpa using same), if_neg same]
    rfl

theorem Place.begun (place : Place config out c) : ∃ k ≤ c.total, out = slice config c.start k := by
  have len := place.len
  have written := place.written
  unfold Written at written
  split at written
  · exact ⟨_, Nat.sub_le _ _, written.1⟩
  · exact ⟨_, by omega, written.1⟩
  · exact ⟨_, by omega, written.1⟩
  · obtain ⟨k, most, same, -⟩ := written
    exact ⟨k, most, same⟩
  · exact ⟨_, Nat.sub_le _ _, written⟩

theorem Placed.moves (placed : Placed config s)
    (calls : t.calls = Function.update s.calls i (some c')) (wire : t.wire = s.wire)
    (place : Place config (onWire i s.wire) c') : Placed config t := by
  constructor
  · intro j d found
    rw [wire]
    rw [calls, update_apply] at found
    split at found
    · rename_i same
      subst same
      cases found
      exact place
    · exact placed.each j d found
  · intro j none_there
    rw [wire]
    rw [calls, update_apply] at none_there
    split at none_there
    · cases none_there
    · exact placed.fresh j none_there

theorem Place.ended (place : Place config out c) :
    Place config out { c with pc := .ended false } := by
  obtain ⟨k, most, same⟩ := place.begun
  exact ⟨place.len, place.total, place.data, k, most, same, nofun⟩

theorem Place.sized (place : Place config out c)
    (written : out = slice config c.start (c.total - c.len))
    (fits : capped config chunk ≤ c.len) : Place config out
    { c with pc := sized config chunk } := by
  refine ⟨place.len, place.total, place.data, ?_⟩
  unfold Window.sized Written
  by_cases zero : capped config chunk = 0
  · rw [if_pos zero]
    exact ⟨written, Nat.zero_le _⟩
  · rw [if_neg zero]
    exact ⟨written, fits⟩

theorem Placed.sends (placed : Placed config s) (here : s.calls i = some c)
    (pc : c.pc = .sending chunk) :
    Placed config (put { s with wire := s.wire ++ [⟨i, c.ext, slice config c.data chunk⟩] } i
      { c with pc := .charging chunk }) := by
  have place := placed.each i c here
  have written := place.written
  unfold Written at written
  rw [pc] at written
  obtain ⟨same, fits⟩ := written
  have wire (j : Nat) :
    onWire j (put { s with wire := s.wire ++ [⟨i, c.ext, slice config c.data chunk⟩] } i
      { c with pc := .charging chunk }).wire = onWire j s.wire ++ if i = j then
          slice config c.data chunk else [] :=
    onWire_append j s.wire _
  refine ⟨forall_put ?_ fun j d found differs => ?_, fun j none_there => ?_⟩
  · refine ⟨place.len, place.total, place.data, ?_, fits⟩
    rw [wire, if_pos rfl, same, place.data, ← slice_add]
  · rw [wire, if_neg (Ne.symm differs), List.append_nil]
    exact placed.each j d found
  · rw [calls_put] at none_there
    split at none_there
    · cases none_there
    · rename_i differs
      rw [wire, if_neg (Ne.symm differs), List.append_nil]
      exact placed.fresh j none_there

theorem Place.gives (place : Place config out c) {n : Option Nat} (pc : c.pc = .giving n) :
    Place config out (afterGive c n) := by
  have written := place.written
  have len := place.len
  have total := place.total
  unfold Written at written
  rw [pc] at written
  cases n with
  | none => exact ⟨place.len, place.total, place.data, _, Nat.sub_le _ _, written, nofun⟩
  | some n =>
    obtain ⟨same, fits⟩ := written
    unfold afterGive
    dsimp only
    split
    · rename_i echo
      refine ⟨place.len, place.total, place.data, _, ?_, same, fun _ stream => ?_⟩
      · dsimp only
        omega
      · exact absurd (echo.symm.trans stream) Bool.true_eq_false.mp
    · split
      · rename_i zero
        subst zero
        exact ⟨place.len, place.total, place.data, same⟩
      · have left : (c.len + 2 ^ 32 - n) % 2 ^ 32 = c.len - n := by omega
        have more : c.total - (c.len - n) = c.total - c.len + n := by omega
        refine ⟨?_, place.total, ?_, ?_⟩
        · dsimp only
          omega
        · dsimp only
          rw [left, place.data, more, Nat.add_assoc]
        · unfold Written
          dsimp only
          rw [left, more]
          exact same

theorem Placed.acts (placed : Placed config s) (here : s.calls i = some c)
    (kept : ¬Stretches config s (.act i a)) (acted : act config s i c a =
      some t) : Placed config t := by
  have place := placed.each i c here
  have written := place.written
  unfold Written at written
  revert kept acted
  fun_cases act config s i c a with
  | case1 guard =>
    rintro - ⟨⟩
    rw [guard.1] at written
    exact placed.moves rfl rfl ⟨place.len, place.total, place.data, written⟩
  | case3 | case20 | case25 =>
    rintro - ⟨⟩
    exact placed.moves rfl rfl place.ended
  | case5 guard =>
    rintro - ⟨⟩
    obtain ⟨pc, -, zero⟩ := guard
    rw [pc] at written
    refine placed.moves rfl rfl ⟨place.len, place.total, place.data, _, Nat.sub_le _ _,
      written, fun _ _ => ?_⟩
    rw [zero, Nat.sub_zero]
  | case7 pc =>
    rintro - ⟨⟩
    rw [pc] at written
    refine placed.moves rfl rfl ⟨place.len, place.total, place.data, ?_⟩
    unfold Written
    cases s.closed <;> exact written
  | case8 pc =>
    rintro - ⟨⟩
    rw [pc] at written
    refine placed.moves rfl rfl ?_
    split
    · exact place.sized written (capped_le _ _).1
    · exact ⟨place.len, place.total, place.data, written⟩
  | case9 pc =>
    rintro kept ⟨⟩
    rw [pc] at written
    refine placed.moves rfl rfl (place.sized written ?_)
    by_contra larger
    exact kept ⟨c, here, pc, Nat.not_le.mp larger⟩
  | case11 chunk pc =>
    rintro - ⟨⟩
    exact placed.sends here pc
  | case13 k chunk pc =>
    rintro - ⟨⟩
    rw [pc] at written
    exact placed.moves rfl rfl ⟨place.len, place.total, place.data, written.1⟩
  | case16 chunk pc =>
    rintro - ⟨⟩
    rw [pc] at written
    exact placed.moves rfl rfl ⟨place.len, place.total, place.data, written⟩
  | case18 n pc =>
    rintro - ⟨⟩
    exact placed.moves rfl rfl (place.gives pc)
  | case22 late pc =>
    rintro - ⟨⟩
    rw [pc] at written
    refine placed.moves rfl rfl ?_
    split
    · exact place.ended
    · exact ⟨place.len, place.total, place.data, written⟩
  | _ => rintro - ⟨⟩

theorem placed_step (placed : Placed config s) (kept : ¬Stretches config s e)
    (stepped : step config s e = some t) : Placed config t := by
  cases e with
  | act i a =>
    obtain ⟨c, here, acted⟩ := Option.bind_eq_some_iff.mp stepped
    exact placed.acts here kept acted
  | call i start total ext echo =>
    obtain ⟨guard, ⟨⟩⟩ := Option.ite_none_right_eq_some.mp stepped
    refine placed.moves rfl rfl ⟨Nat.le_refl _, guard.2, ?_, ?_⟩
    · rw [Nat.sub_self, Nat.add_zero]
    · unfold Written
      dsimp only
      rw [Nat.sub_self, placed.fresh i guard.1]
      rfl
  | adjust v =>
    obtain ⟨-, ⟨⟩⟩ := Option.ite_none_right_eq_some.mp stepped
    exact ⟨placed.each, placed.fresh⟩
  | close =>
    cases stepped
    exact ⟨placed.each, placed.fresh⟩

theorem Placed.whole (placed : Placed config s) : Whole config s := by
  intro i c here
  have place := placed.each i c here
  have written := place.written
  have len := place.len
  obtain ⟨k, most, begun⟩ := place.begun
  unfold Written at written
  constructor
  · unfold inHand
    split
    · rename_i chunk pc
      rw [pc] at written
      rw [written.1, place.data, ← slice_add]
      exact slice_prefix _ (by omega)
    · rw [List.append_nil, begun]
      exact slice_prefix _ most
  · intro pc stream
    rw [pc] at written
    obtain ⟨k, -, same, all⟩ := written
    rw [same, all rfl stream]
    rfl

/-- After the second look the packet in hand is longer than what is left. -/
theorem stretches_overruns (placed : Placed config s) (stretches : Stretches config s e)
    (stepped : step config s e = some t) : ¬Whole config t := by
  unfold Stretches at stretches
  split at stretches
  · rename_i i
    obtain ⟨c, here, pc, larger⟩ := stretches
    have place := placed.each i c here
    have written := place.written
    unfold Written at written
    rw [pc] at written
    dsimp only [step] at stepped
    rw [here, Option.bind_some] at stepped
    dsimp only [act] at stepped
    rw [pc] at stepped
    cases stepped
    intro whole
    obtain ⟨overrun, -⟩ := whole i _ (by rw [calls_put, if_pos rfl])
    have length := overrun.length_le
    rw [List.length_append, text, length_slice] at length
    change (onWire i s.wire).length + _ ≤ _ at length
    rw [written, length_slice, inHand, sized, if_neg (by omega)] at length
    dsimp only at length
    rw [length_slice] at length
    have len := place.len
    omega
  · exact stretches.elim

end Order

def adjusted : Event → Nat
  | .adjust v => v
  | _ => 0

variable {config} {s t : State}

theorem granted_act {i : Nat} {c : Call} (acted : act config s i c a = some t) :
    t.granted = s.granted := by
  cases a <;> dsimp only [act] at acted <;> (repeat' split at acted) <;> cases acted <;> rfl

theorem granted_step (stepped : step config s e = some t) : t.granted = s.granted + adjusted e := by
  cases e with
  | act i a =>
    obtain ⟨c, -, acted⟩ := Option.bind_eq_some_iff.mp stepped
    exact granted_act acted
  | call i start total ext echo | adjust v =>
    dsimp only [step] at stepped
    split at stepped <;> cases stepped
    rfl
  | close =>
    cases stepped
    rfl

theorem granted_run {es : List Event} (done : run (step config) s es = some t) :
    t.granted = s.granted + (es.map adjusted).sum := by
  induction es generalizing s with
  | nil =>
    cases done
    rfl
  | cons e es ih =>
    obtain ⟨u, first, rest⟩ := run_cons done
    rw [ih rest, granted_step first, List.map_cons, List.sum_cons, Nat.add_assoc]

theorem length_message (config : Config) (p : Packet) :
    (message config p).length ≤ 13 + p.bytes.length := by
  rw [message, List.length_cons, List.length_append, List.length_append, List.length_append,
    length_word, length_word]
  split
  · rw [List.length_nil]
    omega
  · rw [length_word]
    omega

/-- For every interleaving of writers and adjustments: the data sent is never more than what was
granted and every packet is within the peer's limit and the output buffer; and what is on the wire
of each call is a beginning of what the call was given, all of it where it returned well, exactly
where no second look finds the window grown past what is left. -/
theorem flow_control_iff {es : List Event} (done : run (step config) (opened config) es = some s) :
    (sent s + s.torn ≤ config.peerWindow + (es.map adjusted).sum ∧
      ∀ p ∈ s.wire, p.bytes.length ≤ config.peerMaxPacket ∧ (message config p).length ≤ maxPacket) ∧
    ((∀ before t, before <+: es → run (step config) (opened config) before = some t →
      Whole config t) ↔
      Along (step config) (fun s e => ¬Stretches config s e) (opened config) es) := by
  have flow : Flow config s :=
    run_invariant (fun _ _ _ flow stepped => flow_step flow stepped) done flow_opened
  refine ⟨⟨?_, fun p member => ?_⟩, ?_⟩
  · have granted := granted_run done
    rw [show (opened config).granted = config.peerWindow from rfl] at granted
    rw [← granted]
    exact flow.budget
  · obtain ⟨packet, buffer⟩ := flow.sizes p member
    have length := length_message config p
    unfold maxPacket at *
    exact ⟨packet, by omega⟩
  · exact safe_throughout_iff (fun _ _ _ placed kept stepped => placed_step placed kept stepped)
      (fun _ placed => placed.whole)
      (fun _ _ _ placed stretches stepped => stretches_overruns placed stretches stepped)
        ⟨nofun, fun _ _ => rfl⟩ done

def small : Config := ⟨fun p => UInt8.ofNat p, 0, 2, 32768, by decide⟩

def waited : List Event :=
  [.call 0 10 4 0 false, .act 0 .take, .act 0 .look, .act 0 .look, .act 0 .look,
    .act 0 .send, .act 0 .charge, .act 0 .give,
    .act 0 .take, .act 0 .look, .act 0 .look, .act 0 .look, .act 0 .give, .adjust 100,
    .act 0 (.wake false),
    .act 0 .take, .act 0 .look, .act 0 .look, .act 0 .send, .act 0 .charge, .act 0 .give,
    .act 0 .leave]

theorem flow_control_waited : ∃ s, run (step small) (opened small) waited = some s ∧
    s.wire.map (·.bytes) = [[10, 11], [12, 13]] ∧
    sent s + s.torn ≤ small.peerWindow + (waited.map adjusted).sum := by
  obtain ⟨s, done, wire⟩ : ∃ s, run (step small) (opened small) waited = some s ∧
      s.wire.map (·.bytes) = [[10, 11], [12, 13]] :=
    ⟨_, rfl, rfl⟩
  exact ⟨s, done, wire, (flow_control_iff done).1.1⟩

def grown : List Event :=
  [.call 0 10 4 0 false, .act 0 .take, .act 0 .look, .act 0 .look, .adjust 100,
    .act 0 .look, .act 0 .send, .act 0 .charge,
    .act 0 .give]

/-- A call that was given four bytes sends 102, and goes on with a length that has wrapped. -/
theorem call_overruns : ∃ s c, run (step small) (opened small) grown = some s ∧
    s.calls 0 = some c ∧ c.total = 4 ∧
    s.wire.map (·.bytes) = [slice small 10 102] ∧ c.len = 4294967198 ∧ c.pc = .top ∧
    ¬Whole small s := by
  refine ⟨_, _, rfl, rfl, rfl, rfl, rfl, rfl, fun whole => ?_⟩
  have length := (whole 0 _ rfl).1.length_le
  exact absurd length (by decide)

end Espix.Ssh.Window
