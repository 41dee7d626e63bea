import Espix.Lib.Ring
import Espix.Lib.Run
import Espix.Ssh.Packet

/-! The receive ring.

The reader task puts what comes off the socket into a ring, and hands every packet that is whole in
it to the dispatcher. -/

namespace Espix.Ssh.Reader

open Lib.Ring Lib.Run
open Lib.Xdr (Bytes readWord_append)

def rxRing : Nat := 4096

structure Rx where
  buf : Nat → UInt8
  head : Nat
  tail : Nat

def rxUsed (rx : Rx) : Nat := (rx.head + 2 ^ 32 - rx.tail) % 2 ^ 32

def rxPush (rx : Rx) (src : Bytes) : Rx :=
  { rx with buf := store rxRing rx.buf rx.head src, head := (rx.head + src.length) % 2 ^ 32 }

def rxPop (rx : Rx) (n : Nat) : Rx × Bytes :=
  let n := if n > rxUsed rx then rxUsed rx else n
  ({ rx with tail := (rx.tail + n) % 2 ^ 32 }, view rxRing rx.buf rx.tail n)

/-- `read_exact` by the task that fills the ring: what is not there does not come. -/
def readExact (rx : Rx) (len : Nat) : Rx × Option Bytes :=
  let (rx, got) := rxPop rx len
  (rx, if got.length < len then none else some got)

variable {suite : Suite}

def packetTry (c : Conn suite) (rx : Rx) : Option (Conn suite × Rx × Except Err Bytes) :=
  if rxUsed rx < 4 then none
  else
    let len := wordAt (view rxRing rx.buf rx.tail 4)
    let total := 4 + len + if c.rx.active then macLen else 0
    if len ≤ maxPacket - 4 ∧ rxUsed rx < total then none else some (packetRead readExact c rx)

inductive Verdict
  | ok
  | hold
  | stop
  deriving DecidableEq

variable (suite) in
structure State where
  conn : Conn suite
  rx : Rx
  rxHeld : Bool
  rxDispatch : Bool
  rxErr : Bool
  incoming : Bytes

inductive Event
  | recv (n : Nat)
  /-- A turn of `dispatch_ready`, by the reader or at the handoff. -/
  | turn (verdict : Verdict)
  | resume (verdict : Verdict)

def tmpSize : Nat := 512

def dispatched (s : State suite) (verdict : Verdict) : Conn suite × Rx × Except Err Bytes →
    State suite
  | (conn, rx, result) =>
    let s := { s with conn, rx, rxErr := s.rxErr || !result.isOk }
    if verdict = .hold then { s with rxHeld := true }
    else if verdict ≠ .ok ∨ result.isOk = false then { s with rxDispatch := false }
    else s

def step (s : State suite) : Event → Option (State suite)
  | .recv n =>
    if rxUsed s.rx < rxRing ∧ ¬(s.rxHeld ∧ s.rxDispatch) ∧ 0 < n ∧
      n ≤ min tmpSize (rxRing - rxUsed s.rx) ∧ n ≤ s.incoming.length then
      some { s with rx := rxPush s.rx (s.incoming.take n), incoming := s.incoming.drop n }
    else none
  | .turn verdict =>
    if ¬s.rxHeld ∧ s.rxDispatch then
      match packetTry s.conn s.rx with
      | none => some s
      | some taken => some (dispatched s verdict taken)
    else none
  | .resume verdict =>
      if s.rxHeld ∧ s.rxDispatch then some { s with rxHeld := verdict == .hold } else none

def begins (c : Conn suite) (buf : Nat → UInt8) (start : Nat) (incoming : Bytes) : State suite :=
  ⟨c, ⟨buf, start % 2 ^ 32, start % 2 ^ 32⟩, false, true, false, incoming⟩

/-- The reader cannot add a byte, and the packet at the head is not finished. -/
def Stuck (s : State suite) : Prop := rxRing ≤ rxUsed s.rx ∧ packetTry s.conn s.rx = none

def Acceptable : Conn suite → List Bytes → Prop
  | _, [] => True
  | c, p :: later =>
      ∃ c' payload, packetRead takeExact c p = (c', [], .ok payload) ∧ Acceptable c' later

section Ring

def Has (rx : Rx) (xs : Bytes) : Prop := Queue rxRing (2 ^ 32) rx.buf rx.head rx.tail xs

variable {rx : Rx} {xs : Bytes}

theorem rounds : rxRing ∣ 2 ^ 32 := ⟨2 ^ 20, by decide⟩

theorem Has.used (has : Has rx xs) : rxUsed rx = xs.length := Queue.used has (by decide)

theorem Has.push (has : Has rx xs) {src : Bytes} (room : xs.length + src.length ≤ rxRing) :
    Has (rxPush rx src) (xs ++ src) :=
  Queue.push has rounds room

theorem Has.wordAt (has : Has rx xs) (four : 4 ≤ xs.length) :
    wordAt (view rxRing rx.buf rx.tail 4) = wordAt (xs.take 4) := by
  rw [Queue.view has rounds four]

theorem Has.readExact (has : Has rx xs) (n : Nat) :
    Has (readExact rx n).1 (takeExact xs n).1 ∧ (readExact rx n).2 = (takeExact xs n).2 := by
  unfold Reader.readExact rxPop takeExact
  rw [has.used]
  dsimp only
  rw [length_view]
  by_cases enough : n ≤ xs.length
  · rw [if_neg (Nat.not_lt.mpr enough), if_neg (Nat.lt_irrefl n), if_pos enough]
    exact ⟨Queue.pop has enough, congrArg some (Queue.view has rounds enough)⟩
  · rw [if_pos (Nat.not_le.mp enough), if_pos (Nat.not_le.mp enough), if_neg enough]
    refine ⟨?_, rfl⟩
    have all := Queue.pop has (Nat.le_refl _)
    rwa [List.drop_length] at all

end Ring

section Agree

variable {S : Type} {readExact : S → Nat → S × Option Bytes} {R : S → Bytes → Prop}

def Agrees (readExact : S → Nat → S × Option Bytes) (R : S → Bytes → Prop) : Prop :=
  ∀ s xs n, R s xs → R (readExact s n).1 (takeExact xs n).1 ∧ (readExact s n).2 = (takeExact xs n).2

variable {c : Conn suite} {s : S} {xs : Bytes}

section

variable (agrees : Agrees readExact R) (related : R s xs)

include agrees related

theorem Agrees.read (n : Nat) :
    ∃ t ys r, readExact s n = (t, r) ∧ takeExact xs n = (ys, r) ∧ R t ys := by
  obtain ⟨still, same⟩ := agrees s xs n related
  exact ⟨_, _, _, rfl, Prod.ext rfl same.symm, still⟩

theorem openBody_agrees (header body : Bytes) :
    ∃ c' t ys r, openBody readExact c s header body = (c', t, r) ∧
    openBody takeExact c xs header body = (c', ys, r) ∧ R t ys := by
  unfold openBody
  by_cases active : c.rx.active = true
  · obtain ⟨t, ys, r, first, second, still⟩ := agrees.read related macLen
    rw [if_pos active, if_pos active, first, second]
    cases r with
    | none => exact ⟨_, _, _, _, rfl, rfl, still⟩
    | some mac =>
      dsimp only
      split
      · exact ⟨_, _, _, _, rfl, rfl, still⟩
      · cases suite.update c.rx.cipher body with
        | none => exact ⟨_, _, _, _, rfl, rfl, still⟩
        | some made => exact ⟨_, _, _, _, rfl, rfl, still⟩
  · rw [if_neg active, if_neg active]
    exact ⟨_, _, _, _, rfl, rfl, related⟩

theorem packetRead_agrees :
    ∃ c' t ys r, packetRead readExact c s = (c', t, r) ∧ packetRead takeExact c xs = (c', ys, r) ∧
    R t ys := by
  obtain ⟨t, ys, r, first, second, still⟩ := agrees.read related 4
  unfold packetRead
  rw [first, second]
  cases r with
  | none => exact ⟨_, _, _, _, rfl, rfl, still⟩
  | some header =>
    dsimp only
    split
    · exact ⟨_, _, _, _, rfl, rfl, still⟩
    · obtain ⟨t', ys', r', third, fourth, again⟩ := agrees.read still (wordAt header)
      rw [third, fourth]
      cases r' with
      | none => exact ⟨_, _, _, _, rfl, rfl, again⟩
      | some body =>
        obtain ⟨c', t'', ys'', opened, fifth, sixth, last⟩ :=
          openBody_agrees (c := c) agrees again header body
        dsimp only
        rw [fifth, sixth]
        cases opened with
        | error e | ok plain => exact ⟨_, _, _, _, rfl, rfl, last⟩

end

end Agree

section Accepted

variable {c c' : Conn suite} {p payload rest : Bytes}

theorem openBody_append {header body plain : Bytes} {s s' : Bytes}
    (opened : openBody takeExact c s header body = (c', s', .ok plain)) (more : Bytes) :
    openBody takeExact c (s ++ more) header body = (c', s' ++ more, .ok plain) ∧
      s.length = s'.length + if c.rx.active then macLen else 0 := by
  by_cases active : c.rx.active = true
  · obtain ⟨mac, cipher, third, equal, decrypted⟩ := openBody_ok active opened
    obtain ⟨rfl, length⟩ := takeExact_some third
    unfold openBody at opened ⊢
    rw [if_pos active, takeExact_append length] at opened
    rw [if_pos active, if_pos active, List.append_assoc, takeExact_append length,
      List.length_append, length]
    dsimp only at opened ⊢
    rw [equal, if_neg Bool.true_eq_false.mp, decrypted] at opened ⊢
    dsimp only at opened ⊢
    rw [Prod.mk.injEq, Prod.mk.injEq] at opened
    obtain ⟨rfl, -, result⟩ := opened
    rw [result]
    exact ⟨rfl, Nat.add_comm _ _⟩
  · unfold openBody at opened ⊢
    rw [if_neg active] at opened
    rw [if_neg active, if_neg active]
    cases opened
    exact ⟨rfl, rfl⟩

theorem accepted (read : packetRead takeExact c p = (c', rest, .ok payload)) :
    4 ≤ p.length ∧ wordAt (p.take 4) ≤ maxPacket - 4 ∧
      p.length = 4 + wordAt (p.take 4) + (if c.rx.active then macLen else 0) + rest.length ∧
      ∀ more, packetRead takeExact c (p ++ more) = (c', rest ++ more, .ok payload) := by
  obtain ⟨s₁, s₂, header, body, c₁, plain, first, fits, second, opened, up⟩ := packetRead_ok read
  obtain ⟨rfl, four⟩ := takeExact_some first
  obtain ⟨rfl, length⟩ := takeExact_some second
  obtain ⟨-, mac⟩ := openBody_append opened []
  have head : (header ++ (body ++ s₂)).take 4 = header := by rw [← four, List.take_left]
  rw [head]
  refine ⟨?_, fits.2.1, ?_, fun more => ?_⟩
  · rw [List.length_append]
    omega
  · rw [List.length_append, List.length_append, four, length, mac]
    omega
  · rw [List.append_assoc, List.append_assoc, packetRead_frame four fits length,
      (openBody_append opened more).1]
    dsimp only [handUpOpened]
    rw [up]

end Accepted

section Try

variable {c c' : Conn suite} {rx : Rx} {p payload xs : Bytes}

theorem packetTry_whole
    (has : Has rx (p ++ xs)) (read : packetRead takeExact c p = (c', [], .ok payload)) :
    ∃ rx', packetTry c rx = some (c', rx', .ok payload) ∧ Has rx' xs := by
  obtain ⟨four, -, length, more⟩ := accepted read
  have agrees : Agrees Reader.readExact Has := fun _ _ n related => related.readExact n
  obtain ⟨c'', rx', ys, r, taken, same, still⟩ := packetRead_agrees (c := c) agrees has
  rw [more, Prod.mk.injEq, Prod.mk.injEq] at same
  obtain ⟨rfl, rfl, rfl⟩ := same
  refine ⟨rx', ?_, still⟩
  have head : (p ++ xs).take 4 = p.take 4 := List.take_append_of_le_length four
  have there : p.length ≤ (p ++ xs).length := by rw [List.length_append]; omega
  unfold packetTry
  rw [has.used, if_neg (by omega), has.wordAt (by omega), head]
  dsimp only
  rw [if_neg (by rw [List.length_nil] at length; omega), taken]

theorem packetTry_part {more : Bytes} (has : Has rx xs) (part : xs ++ more = p)
    (left : xs.length < p.length)
    (read : packetRead takeExact c p = (c', [], .ok payload)) : packetTry c rx = none := by
  obtain ⟨-, small, length, -⟩ := accepted read
  unfold packetTry
  rw [has.used]
  split
  · rfl
  · rename_i four
    have head : p.take 4 = xs.take 4 := by rw [← part, List.take_append_of_le_length (by omega)]
    rw [head] at small length
    rw [has.wordAt (by omega)]
    dsimp only
    rw [if_pos ⟨small, by rw [List.length_nil] at length; omega⟩]

end Try

section Run

variable {s t : State suite} {all : List Bytes}

/-- What is in the ring and what is to come are packets of the stream. -/
def Streams (all : List Bytes) (s : State suite) : Prop :=
  ∃ ps xs, ps <:+ all ∧ Acceptable s.conn ps ∧ Has s.rx xs ∧ xs ++ s.incoming = ps.flatten

theorem head_split {xs incoming p : Bytes} {later : List Bytes}
    (together : xs ++ incoming = (p :: later).flatten) :
    (∃ ys, xs = p ++ ys ∧ ys ++ incoming = later.flatten) ∨ ∃ more, xs ++ more = p ∧
    xs.length < p.length := by
  rw [List.flatten_cons] at together
  rcases List.append_eq_append_iff.mp together with ⟨more, whole, -⟩ | ⟨ys, whole, rest⟩
  · by_cases nothing : more = []
    · subst nothing
      rw [List.append_nil] at whole
      subst whole
      exact .inl ⟨[], (List.append_nil _).symm, List.append_cancel_left together⟩
    · refine .inr ⟨more, whole.symm, ?_⟩
      rw [whole, List.length_append]
      exact Nat.lt_add_of_pos_right (List.length_pos_of_ne_nil nothing)
  · exact .inl ⟨ys, whole, rest.symm⟩

theorem streams_recv {n : Nat} (streams : Streams all s) (stepped : step s (.recv n) = some t) :
    Streams all t := by
  obtain ⟨ps, xs, suffix, acceptable, has, together⟩ := streams
  obtain ⟨guard, stepped⟩ := Option.ite_none_right_eq_some.mp stepped
  obtain ⟨-, -, positive, room, come⟩ := guard
  cases stepped
  rw [has.used] at room
  refine ⟨ps, xs ++ s.incoming.take n, suffix, acceptable, has.push ?_, ?_⟩
  · rw [List.length_take]
    omega
  · rw [List.append_assoc, List.take_append_drop, together]

theorem streams_turn {verdict : Verdict} (streams : Streams all s)
    (stepped : step s (.turn verdict) = some t) :
    Streams all t := by
  obtain ⟨ps, xs, suffix, acceptable, has, together⟩ := streams
  obtain ⟨-, stepped⟩ := Option.ite_none_right_eq_some.mp stepped
  cases ps with
  | nil =>
    obtain ⟨rfl, -⟩ := List.append_eq_nil_iff.mp together
    have nothing : packetTry s.conn s.rx = none := by
      unfold packetTry
      rw [has.used, if_pos (by decide)]
    rw [nothing] at stepped
    cases stepped
    exact ⟨[], [], suffix, acceptable, has, together⟩
  | cons p later =>
    obtain ⟨c', payload, read, others⟩ := acceptable
    rcases head_split together with ⟨ys, rfl, rest⟩ | ⟨more, part, left⟩
    · obtain ⟨rx', taken, still⟩ := packetTry_whole has read
      rw [taken] at stepped
      cases stepped
      refine ⟨later, ys, (List.suffix_cons p later).trans suffix, ?_⟩
      unfold dispatched
      dsimp only
      split
      · exact ⟨others, still, rest⟩
      · split
        · exact ⟨others, still, rest⟩
        · exact ⟨others, still, rest⟩
    · rw [packetTry_part has part left read] at stepped
      cases stepped
      exact ⟨p :: later, xs, suffix, ⟨c', payload, read, others⟩, has, together⟩

theorem streams_step {e : Event} (streams : Streams all s) (stepped : step s e = some t) :
    Streams all t := by
  cases e with
  | recv n => exact streams_recv streams stepped
  | turn verdict => exact streams_turn streams stepped
  | resume verdict =>
    obtain ⟨-, ⟨⟩⟩ := Option.ite_none_right_eq_some.mp stepped
    exact streams

theorem Streams.not_stuck (streams : Streams all s) (short : ∀ p ∈ all, p.length ≤ rxRing) :
    ¬Stuck s := by
  rintro ⟨full, unfinished⟩
  obtain ⟨ps, xs, suffix, acceptable, has, together⟩ := streams
  rw [has.used] at full
  cases ps with
  | nil =>
    obtain ⟨rfl, -⟩ := List.append_eq_nil_iff.mp together
    exact absurd full (by decide)
  | cons p later =>
    obtain ⟨c', payload, read, -⟩ := acceptable
    have fits := short p (suffix.subset (List.mem_cons_self))
    rcases head_split together with ⟨ys, rfl, -⟩ | ⟨more, -, left⟩
    · obtain ⟨rx', taken, -⟩ := packetTry_whole has read
      rw [taken] at unfinished
      cases unfinished
    · omega

end Run

section Fill

variable {s : State suite}

def Open (s : State suite) : Prop := s.rxHeld = false ∧ s.rxDispatch = true

theorem fill {xs ys more : Bytes} (ready : Open s) (has : Has s.rx xs)
    (incoming : s.incoming = ys ++ more)
    (room : xs.length + ys.length ≤ rxRing) :
    ∃ es t, run step s es = some t ∧ Open t ∧ t.conn = s.conn ∧ Has t.rx (xs ++ ys) ∧
    t.incoming = more := by
  induction ys generalizing s xs with
  | nil => exact ⟨[], s, rfl, ready, rfl, by rwa [List.append_nil], incoming⟩
  | cons y ys ih =>
    rw [List.length_cons] at room
    have stepped :
        step s (.recv 1) = some { s with rx := rxPush s.rx [y], incoming := ys ++ more } := by
      dsimp only [step]
      rw [if_pos, incoming]
      · rfl
      · rw [has.used, incoming, ready.1]
        refine ⟨by omega, fun held => Bool.false_ne_true held.1, Nat.one_pos, ?_, ?_⟩
        · exact le_min (by decide) (by omega)
        · rw [List.cons_append, List.length_cons]
          omega
    have pushed : Has (rxPush s.rx [y]) (xs ++ [y]) :=
      has.push (by rw [List.length_singleton]; omega)
    obtain ⟨es, t, done, open_still, conn, now, rest⟩ :=
      ih (s := { s with rx := rxPush s.rx [y], incoming := ys ++ more })
      ready pushed rfl (by rw [List.length_append, List.length_singleton]; omega)
    refine ⟨.recv 1 :: es, t, ?_, open_still, conn, by rwa [List.append_assoc] at now, rest⟩
    rw [run, stepped]
    exact done

theorem pass {c' : Conn suite} {p payload more : Bytes} (ready : Open s) (has : Has s.rx [])
    (incoming : s.incoming = p ++ more)
    (fits : p.length ≤ rxRing) (read : packetRead takeExact s.conn p = (c', [], .ok payload)) :
    ∃ es t, run step s es = some t ∧ Open t ∧ t.conn = c' ∧ Has t.rx [] ∧ t.incoming = more := by
  obtain ⟨es, t, done, ready', conn, now, rest⟩ :=
    fill ready has incoming (by rwa [List.length_nil, Nat.zero_add])
  rw [List.nil_append, ← List.append_nil p] at now
  rw [← conn] at read
  obtain ⟨rx', taken, still⟩ := packetTry_whole now read
  refine ⟨es ++ [.turn .ok], dispatched t .ok (c', rx', .ok payload), ?_, ?_⟩
  · rw [run_append, done]
    change (step t (.turn .ok)).bind _ = _
    dsimp only [step]
    rw [if_pos ⟨by rw [ready'.1]; exact Bool.false_ne_true, ready'.2⟩, taken]
    rfl
  · exact ⟨ready', rfl, still, rest⟩

theorem stuck_of_long {ps : List Bytes} (ready : Open s) (has : Has s.rx [])
    (incoming : s.incoming = ps.flatten)
    (acceptable : Acceptable s.conn ps) (long : ∃ p ∈ ps, rxRing < p.length) : ∃ es t,
    run step s es = some t ∧ Stuck t := by
  induction ps generalizing s with
  | nil =>
    obtain ⟨p, member, -⟩ := long
    cases member
  | cons p later ih =>
    obtain ⟨c', payload, read, others⟩ := acceptable
    rw [List.flatten_cons] at incoming
    rcases Nat.lt_or_ge rxRing p.length with here | fits
    · have split : s.incoming = p.take rxRing ++ (p.drop rxRing ++ later.flatten) := by
        rw [← List.append_assoc, List.take_append_drop, incoming]
      have length : (p.take rxRing).length = rxRing := List.length_take_of_le (Nat.le_of_lt here)
      obtain ⟨es, t, done, -, conn, now, -⟩ :=
        fill ready has split (by rw [length, List.length_nil, Nat.zero_add])
      rw [List.nil_append] at now
      refine ⟨es, t, done, by rw [now.used, length], ?_⟩
      rw [conn]
      exact packetTry_part now (List.take_append_drop rxRing p) (by rw [length]; exact here) read
    · obtain ⟨es, t, done, ready', rfl, empty, rest⟩ := pass ready has incoming fits read
      have elsewhere : ∃ q ∈ later, rxRing < q.length := by
        obtain ⟨q, member, larger⟩ := long
        rcases List.mem_cons.mp member with rfl | inside
        · omega
        · exact ⟨q, inside, larger⟩
      obtain ⟨fs, u, last, stuck⟩ := ih ready' empty rest others elsewhere
      refine ⟨es ++ fs, u, ?_, stuck⟩
      rw [run_append, done]
      exact last

end Fill

/-- For every stream of packets that would be accepted: no state in which the ring is full and its
first packet not finished can be reached, exactly where every packet with its MAC fits the ring. -/
theorem never_stuck_iff {c : Conn suite} {ps : List Bytes} (acceptable : Acceptable c ps)
    (buf : Nat → UInt8) (start : Nat) :
    (∀ es s, run step (begins c buf start ps.flatten) es = some s → ¬Stuck s) ↔
    ∀ p ∈ ps, p.length ≤ rxRing := by
  have empty : Has (begins c buf start ps.flatten).rx [] := queue_empty rxRing (2 ^ 32) buf start
  constructor
  · intro never p member
    by_contra long
    obtain ⟨es, t, done, stuck⟩ :=
      stuck_of_long (s := begins c buf start ps.flatten) ⟨rfl, rfl⟩ empty rfl acceptable
      ⟨p, member, Nat.not_le.mp long⟩
    exact never es t done stuck
  · intro short es s done
    have streams : Streams ps s :=
      run_invariant (fun _ _ _ streams stepped => streams_step streams stepped) done
      ⟨ps, [], List.suffix_refl ps, acceptable, empty, rfl⟩
    exact streams.not_stuck short

theorem acceptable_written (payload : Bytes) (some_bytes : payload ≠ [])
    (small : packetLenFor keyed.tx payload.length ≤ maxPacket - 4) :
    ∃ c wire, packetWrite keyed noNoise none ⟨payload, false⟩ = (c, wire, .ok ()) ∧
    Acceptable keyed [wire] ∧
      wire.length = 4 + packetLenFor keyed.tx payload.length + macLen := by
  have mirrored : Mirrored keyed keyed := ⟨rfl, rfl, rfl, rfl, rfl⟩
  have draws : Draws keyed noNoise payload := fun _ => rfl
  obtain ⟨c, wire, written, framed, c', back, -⟩ := read_back mirrored some_bytes small draws
  have read := back []
  rw [List.append_nil] at read
  exact ⟨c, wire, written, ⟨c', payload, read, trivial⟩, by rw [framed.length, framed.number]; rfl⟩

theorem never_stuck_with_4000 : ∃ c wire, packetWrite keyed noNoise none ⟨zeros 4000, false⟩ =
    (c, wire, .ok ()) ∧
    ∀ es s, run step (begins keyed (fun _ => 0) 0 [wire].flatten) es = some s → ¬Stuck s := by
  have length : (zeros 4000).length = 4000 := List.length_replicate
  have number : packetLenFor keyed.tx 4000 = 4016 := by decide
  obtain ⟨c, wire, written, acceptable, size⟩ :=
    acceptable_written (zeros 4000) (List.ne_nil_of_length_pos (by omega))
    (by rw [length, number]; decide)
  rw [length, number] at size
  refine ⟨c, wire, written, (never_stuck_iff acceptable _ _).mpr fun p member => ?_⟩
  rw [List.mem_singleton.mp member, size]
  decide

/-- A packet of 4080 bytes that would be accepted has 4116 with length and MAC: the ring is full of
it and it is never finished. -/
theorem ring_stuck : ∃ c wire, packetWrite keyed noNoise none ⟨zeros 4075, false⟩ =
    (c, wire, .ok ()) ∧
    Acceptable keyed [wire] ∧
    ∃ es s, run step (begins keyed (fun _ => 0) 0 [wire].flatten) es = some s ∧ Stuck s := by
  have length : (zeros 4075).length = 4075 := List.length_replicate
  have number : packetLenFor keyed.tx 4075 = 4080 := by decide
  obtain ⟨c, wire, written, acceptable, size⟩ :=
    acceptable_written (zeros 4075) (List.ne_nil_of_length_pos (by omega))
    (by rw [length, number]; decide)
  rw [length, number] at size
  refine ⟨c, wire, written, acceptable, stuck_of_long ⟨rfl, rfl⟩
    (queue_empty _ _ _ 0) rfl acceptable ⟨wire, List.mem_singleton_self _, ?_⟩⟩
  rw [size]
  decide

end Espix.Ssh.Reader
