import Espix.Ssh.Sftp

/-! An SFTP session does not depend on how its stream is cut.

What the server does with a stream in chunks is compared with what it does packet by packet. Only
the text of a refusal may differ: a write whose handle is longer than any handle given out is
refused as malformed or for its handle, by how much of it has come. -/

namespace Espix.Ssh.Sftp

open Lib.Xdr (Bytes word length_word)

variable {host : Host}

section Reference

inductive Cut
  | part
  | refuse
  | packet (body rest : Bytes)

def limit (type : UInt8) : Nat := if type.toNat = fxpWrite then writeMax else maxPacket - 4

def cut (stream : Bytes) : Cut :=
  if stream.length < 4 then .part
  else
    let plen := wordAt (stream.take 4)
    if plen = 0 then .refuse
    else
      match stream[4]? with
      | none => .part
      | some type =>
        if plen > limit type then .refuse
        else if stream.length < 4 + plen then .part
        else .packet ((stream.drop 4).take plen) (stream.drop (4 + plen))

def request (s : State host) (packet : Bytes) : State host × Bool :=
  if packet.head?.map (·.toNat) = some fxpWrite then
    let begin := writeBegin s.core packet packet.length
    let done := writeFeed begin.1 begin.2.1 (packet.drop begin.2.2)
    writeFinish { s with core := done.1 } done.2
  else dispatch s packet

def unfinished (s : State host) (stream : Bytes) : State host :=
  match frame stream with
  | .write plen =>
    let begin := writeBegin s.core (stream.drop 4) plen
    { s with core := (writeFeed begin.1 begin.2.1 ((stream.drop 4).drop begin.2.2)).1 }
  | _ => s

theorem cut_shorter {stream body rest : Bytes} (found : cut stream = .packet body rest) :
    rest.length < stream.length := by
  unfold cut at found
  dsimp only at found
  (repeat' split at found) <;> cases found
  rw [List.length_drop]
  omega

def packetByPacket (s : State host) (stream : Bytes) : State host × Bool :=
  match _found : cut stream with
  | .part => (unfinished s stream, true)
  | .refuse => (s, false)
  | .packet body rest =>
    match request s body with
    | (s, true) => packetByPacket s rest
    | (s, false) => (s, false)
termination_by stream.length
decreasing_by exact cut_shorter _found

theorem packetByPacket_eq (s : State host) (stream : Bytes) :
    packetByPacket s stream = match cut stream with
    | .part => (unfinished s stream, true)
    | .refuse => (s, false)
    | .packet body rest => match request s body with
      | (s, true) => packetByPacket s rest
      | (s, false) => (s, false) := by
  rw [packetByPacket]
  split <;> rename_i found <;> rw [found]

end Reference

variable {p q : State host × Bool}

section Alike

def Reply.seen : Reply → Reply
  | .status id code _ => .status id code ""
  | reply => reply

def SameWriting (v w : Writing host) : Prop := v.file = w.file ∧ v.id = w.id ∧
    v.left = w.left ∧ v.error.isSome = w.error.isSome

/-- What a client and the file system can tell apart, but for texts. -/
structure Visible (s t : State host) : Prop where
  core : s.core = t.core
  replies : s.replies.map Reply.seen = t.replies.map Reply.seen

structure Alike (s t : State host) : Prop extends Visible s t where
  input : s.input = t.input
  writing : Option.Rel SameWriting s.writing t.writing

structure Agree (r q : State host × Bool) : Prop extends Visible r.1 q.1 where
  ok : r.2 = q.2
  alike : r.2 = true → Alike r.1 q.1

variable {r s t u : State host} {v w : Writing host}

theorem SameWriting.refl (w : Writing host) : SameWriting w w := ⟨rfl, rfl, rfl, rfl⟩

theorem Visible.refl (s : State host) : Visible s s := ⟨rfl, rfl⟩

theorem Visible.trans (one : Visible s t) (two : Visible t u) : Visible s u :=
  ⟨one.core.trans two.core, one.replies.trans two.replies⟩

theorem Alike.refl (s : State host) : Alike s s := by
  refine ⟨.refl s, rfl, ?_⟩
  cases s.writing with
  | none => exact .none
  | some w => exact .some (.refl w)

theorem Alike.trans (one : Alike s t) (two : Alike t u) : Alike s u := by
  refine ⟨one.toVisible.trans two.toVisible, one.input.trans two.input, ?_⟩
  have first := one.writing
  have second := two.writing
  revert first second
  cases s.writing <;> cases t.writing <;> cases u.writing <;> intro first second <;>
    cases first <;> cases second
  · exact .none
  · rename_i ab bc
    exact .some ⟨ab.1.trans bc.1, ab.2.1.trans bc.2.1, ab.2.2.1.trans bc.2.2.1,
      ab.2.2.2.trans bc.2.2.2⟩

theorem Agree.refl (q : State host × Bool) : Agree q q := ⟨.refl _, rfl, fun _ => .refl _⟩

theorem Agree.trans {r : State host × Bool} (one : Agree p q) (two : Agree q r) : Agree p r :=
  ⟨one.toVisible.trans two.toVisible, one.ok.trans two.ok, fun ok =>
    (one.alike ok).trans (two.alike (one.ok ▸ ok))⟩

theorem SameWriting.symm (same : SameWriting v w) : SameWriting w v :=
  ⟨same.1.symm, same.2.1.symm, same.2.2.1.symm, same.2.2.2.symm⟩

theorem Visible.symm (visible : Visible s t) : Visible t s :=
  ⟨visible.core.symm, visible.replies.symm⟩

theorem Alike.symm (alike : Alike s t) : Alike t s := by
  refine ⟨alike.toVisible.symm, alike.input.symm, ?_⟩
  have writing := alike.writing
  revert writing
  cases s.writing <;> cases t.writing <;> intro writing <;> cases writing
  · exact .none
  · rename_i same
    exact .some same.symm

theorem Agree.symm (agree : Agree p q) : Agree q p :=
  ⟨agree.toVisible.symm, agree.ok.symm, fun ok => (agree.alike (agree.ok.trans ok)).symm⟩

theorem Agree.of_alike (alike : Alike s t) (ok : Bool) : Agree (s, ok) (t, ok) :=
  ⟨alike.toVisible, rfl, fun _ => alike⟩

theorem Alike.set_core (alike : Alike s t) (core : Core host) :
    Alike { s with core } { t with core } :=
  ⟨⟨rfl, alike.replies⟩, alike.input, alike.writing⟩

theorem sftpSend_agree (alike : Alike s t) {p q : Reply} (seen : p.seen = q.seen)
    (size : p.size > outMax ↔ q.size > outMax) :
    Agree (sftpSend s p) (sftpSend t q) := by
  unfold sftpSend
  by_cases large : p.size > outMax
  · rw [if_pos large, if_pos (size.mp large)]
    exact .of_alike alike false
  · rw [if_neg large, if_neg fun other => large (size.mpr other), alike.core]
    rcases host.send t.core.sys with ⟨ok, state⟩
    cases ok with
    | false => exact .of_alike (alike.set_core _) false
    | true =>
      have logged : (s.replies ++ [p]).map Reply.seen = (t.replies ++ [q]).map Reply.seen := by
        rw [List.map_append, List.map_append, alike.replies, List.map_singleton,
          List.map_singleton, seen]
      have still :
        Alike { s with core := { t.core with sys := state }, replies := s.replies ++ [p] }
          { t with core := { t.core with sys := state }, replies := t.replies ++ [q] } :=
        ⟨⟨rfl, logged⟩, alike.input, alike.writing⟩
      exact .of_alike still true

theorem dispatch_agree (alike : Alike s t) (packet : Bytes) :
    Agree (dispatch s packet) (dispatch t packet) := by
  unfold dispatch
  rw [alike.core]
  rcases respond packet t.core with ⟨reply, core⟩
  cases reply with
  | none => exact .of_alike (alike.set_core core) false
  | some reply => exact sftpSend_agree (alike.set_core core) rfl Iff.rfl

theorem WriteError.size_text (err : WriteError) (id : Nat) :
    ¬(Reply.status id fxFailure err.text).size > outMax := by
  have short : err.text.utf8ByteSize ≤ 64 := by cases err <;> decide
  change ¬17 + err.text.utf8ByteSize > readMax + 256
  unfold readMax
  omega

theorem writeFinish_agree (visible : Visible s t) (input : s.input = t.input)
    (same : SameWriting v w) :
    Agree (writeFinish s v) (writeFinish t w) := by
  obtain ⟨-, id, -, error⟩ := same
  have alike : Alike { s with writing := none } { t with writing := none } :=
    ⟨⟨visible.core, visible.replies⟩, input, .none⟩
  unfold writeFinish
  dsimp only
  rw [id]
  cases first : v.error with
  | none =>
    cases second : w.error with
    | none => exact sftpSend_agree alike rfl Iff.rfl
    | some err => rw [first, second] at error; cases error
  | some err =>
    cases second : w.error with
    | none => rw [first, second] at error; cases error
    | some other =>
        exact sftpSend_agree alike rfl (iff_of_false (err.size_text _) (other.size_text _))

theorem writeFeed_same (core : Core host) (same : SameWriting v w) (data : Bytes) :
    (writeFeed core v data).1 = (writeFeed core w data).1 ∧
    SameWriting (writeFeed core v data).2 (writeFeed core w data).2 := by
  obtain ⟨file, id, left, error⟩ := same
  unfold writeFeed
  dsimp only
  rw [file, left]
  cases w.file with
  | none => exact ⟨rfl, rfl, id, rfl, error⟩
  | some f =>
    dsimp only
    rcases fwrite f data core.sys with ⟨ok, state⟩
    cases ok with
    | false => exact ⟨rfl, rfl, id, rfl, rfl⟩
    | true => exact ⟨rfl, rfl, id, rfl, error⟩

theorem fed_alike (visible : Visible s t) (input : s.input = t.input) (same : SameWriting v w) :
    Alike (fed s v).1 (fed t w).1 ∧ SameWriting (fed s v).2 (fed t w).2 := by
  have fed := writeFeed_same t.core same (t.input.take (min t.input.length w.left))
  unfold Sftp.fed
  dsimp only
  rw [visible.core, input, same.2.2.1]
  exact ⟨⟨⟨fed.1, visible.replies⟩, rfl, .some fed.2⟩, fed.2⟩

inductive TurnAgree : Turn host → Turn host → Prop
  | done {s t : State host} {ok ok' : Bool}
      (agree : Agree (s, ok) (t, ok')) : TurnAgree (.done s ok) (.done t ok')
  | again {s t : State host} (alike : Alike s t) : TurnAgree (.again s) (.again t)

theorem goOn_agree (agree : Agree p q) : TurnAgree (goOn p) (goOn q) := by
  obtain ⟨s, ok⟩ := p
  obtain ⟨t, ok'⟩ := q
  obtain rfl : ok = ok' := agree.ok
  cases ok with
  | false => exact .done agree
  | true => exact .again (agree.alike rfl)

theorem fed_turn_agree (left : v.left = w.left) (alike : Alike s t) (same : SameWriting v w) :
    TurnAgree (if 0 < v.left then .done s true else goOn (writeFinish s v))
      (if 0 < w.left then .done t true else goOn (writeFinish t w)) := by
  rw [left]
  split
  · exact .done (.of_alike alike true)
  · exact goOn_agree (writeFinish_agree alike.toVisible alike.input same)

theorem turn_agree (alike : Alike s t) : TurnAgree (turn s) (turn t) := by
  have writing := alike.writing
  unfold turn
  revert writing
  cases s.writing <;> cases t.writing <;> intro writing <;> cases writing
  · dsimp only
    rw [alike.input]
    cases frame t.input with
    | wait => exact .done (.of_alike alike true)
    | refuse => exact .done (.of_alike alike false)
    | write plen =>
      refine .again ?_
      unfold begun
      dsimp only
      rw [alike.core, alike.input]
      exact ⟨⟨rfl, alike.replies⟩, rfl, .some (.refl _)⟩
    | packet plen =>
      refine goOn_agree ?_
      unfold answered
      dsimp only
      rw [alike.input]
      have agree := dispatch_agree alike ((t.input.drop 4).take plen)
      rw [agree.ok]
      split
      · rename_i ok
        have still := agree.alike (agree.ok.trans ok)
        have taken : Alike { (dispatch s ((t.input.drop 4).take plen)).1 with
              input := (dispatch s ((t.input.drop 4).take plen)).1.input.drop (4 + plen) }
            { (dispatch t ((t.input.drop 4).take plen)).1 with
              input := (dispatch t ((t.input.drop 4).take plen)).1.input.drop (4 + plen) } :=
          ⟨⟨still.core, still.replies⟩, congrArg (List.drop (4 + plen)) still.input, still.writing⟩
        exact .of_alike taken true
      · exact ⟨agree.toVisible, rfl, nofun⟩
  · rename_i v w same
    obtain ⟨still, rest⟩ := fed_alike alike.toVisible alike.input same
    exact fed_turn_agree rest.2.2.1 still rest

theorem pump_eq (s : State host) : pump s = match turn s with
    | .done t ok => (t, ok)
    | .again t => pump t := by
  rw [pump]
  split <;> rename_i turned <;> rw [turned]

theorem pump_done {ok : Bool} (turned : turn s = .done t ok) : pump s = (t, ok) := by
  rw [pump_eq, turned]

theorem pump_again (turned : turn s = .again t) : pump s = pump t := by
  rw [pump_eq, turned]

theorem pump_agree (alike : Alike s t) : Agree (pump s) (pump t) := by
  have turns := turn_agree alike
  induction s using pump.induct generalizing t with
  | case1 s u ok turned =>
    rw [turned] at turns
    rw [pump_done turned]
    generalize other : turn t = result at turns
    cases turns with
    | done agree =>
      rw [pump_done other]
      exact agree
  | case2 s u turned ih =>
    rw [turned] at turns
    rw [pump_again turned]
    generalize other : turn t = result at turns
    cases turns with
    | again still =>
      rw [pump_again other]
      exact ih still (turn_agree still)

theorem pump_goOn {r : State host × Bool} (turned : turn s = goOn r) : pump s = if r.2 then
    pump r.1 else r := by
  obtain ⟨t, ok⟩ := r
  cases ok with
  | false => exact pump_done turned
  | true => exact pump_again turned

theorem pump_of_turns (turns : TurnAgree (turn s) (turn t)) : Agree (pump s) (pump t) := by
  generalize first : turn s = one at turns
  generalize second : turn t = two at turns
  cases turns with
  | done agree =>
    rw [pump_done first, pump_done second]
    exact agree
  | again alike =>
    rw [pump_again first, pump_again second]
    exact pump_agree alike

end Alike

variable {x : Bytes} {plen : Nat}

section Header

def In.more (b : In) (z : Bytes) : In := { b with rest := b.rest ++ z }

variable {A B : Type} {read : In → A × In} {core : Core host}

/-- What is read whole is the same with more behind it. -/
def Reads (read : In → A × In) : Prop :=
  ∀ b, (read b).2.bad = false → b.bad = false ∧
  (read b).2.pos + (read b).2.rest.length = b.pos + b.rest.length ∧
    ∀ z, read (b.more z) = ((read b).1, (read b).2.more z)

theorem Reads.of_front {n : Nat} (value : Bytes → A)
    (same : ∀ x z, n ≤ x.length → value (x ++ z) = value x)
    (short : ∀ b, ¬(b.bad = false ∧ n ≤ b.rest.length) → (read b).2.bad = true)
    (whole : ∀ b, b.bad = false → n ≤ b.rest.length →
      read b = (value b.rest, ⟨b.rest.drop n, b.pos + n, false⟩)) :
    Reads read := by
  intro b good
  obtain ⟨fine, enough⟩ : b.bad = false ∧ n ≤ b.rest.length := by
    by_contra missing
    exact absurd (good.symm.trans (short b missing)) Bool.false_ne_true
  rw [whole b fine enough]
  refine ⟨fine, ?_, fun z => ?_⟩
  · dsimp only
    rw [List.length_drop]
    omega
  · have longer : n ≤ (b.more z).rest.length := by
      rw [In.more, List.length_append]
      omega
    rw [whole (b.more z) fine longer]
    simp only [In.more, same b.rest z enough, List.drop_append_of_le_length enough]

theorem Reads.then {next : A → In → B × In} (first : Reads read) (second : ∀ a, Reads (next a)) :
    Reads fun b => next (read b).1 (read b).2 := by
  intro b good
  obtain ⟨still, later, more_later⟩ := second _ _ good
  obtain ⟨fine, length, more⟩ := first b still
  refine ⟨fine, later.trans length, fun z => ?_⟩
  dsimp only
  rw [more]
  exact more_later z

theorem getU8_reads : Reads getU8 := by
  refine .of_front (n := 1) (fun x => (x.headD 0).toNat) (fun x z one => ?_)
    (fun b missing => ?_) fun b fine one => if_pos ⟨fine, one⟩
  · match x, one with
    | c :: x, _ => rfl
  · rw [getU8, if_neg missing]

theorem getU32_reads : Reads getU32 := by
  refine .of_front (n := 4) (fun x => wordAt (x.take 4)) (fun x z four => ?_)
    (fun b missing => ?_) fun b fine four => if_pos ⟨fine, four⟩
  · rw [List.take_append_of_le_length four]
  · rw [getU32, if_neg missing]

theorem getString_reads : Reads getString := by
  have bytes (len : Nat) : Reads fun b => if b.bad ∨ len > b.rest.length then
    (none, { b with bad := true })
      else (some (b.rest.take len), ⟨b.rest.drop len, b.pos + len, false⟩) := by
    refine .of_front (n := len) (fun x => some (x.take len)) (fun x z enough => ?_)
      (fun b missing => ?_)
      fun b fine enough => if_neg ?_
    · rw [List.take_append_of_le_length enough]
    · rw [if_pos]
      by_contra there
      obtain ⟨fine, enough⟩ := not_or.mp there
      exact missing ⟨Bool.eq_false_of_not_eq_true fine, Nat.not_lt.mp enough⟩
    · rw [fine, not_or]
      exact ⟨Bool.false_ne_true, Nat.not_lt.mpr enough⟩
  exact getU32_reads.then bytes

theorem handleGet_snd (core : Core host) (b : In) : (handleGet core b).2 = (getString b).2 := by
  fun_cases handleGet core b with
  | case1 b' raw read | case2 b' raw read | case3 b' raw read | case4 b' read => rw [read]

theorem handleGet_reads (core : Core host) : Reads (handleGet core) := by
  intro b good
  rw [handleGet_snd] at good ⊢
  obtain ⟨fine, length, more⟩ := getString_reads b good
  refine ⟨fine, length, fun z => ?_⟩
  unfold handleGet
  rw [more]
  rcases getString b with ⟨raw, b'⟩
  cases raw with
  | none => rfl
  | some raw =>
    dsimp only
    split
    · rfl
    · split <;> rfl

theorem writeHeader_good (good : (writeHeader core x).2.bad = false) :
    (writeHeader core x).2.pos ≤ x.length ∧
      ∀ z, writeHeader core (x ++ z) = ((writeHeader core x).1, (writeHeader core x).2.more z) := by
  have last (h : WriteHeader host) : Reads fun b => (h, b) :=
    fun b fine => ⟨fine, rfl, fun _ => rfl⟩
  have reads :=
    getU8_reads.then fun _ => getU32_reads.then fun id => (handleGet_reads core).then fun handle =>
    getU32_reads.then fun offHi => getU32_reads.then fun offset => getU32_reads.then fun len =>
      last ⟨id, handle, offHi, offset, len⟩
  obtain ⟨-, length, more⟩ := reads (readFrom x) good
  refine ⟨?_, more⟩
  have all : (readFrom x).pos + (readFrom x).rest.length = x.length := Nat.zero_add _
  exact all ▸ length ▸ Nat.le_add_right _ _

theorem getU32_at {pos : Nat} (enough : pos + 4 ≤ x.length) :
    getU32 ⟨x.drop pos, pos, false⟩ = (wordAt ((x.drop pos).take 4),
      ⟨x.drop (pos + 4), pos + 4, false⟩) := by
  unfold getU32
  rw [if_pos ⟨rfl, by rw [List.length_drop]; omega⟩, List.drop_drop]

theorem writeHeader_long (core : Core host) (nine : 9 ≤ x.length) :
    (writeHeader core x).1.id = wordAt ((x.drop 1).take 4) ∧
      (wordAt ((x.drop 5).take 4) ≠ 4 → (writeHeader core x).1.handle = none) ∧
      (wordAt ((x.drop 5).take 4) = 4 → 25 ≤ x.length → (writeHeader core x).2.bad = false) := by
  have type : (getU8 (readFrom x)).2 = ⟨x.drop 1, 1, false⟩ := by
    unfold getU8 readFrom
    rw [if_pos ⟨rfl, by dsimp only; omega⟩]
  have handle : getU32 ⟨x.drop 5, 5, false⟩ = (wordAt ((x.drop 5).take 4), ⟨x.drop 9, 9, false⟩) :=
    getU32_at (by omega)
  unfold writeHeader
  dsimp only
  rw [type, getU32_at (by omega)]
  dsimp only
  refine ⟨rfl, fun other => ?_, fun four long => ?_⟩
  · unfold handleGet getString
    rw [handle]
    dsimp only
    split
    · rename_i raw b read
      split at read
      · cases read
      · rename_i enough
        cases read
        rw [if_pos]
        rw [List.length_take_of_le (by omega)]
        exact other
    · rfl
  · have string : (getString ⟨x.drop 5, 5, false⟩).2 = ⟨x.drop 13, 13, false⟩ := by
      unfold getString
      rw [handle]
      dsimp only
      rw [four, if_neg, List.drop_drop]
      rw [List.length_drop, not_or]
      exact ⟨Bool.false_ne_true, by omega⟩
    rw [handleGet_snd, string, getU32_at (by omega)]
    dsimp only
    rw [getU32_at (by omega)]
    dsimp only
    rw [getU32_at (by omega)]

theorem writeBegin_refused (plen : Nat)
    (handle : (writeHeader core x).1.handle = none) (some_bytes : 0 < x.length)
    (within : x.length ≤ plen) :
    ∃ left used err, writeBegin core x plen =
    (core, ⟨none, (writeHeader core x).1.id, left, some err⟩, used) ∧
      left + used = plen ∧ used ≤ x.length := by
  unfold writeBegin
  cases bad : (writeHeader core x).2.bad with
  | true =>
    refine ⟨plen - 1, 1, .malformed, ?_, by omega, some_bytes⟩
    dsimp only
    rw [bad, if_pos rfl]
  | false =>
    obtain ⟨pos, -⟩ := writeHeader_good bad
    dsimp only
    rw [bad, if_neg Bool.false_ne_true, handle]
    by_cases same : (writeHeader core x).1.len = plen - (writeHeader core x).2.pos
    · rw [if_neg (not_not.mpr same)]
      exact ⟨_, _, .handle, rfl, by omega, pos⟩
    · rw [if_pos same]
      exact ⟨_, _, .inconsistent, rfl, by omega, pos⟩

theorem writeBegin_good (good : (writeHeader core x).2.bad = false) (z : Bytes) :
    writeBegin core (x ++ z) plen = writeBegin core x plen := by
  unfold writeBegin
  rw [(writeHeader_good good).2]
  rfl

theorem writeBegin_used (core : Core host) (some_bytes : 0 < x.length) (plen : Nat) :
    (writeBegin core x plen).2.2 ≤ x.length := by
  have pos (good : (writeHeader core x).2.bad = false) := (writeHeader_good good).1
  fun_cases writeBegin core x plen with
  | case1 => exact some_bytes
  | _ h b read good =>
    rw [read] at pos
    exact pos (Bool.eq_false_of_not_eq_true good)

end Header

section Split

def more (s : State host) (c : Bytes) : State host := { s with input := s.input ++ c }

variable {s t u : State host} {v w : Writing host} (c : Bytes)

theorem fwrite_append (f : host.File) (x y : Bytes) (state : host.State) :
    fwrite f (x ++ y) state = if (fwrite f x state).1 then
    fwrite f y (fwrite f x state).2 else fwrite f x state := by
  induction x generalizing state with
  | nil => rfl
  | cons b x ih =>
    rw [List.cons_append, fwrite, fwrite]
    rcases host.fputc f b state with ⟨ok, next⟩
    cases ok with
    | false => rfl
    | true => exact ih next

theorem writeFeed_append (core : Core host) (w : Writing host) (x y : Bytes) :
    writeFeed core w (x ++ y) = writeFeed (writeFeed core w x).1 (writeFeed core w x).2 y := by
  unfold writeFeed
  dsimp only
  rw [List.length_append, ← Nat.sub_sub]
  cases file : w.file with
  | none => rfl
  | some f =>
    dsimp only
    rw [fwrite_append]
    rcases fwrite f x core.sys with ⟨ok, next⟩
    cases ok with
    | false => rfl
    | true =>
      rw [if_pos rfl]

theorem left_writeFeed (core : Core host) (w : Writing host) (x : Bytes) :
    (writeFeed core w x).2.left = w.left - x.length := by
  unfold writeFeed
  dsimp only
  cases w.file with
  | none => rfl
  | some f =>
    dsimp only
    rcases fwrite f x core.sys with ⟨ok, next⟩
    cases ok <;> rfl

theorem left_fed (s : State host) (w : Writing host) :
    (fed s w).2.left = w.left - s.input.length := by
  rw [fed, left_writeFeed, List.length_take]
  omega

theorem sftpSend_more (reply : Reply) :
    sftpSend (more s c) reply = (more (sftpSend s reply).1 c, (sftpSend s reply).2) := by
  unfold sftpSend
  split
  · rfl
  · rw [show (more s c).core = s.core from rfl]
    rcases host.send s.core.sys with ⟨ok, state⟩
    cases ok <;> rfl

theorem writeFinish_more (w : Writing host) :
    writeFinish (more s c) w = (more (writeFinish s w).1 c, (writeFinish s w).2) := by
  unfold writeFinish
  cases w.error with
  | none | some err => exact sftpSend_more (s := { s with writing := none }) c _

theorem dispatch_more (packet : Bytes) :
    dispatch (more s c) packet = (more (dispatch s packet).1 c, (dispatch s packet).2) := by
  unfold dispatch
  rw [show (more s c).core = s.core from rfl]
  rcases respond packet s.core with ⟨reply, core⟩
  cases reply with
  | none => rfl
  | some reply => exact sftpSend_more (s := { s with core }) c reply

theorem answered_more (whole : 4 + plen ≤ s.input.length) :
    answered (more s c) plen = (more (answered s plen).1 c, (answered s plen).2) := by
  have same : ((more s c).input.drop 4).take plen = (s.input.drop 4).take plen := by
    rw [more, List.drop_append_of_le_length (by omega),
      List.take_append_of_le_length (by rw [List.length_drop]; omega)]
  have input := (dispatch_frame s ((s.input.drop 4).take plen)).1
  unfold answered
  dsimp only
  rw [same, dispatch_more]
  dsimp only
  split
  · refine Prod.ext ?_ rfl
    dsimp only [more]
    rw [input, List.drop_append_of_le_length whole]
  · rfl

theorem fed_enough (enough : w.left ≤ s.input.length) :
    fed (more s c) w = (more (fed s w).1 c, (fed s w).2) := by
  have first : min (more s c).input.length w.left = w.left := by
    rw [more, List.length_append]
    omega
  unfold fed
  rw [first, Nat.min_eq_right enough]
  dsimp only [more]
  rw [List.take_append_of_le_length enough, List.drop_append_of_le_length enough]

theorem fed_short (short : s.input.length ≤ w.left) :
    fed (more s c) w = fed (more (fed s w).1 c) (fed s w).2 := by
  have all : min s.input.length w.left = s.input.length := Nat.min_eq_left short
  have left : (writeFeed s.core w s.input).2.left = w.left - s.input.length := left_writeFeed _ _ _
  have data : (s.input ++ c).take (min (s.input ++ c).length w.left) = s.input ++
      c.take (min c.length (w.left - s.input.length)) := by
    rw [List.take_append, List.take_of_length_le (by rw [List.length_append]; omega)]
    refine congrArg (s.input ++ c.take ·) ?_
    rw [List.length_append]
    omega
  have rest : (s.input ++ c).drop (min (s.input ++ c).length w.left) =
      c.drop (min c.length (w.left - s.input.length)) := by
    rw [List.drop_append, List.drop_of_length_le (by rw [List.length_append]; omega),
      List.nil_append]
    refine congrArg (c.drop ·) ?_
    rw [List.length_append]
    omega
  unfold fed
  dsimp only [more]
  rw [all, List.take_length, List.drop_length, List.nil_append, left, data, rest, writeFeed_append]

theorem frame_more (known : frame x ≠ .wait) : frame (x ++ c) = frame x := by
  have longer : x.length ≤ (x ++ c).length := by simp
  revert known
  fun_cases frame x with
  | case1 | case3 | case5 | case8 => exact fun known => absurd rfl known
  | case2 four plen zero =>
    have start : (x ++ c).take 4 = x.take 4 := List.take_append_of_le_length (by omega)
    intro _
    rw [frame, if_neg (by omega), start, if_pos zero]
  | case4 four plen positive type there | case6 four plen positive type there
  | case7 four plen positive type there | case9 four plen positive type there =>
    have start : (x ++ c).take 4 = x.take 4 := List.take_append_of_le_length (by omega)
    have same : (x ++ c)[4]? = some type := by
      rw [List.getElem?_append_left (List.getElem?_eq_some_iff.mp there).1, there]
    intro _
    simp only [frame, start, same]
    grind

theorem refused_turns (visible : Visible s t) {full : Bytes} {a b id left left' : Nat}
    {err err' : WriteError}
    (first : s.writing = some ⟨none, id, left, some err⟩)
    (second : t.writing = some ⟨none, id, left', some err'⟩)
    (one : s.input = full.drop a) (two : t.input = full.drop b) (total : left + a = left' + b)
    (inside : a ≤ full.length) (inside' : b ≤ full.length) : TurnAgree (turn s) (turn t) := by
  have length : s.input.length = full.length - a := by rw [one, List.length_drop]
  have length' : t.input.length = full.length - b := by rw [two, List.length_drop]
  have rest : s.input.drop (min s.input.length left) = t.input.drop (min t.input.length left') := by
    rw [one, two, List.drop_drop, List.drop_drop, ← one, ← two, length, length']
    refine congrArg (full.drop ·) ?_
    omega
  have same : SameWriting (fed s ⟨none, id, left, some err⟩).2
      (fed t ⟨none, id, left', some err'⟩).2 := by
    refine ⟨rfl, rfl, ?_, rfl⟩
    rw [left_fed, left_fed]
    dsimp only
    omega
  have alike : Alike (fed s ⟨none, id, left, some err⟩).1 (fed t ⟨none, id, left', some err'⟩).1 :=
    ⟨⟨visible.core, visible.replies⟩, rest, .some same⟩
  rw [turn_writing first, turn_writing second]
  exact fed_turn_agree same.2.2.1 alike same

theorem begun_refused {z : Bytes} (part : (s.input.drop 4).take plen = x)
    (longer : ((s.input ++ c).drop 4).take plen = x ++
      z) (bad : (writeHeader s.core x).2.bad = true) (long : 32 ≤ x.length) :
    Agree (pump (begun (more s c) plen)) (pump (more (begun s plen) c)) := by
  have here : x.length ≤ plen ∧ x.length ≤ s.input.length - 4 := by
    rw [← part, List.length_take, List.length_drop]
    omega
  have there : (x ++ z).length ≤ plen ∧ (x ++ z).length ≤ (s.input ++ c).length - 4 := by
    rw [← longer, List.length_take, List.length_drop]
    omega
  have shorter : x.length ≤ (x ++ z).length := by
    rw [List.length_append]
    exact Nat.le_add_right _ _
  obtain ⟨id, none_there, fine⟩ := writeHeader_long s.core (x := x) (by omega)
  obtain ⟨id', none_there', -⟩ := writeHeader_long s.core (x := x ++ z) (by omega)
  have other : wordAt ((x.drop 5).take 4) ≠ 4 := fun four =>
    absurd (bad.symm.trans (fine four (by omega))) Bool.true_eq_false.mp
  have words (k : Nat) (early : k + 4 ≤ x.length) :
      ((x ++ z).drop k).take 4 = (x.drop k).take 4 := by
    rw [List.drop_append_of_le_length (by omega),
      List.take_append_of_le_length (by rw [List.length_drop]; omega)]
  rw [words 1 (by omega)] at id'
  rw [words 5 (by omega)] at none_there'
  obtain ⟨left, used, err, begins, total, inside⟩ :=
    writeBegin_refused plen (none_there other) (by omega) here.1
  obtain ⟨left', used', err', begins', total', inside'⟩ :=
    writeBegin_refused plen (none_there' other) (by omega) there.1
  rw [id] at begins
  rw [id'] at begins'
  have one : begun (more s c) plen = { s with
      writing := some ⟨none, wordAt ((x.drop 1).take 4), left', some err'⟩, input :=
          (s.input ++ c).drop (4 + used') } := by
    unfold begun
    dsimp only [more]
    rw [longer, begins']
  have two : more (begun s plen) c = { s with
      writing := some ⟨none, wordAt ((x.drop 1).take 4), left, some err⟩, input :=
          (s.input ++ c).drop (4 + used) } := by
    unfold begun
    dsimp only [more]
    rw [part, begins, List.drop_append_of_le_length (by omega)]
  rw [one, two]
  exact pump_of_turns (refused_turns ⟨rfl, rfl⟩ rfl rfl rfl rfl (by omega) (by omega)
    (by rw [List.length_append]; omega))

theorem begun_more (framed : frame s.input = .write plen) :
    Agree (pump (begun (more s c) plen)) (pump (more (begun s plen) c)) := by
  obtain ⟨positive, -, head⟩ := length_of_frame.1 framed
  unfold writeHead at head
  have four : 4 ≤ s.input.length := by omega
  obtain ⟨z, longer⟩ : ∃ z, ((s.input ++ c).drop 4).take plen = (s.input.drop 4).take plen ++
      z := by
    rw [List.drop_append_of_le_length four, List.take_append]
    exact ⟨_, rfl⟩
  have length : ((s.input.drop 4).take plen).length = min plen (s.input.length - 4) := by
    rw [List.length_take, List.length_drop]
  have used := writeBegin_used s.core (x := (s.input.drop 4).take plen) (by omega) plen
  have equal_of (same : writeBegin s.core ((s.input.drop 4).take plen ++
    z) plen = writeBegin s.core ((s.input.drop 4).take plen) plen) :
      begun (more s c) plen = more (begun s plen) c := by
    unfold begun
    dsimp only [more]
    rw [longer, same, List.drop_append_of_le_length (by omega)]
  cases bad : (writeHeader s.core ((s.input.drop 4).take plen)).2.bad with
  | false =>
    rw [equal_of (writeBegin_good bad z)]
    exact .refl _
  | true =>
    by_cases whole : plen ≤ s.input.length - 4
    · have nothing : z = [] := by
        have lengths := congrArg List.length longer
        rw [List.length_append, List.length_take, List.length_drop, List.length_append,
          length] at lengths
        exact List.length_eq_zero_iff.mp (by omega)
      rw [equal_of (by rw [nothing, List.append_nil])]
      exact .refl _
    · -- the 32 bytes that are there were not enough: no handle is that long
      exact begun_refused c rfl longer bad (by omega)

theorem pump_congr (same : turn s = turn t) : pump s = pump t := by
  rw [pump_eq, same, ← pump_eq]

theorem turn_more_stop (turned : turn s = .done u true) : turn (more s c) = turn (more u c) := by
  revert turned
  fun_cases turn s with
  | case1 w writing left =>
    rintro ⟨⟩
    rw [left_fed] at left
    have fed := fed_short (s := s) (w := w) c (by omega)
    have here : (more s c).writing = some w := writing
    have there : (more (Sftp.fed s w).1 c).writing = some (Sftp.fed s w).2 := rfl
    rw [turn_writing here, turn_writing there, fed]
  | case3 =>
    rintro ⟨⟩
    rfl
  | case4 | case5 => rintro ⟨⟩
  | case2 | case6 =>
    unfold goOn
    split <;> rintro ⟨⟩

def Turn.more : Turn host → Turn host
  | .done s ok => .done (Sftp.more s c) ok
  | .again s => .again (Sftp.more s c)

theorem goOn_more {r : State host × Bool} : goOn (more r.1 c, r.2) = (goOn r).more c := by
  obtain ⟨s, ok⟩ := r
  cases ok <;> rfl

/-- A turn that does not stop is the same with more behind it, but for the start of a write. -/
theorem turn_more (moves : ∀ u, turn s ≠ .done u true) :
    turn (more s c) = (turn s).more c ∨ s.writing = none ∧ ∃ plen, frame s.input = .write plen := by
  revert moves
  fun_cases turn s with
  | case1 | case3 => exact fun moves => absurd rfl (moves _)
  | case2 w writing enough =>
    have left := left_fed s w
    have fed := fed_enough (s := s) (w := w) c (by omega)
    have here : (more s c).writing = some w := writing
    intro _
    rw [turn_writing here, fed]
    dsimp only
    rw [if_neg enough, writeFinish_more]
    exact .inl (goOn_more c)
  | case4 idle framed =>
    have here : (more s c).writing = none := idle
    intro _
    rw [turn_idle here, more, frame_more c (by rw [framed]; rintro ⟨⟩), framed]
    exact .inl rfl
  | case5 idle plen framed => exact fun _ => .inr ⟨idle, plen, framed⟩
  | case6 idle plen framed =>
    have here : (more s c).writing = none := idle
    have same : frame (more s c).input = .packet plen :=
      (frame_more c (by rw [framed]; rintro ⟨⟩)).trans framed
    intro _
    rw [turn_idle here, same]
    dsimp only
    rw [answered_more c (length_of_frame.2 framed).2.2]
    exact .inl (goOn_more c)

theorem turn_more_fail (turned : turn s = .done u false) : ∃ u', turn (more s c) = .done u' false ∧
    Visible u' u := by
  obtain same | ⟨idle, plen, framed⟩ := turn_more c (s := s) (by rw [turned]; nofun)
  · rw [turned] at same
    exact ⟨_, same, rfl, rfl⟩
  · rw [turn_idle idle, framed] at turned
    cases turned

theorem turn_more_again (turned : turn s = .again u) :
    Agree (pump (more s c)) (pump (more u c)) := by
  obtain same | ⟨idle, plen, framed⟩ := turn_more c (s := s) (by rw [turned]; nofun)
  · rw [turned] at same
    rw [pump_again same]
    exact .refl _
  · have same : frame (more s c).input = .write plen :=
      (frame_more c (by rw [framed]; nofun)).trans framed
    have here : (more s c).writing = none := idle
    have first : turn (more s c) = .again (begun (more s c) plen) := by rw [turn_idle here, same]
    rw [turn_idle idle, framed] at turned
    cases turned
    rw [pump_again first]
    exact begun_more c framed

theorem pump_more (s : State host) : Agree (pump (more s c)) (if (pump s).2 then
    pump (more (pump s).1 c) else pump s) := by
  induction s using pump.induct with
  | case1 s u ok turned =>
    rw [pump_done turned]
    cases ok with
    | true =>
      rw [if_pos rfl, pump_congr (turn_more_stop c turned)]
      exact .refl _
    | false =>
      obtain ⟨u', failed, visible⟩ := turn_more_fail c turned
      rw [if_neg Bool.false_ne_true, pump_done failed]
      exact ⟨visible, rfl, nofun⟩
  | case2 s u turned ih =>
    rw [pump_again turned]
    exact (turn_more_again c turned).trans ih

end Split

section Chunks

variable {s t u : State host}

def Settled (s : State host) : Prop := turn s = .done s true

theorem length_of_wait {input : Bytes} (waits : frame input = .wait) :
    input.length < maxPacket := by
  unfold frame at waits
  dsimp only at waits
  unfold maxPacket writeHead at *
  (repeat' split at waits) <;> first | omega | cases waits
  rename_i none_there
  have short := List.getElem?_eq_none_iff.mp none_there
  omega

theorem Settled.length_lt (settled : Settled s) : s.input.length < maxPacket := by
  unfold Settled at settled
  revert settled
  fun_cases turn s with
  | case1 w writing left =>
    intro settled
    have same : (fed s w).1 = s := by
      injection settled
    rw [left_fed] at left
    have input := congrArg (·.input.length) same
    dsimp only [fed] at input
    rw [List.length_drop] at input
    have positive : 0 < maxPacket := by decide
    omega
  | case3 writing waits => exact fun _ => length_of_wait waits
  | case4 | case5 => rintro ⟨⟩
  | case2 | case6 =>
    unfold goOn
    split <;> rintro ⟨⟩

theorem settled_of_done (turned : turn s = .done u true) : Settled u := by
  have again := turn_more_stop [] turned
  have same (v : State host) : more v [] = v := by rw [more, List.append_nil]
  rw [same, same, turned] at again
  exact again.symm

theorem settled_pump (s : State host) (ok : (pump s).2 = true) : Settled (pump s).1 := by
  induction s using pump.induct with
  | case1 s u fine turned =>
    rw [pump_done turned] at ok ⊢
    rw [show fine = true from ok] at turned
    exact settled_of_done turned
  | case2 s u turned ih =>
    rw [pump_again turned] at ok ⊢
    exact ih ok

theorem Settled.room (settled : Settled s) {chunk : Bytes}
    (size : chunk.length ≤ channelMaxPacket) :
    ¬s.input.length + chunk.length > inMax := by
  have short := settled.length_lt
  unfold inMax
  omega

theorem run_pump (settled : Settled s) {chunks : List Bytes}
    (sizes : ∀ chunk ∈ chunks, chunk.length ≤ channelMaxPacket) :
    Agree ((run s chunks).1, (run s chunks).2 == .going) (pump (more s chunks.flatten)) ∧
    (run s chunks).2 ≠ .dropped ∧
      ((run s chunks).2 = .going → Settled (run s chunks).1) := by
  induction chunks generalizing s with
  | nil =>
    have same : more s [] = s := by rw [more, List.append_nil]
    rw [List.flatten_nil, same, pump_done settled]
    exact ⟨.refl _, nofun, fun _ => settled⟩
  | cons chunk later ih =>
    obtain ⟨size, others⟩ := List.forall_mem_cons.mp sizes
    have joined : more s (chunk :: later).flatten = more (more s chunk) later.flatten := by
      rw [more, more, more, List.flatten_cons, List.append_assoc]
    rw [run]
    split
    · rename_i empty
      rw [List.length_eq_zero_iff.mp empty, List.flatten_cons, List.nil_append]
      exact ih settled others
    · rw [if_neg (settled.room size), joined]
      have two := pump_more later.flatten (more s chunk)
      have stays := settled_pump (more s chunk)
      rw [show ({ s with input := s.input ++ chunk } : State host) = more s chunk from rfl]
      rcases result : pump (more s chunk) with ⟨after, ok⟩
      rw [result] at two stays
      cases ok with
      | false =>
        rw [if_neg Bool.false_ne_true] at two
        exact ⟨two.symm, nofun, nofun⟩
      | true =>
        rw [if_pos rfl] at two
        obtain ⟨agree, kept, still⟩ := ih (stays rfl) others
        exact ⟨agree.trans two.symm, kept, still⟩

end Chunks

section Whole

def bare (s : State host) : State host := { s with input := [], writing := none }

variable {s : State host}

theorem sftpSend_bare (s : State host) (reply : Reply) :
    sftpSend (bare s) reply = (bare (sftpSend s reply).1, (sftpSend s reply).2) := by
  unfold sftpSend
  split
  · rfl
  · rw [show (bare s).core = s.core from rfl]
    rcases host.send s.core.sys with ⟨ok, state⟩
    cases ok <;> rfl

theorem dispatch_bare (s : State host) (packet : Bytes) :
    dispatch (bare s) packet = (bare (dispatch s packet).1, (dispatch s packet).2) := by
  unfold dispatch
  rw [show (bare s).core = s.core from rfl]
  rcases respond packet s.core with ⟨reply, core⟩
  cases reply with
  | none => rfl
  | some reply => exact sftpSend_bare { s with core } reply

theorem writeFinish_bare (s : State host) (w : Writing host) :
    writeFinish (bare s) w = (bare (writeFinish s w).1, (writeFinish s w).2) := by
  unfold writeFinish
  cases w.error with
  | none | some err => exact sftpSend_bare { s with writing := none } _

theorem cut_of_frame (stream : Bytes) : match frame stream with
    | .wait => cut stream = .part
    | .refuse => cut stream = .refuse
    | .write plen => (stream.drop 4).head?.map (·.toNat) = some fxpWrite ∧
        cut stream = if stream.length < 4 + plen then
        .part else .packet ((stream.drop 4).take plen) (stream.drop (4 + plen))
    | .packet plen => (stream.drop 4).head?.map (·.toNat) ≠ some fxpWrite ∧
        cut stream = .packet ((stream.drop 4).take plen) (stream.drop (4 + plen)) := by
  unfold frame cut
  dsimp only
  by_cases four : stream.length < 4
  · rw [if_pos four, if_pos four]
  · rw [if_neg four, if_neg four]
    by_cases zero : wordAt (stream.take 4) = 0
    · rw [if_pos zero, if_pos zero]
    · rw [if_neg zero, if_neg zero]
      have head : (stream.drop 4).head? = stream[4]? := List.head?_drop
      cases type : stream[4]? with
      | none => rfl
      | some b =>
        rw [head, type]
        dsimp only [Option.map_some]
        unfold limit
        by_cases write : b.toNat = fxpWrite
        · rw [if_pos write, if_pos write]
          by_cases large : wordAt (stream.take 4) > writeMax
          · rw [if_pos large, if_pos large]
          · rw [if_neg large, if_neg large]
            by_cases short : stream.length < 4 + min (wordAt (stream.take 4)) writeHead
            · rw [if_pos short]
              exact if_pos (by omega)
            · rw [if_neg short]
              exact ⟨congrArg some write, rfl⟩
        · rw [if_neg write, if_neg write]
          by_cases large : wordAt (stream.take 4) > maxPacket - 4
          · rw [if_pos large, if_pos large]
          · rw [if_neg large, if_neg large]
            by_cases short : stream.length < 4 + wordAt (stream.take 4)
            · rw [if_pos short, if_pos short]
            · rw [if_neg short, if_neg short]
              exact ⟨fun same => write (Option.some.inj same), rfl⟩

theorem writeBegin_left (core : Core host) (x : Bytes) (plen : Nat) :
    (writeBegin core x plen).2.1.left = plen - (writeBegin core x plen).2.2 := by
  fun_cases writeBegin core x plen <;> rfl

theorem pump_unfinished (idle : s.writing = none) (framed : frame s.input = .write plen)
    (short : s.input.length < 4 + plen) : pump s = ((pump s).1, true) ∧
    bare (pump s).1 = unfinished (bare s) s.input := by
  obtain ⟨positive, -, head⟩ := length_of_frame.1 framed
  unfold writeHead at head
  have length : (s.input.drop 4).length = s.input.length - 4 := List.length_drop
  have all : (s.input.drop 4).take plen = s.input.drop 4 := List.take_of_length_le (by omega)
  have within := writeBegin_used s.core (x := s.input.drop 4) (by omega) plen
  have left := writeBegin_left s.core (s.input.drop 4) plen
  rcases start : writeBegin s.core (s.input.drop 4) plen with ⟨core, w, used⟩
  simp only [start, length] at within left
  have first : turn s = .again (begun s plen) := by rw [turn_idle idle, framed]
  have begins :
      begun s plen = { s with core, writing := some w, input := s.input.drop (4 + used) } := by
    unfold begun
    rw [all, start]
  have rest : (s.input.drop (4 + used)).length = s.input.length - (4 + used) := List.length_drop
  have going : 0 < (fed (begun s plen) w).2.left := by
    rw [left_fed, begins]
    dsimp only
    omega
  have second : turn (begun s plen) = .done (fed (begun s plen) w).1 true := by
    rw [turn_writing (w := w) (by rw [begins]), if_pos going]
  have everything : (s.input.drop (4 + used)).take (min (s.input.drop (4 + used)).length w.left) =
      s.input.drop (4 + used) :=
    List.take_of_length_le (by omega)
  rw [pump_again first, pump_done second]
  refine ⟨rfl, ?_⟩
  unfold unfinished fed
  rw [framed, begins]
  dsimp only [bare]
  rw [everything, start, List.drop_drop]

theorem pump_request (idle : s.writing = none) (framed : frame s.input = .write plen)
    (whole : 4 + plen ≤ s.input.length) : ∃ r : State host × Bool,
    r.1.input = s.input.drop (4 + plen) ∧ r.1.writing = none ∧
      request (bare s) ((s.input.drop 4).take plen) = (bare r.1, r.2) ∧ pump s = if r.2 then
      pump r.1 else r := by
  obtain ⟨positive, -, -⟩ := length_of_frame.1 framed
  generalize packet : (s.input.drop 4).take plen = x
  have length : x.length = plen := by
    rw [← packet, List.length_take, List.length_drop]
    omega
  have type : x.head?.map (·.toNat) = some fxpWrite := by
    have found := cut_of_frame s.input
    rw [framed] at found
    rw [← packet, List.head?_take, if_neg (by omega)]
    exact found.1
  have within := writeBegin_used s.core (x := x) (by omega) plen
  have left := writeBegin_left s.core x plen
  rcases start : writeBegin s.core x plen with ⟨core, w, used⟩
  simp only [start] at within left
  have first : turn s = .again (begun s plen) := by rw [turn_idle idle, framed]
  have begins :
      begun s plen = { s with core, writing := some w, input := s.input.drop (4 + used) } := by
    unfold begun
    rw [packet, start]
  have enough : min (begun s plen).input.length w.left = w.left := by
    rw [begins, List.length_drop]
    omega
  have data : (begun s plen).input.take w.left = x.drop used := by
    rw [begins, left, ← packet, List.drop_take, List.drop_drop]
  have rest : (begun s plen).input.drop w.left = s.input.drop (4 + plen) := by
    rw [begins, left, List.drop_drop]
    refine congrArg (s.input.drop ·) ?_
    omega
  have nothing : ¬0 < (fed (begun s plen) w).2.left := by
    rw [left_fed]
    omega
  have second : turn (begun s plen) =
      goOn (writeFinish (fed (begun s plen) w).1 (fed (begun s plen) w).2) := by
    rw [turn_writing (w := w) (by rw [begins]), if_neg nothing]
  obtain ⟨input, writing⟩ := writeFinish_frame (fed (begun s plen) w).1 (fed (begun s plen) w).2
  refine ⟨_, ?_, writing, ?_, (pump_again first).trans (pump_goOn second)⟩
  · rw [input]
    unfold fed
    dsimp only
    rw [enough, rest]
  · rw [← writeFinish_bare]
    unfold request fed
    rw [if_pos type, length]
    dsimp only [bare]
    rw [enough, data, start, begins]

theorem pump_stream (s : State host) (idle : s.writing = none) :
    packetByPacket (bare s) s.input = (bare (pump s).1, (pump s).2) := by
  induction size : s.input.length using Nat.strong_induction_on generalizing s with
  | _ n ih =>
    have found := cut_of_frame s.input
    cases framed : frame s.input with
    | wait =>
      rw [framed] at found
      have stops : turn s = .done s true := by rw [turn_idle idle, framed]
      rw [packetByPacket_eq, found, pump_done stops, unfinished, framed]
    | refuse =>
      rw [framed] at found
      have fails : turn s = .done s false := by rw [turn_idle idle, framed]
      rw [packetByPacket_eq, found, pump_done fails]
    | write plen =>
      rw [framed] at found
      obtain ⟨positive, -, -⟩ := length_of_frame.1 framed
      by_cases short : s.input.length < 4 + plen
      · obtain ⟨fine, same⟩ := pump_unfinished idle framed short
        rw [packetByPacket_eq, found.2, if_pos short, fine, same]
      · obtain ⟨⟨t, ok⟩, input, still, answer, pumped⟩ :=
          pump_request idle framed (Nat.not_lt.mp short)
        rw [packetByPacket_eq, found.2, if_neg short]
        dsimp only
        rw [answer, pumped]
        cases ok with
        | false => rfl
        | true =>
          rw [← show t.input = s.input.drop (4 + plen) from input]
          exact ih t.input.length (by rw [input, List.length_drop]; omega) t still rfl
    | packet plen =>
      rw [framed] at found
      obtain ⟨positive, -, whole⟩ := length_of_frame.2 framed
      have type : ((s.input.drop 4).take plen).head?.map (·.toNat) ≠ some fxpWrite := by
        rw [List.head?_take, if_neg (by omega)]
        exact found.1
      have next : turn s = goOn (answered s plen) := by rw [turn_idle idle, framed]
      obtain ⟨input, writing⟩ := dispatch_frame s ((s.input.drop 4).take plen)
      rw [packetByPacket_eq, found.2]
      dsimp only
      rw [request, if_neg type, dispatch_bare, pump_goOn next]
      unfold answered
      dsimp only
      rcases result : dispatch s ((s.input.drop 4).take plen) with ⟨t, ok⟩
      rw [result] at input writing
      cases ok with
      | false => rfl
      | true =>
        dsimp only at input writing ⊢
        rw [← input, if_pos rfl, if_pos rfl]
        exact ih (t.input.drop (4 + plen)).length (by rw [input, List.length_drop]; omega)
          { t with input := t.input.drop (4 + plen) } (writing.trans idle) rfl

end Whole

section Session

def Acceptable (body : Bytes) : Prop := ∃ type, body.head? = some type ∧ body.length ≤ limit type

/-- A packet is cut off by its length word, whatever is in it and behind it. -/
theorem cut_packet {body : Bytes} (acceptable : Acceptable body) (rest : Bytes) :
    cut (word body.length ++ body ++ rest) = .packet body rest := by
  obtain ⟨type, first, fits⟩ := acceptable
  have small : body.length < 2 ^ 32 := by
    unfold limit writeMax maxPacket at fits
    split at fits <;> omega
  have four : (word body.length).length = 4 := length_word _
  have positive : body.length ≠ 0 := fun none_there => by
    rw [List.length_eq_zero_iff.mp none_there] at first
    cases first
  have head : (word body.length ++ body ++ rest)[4]? = some type := by
    rw [List.append_assoc, List.getElem?_append_right (by omega), four,
      List.getElem?_append_left (by omega)]
    rw [← first, List.head?_eq_getElem?]
  have length : ¬(word body.length ++ body ++ rest).length < 4 + body.length := by
    rw [List.length_append, List.length_append]
    omega
  unfold cut
  dsimp only
  rw [if_neg (by omega), List.append_assoc, List.take_left' four, wordAt_word small,
    if_neg positive, ← List.append_assoc, head]
  dsimp only
  rw [if_neg (Nat.not_lt.mpr fits), if_neg length]
  congr 1
  · rw [List.append_assoc, List.drop_left' four, List.take_left]
  · rw [List.drop_left' (by rw [List.length_append, four])]

theorem settled_start (sys : host.State) : Settled (start sys) := rfl

/-- However its stream is cut, a session does what it does packet by packet, and never runs out of
buffer. -/
theorem sftpRun_packetByPacket (sys : host.State) {chunks : List Bytes}
    (sizes : ∀ chunk ∈ chunks, chunk.length ≤ channelMaxPacket) :
    (sftpRun sys chunks).1 = (ended (packetByPacket (start sys) chunks.flatten).1).1 ∧
      (sftpRun sys chunks).2.map Reply.seen =
      (ended (packetByPacket (start sys) chunks.flatten).1).2.map Reply.seen ∧
      (∀ before, before <+: chunks → (run (start sys) before).2 ≠ .dropped ∧
        ((run (start sys) before).2 = .going →
          (run (start sys) before).1.input.length + channelMaxPacket ≤ inMax)) ∧
      ∀ body rest, Acceptable body →
      cut (word body.length ++ body ++ rest) = .packet body rest := by
  have visible := (run_pump (settled_start sys) sizes).1.toVisible
  have whole : packetByPacket (start sys) chunks.flatten =
      (bare (pump (more (start sys) chunks.flatten)).1,
          (pump (more (start sys) chunks.flatten)).2) :=
    pump_stream (more (start sys) chunks.flatten) rfl
  rw [whole]
  refine ⟨?_, visible.replies, fun before first => ?_, fun body rest acceptable =>
    cut_packet acceptable rest⟩
  · change ((closeAll _).run (run (start sys) chunks).1.core).2.sys = _
    rw [visible.core]
    rfl
  · obtain ⟨-, kept, settled⟩ :=
      run_pump (settled_start sys) fun chunk within => sizes chunk (first.subset within)
    refine ⟨kept, fun going => ?_⟩
    have short := (settled going).length_lt
    unfold inMax
    omega

def oneFile : Host where
  State := Bytes
  File := Unit
  Dir := Empty
  resolve := some
  strerror _ := ""
  stat _ state := (.ok ⟨state.length, false, 0o644, 0⟩, state)
  access _ state := (true, state)
  fopen _ _ state := (.ok (), state)
  opendir _ state := (.error 20, state)
  readdir _ dir := nomatch dir
  fseek _ offset state := (offset == state.length, state)
  fread _ _ state := (([], false), state)
  fputc _ x state := (true, state ++ [x])
  fclose _ state := (0, state)
  closedir dir := nomatch dir
  chmod _ _ state := (.ok, state)
  unlink _ state := (1, state)
  mkdir _ state := (1, state)
  rmdir _ state := (1, state)
  rename _ _ state := (1, state)
  send state := (true, state)

/-- A version, a write and a close, cut where no packet ends. -/
def twoParts : List Bytes :=
  [word 5 ++ [1], word 3 ++ word 27 ++ [6], word 1 ++ word 4 ++ word 0 ++ word 0,
    word 0 ++ word 2 ++ [65], [66] ++ word 13 ++ [4] ++ word 2, word 4 ++ word 0]

theorem sftpRun_packetByPacket_twoParts : (∀ chunk ∈ twoParts, chunk.length ≤ channelMaxPacket) ∧
    (@sftpRun oneFile [] twoParts).1 =
    (ended (@packetByPacket oneFile (start []) twoParts.flatten).1).1 :=
  ⟨by decide, (@sftpRun_packetByPacket oneFile [] twoParts (by decide)).1⟩

end Session

end Espix.Ssh.Sftp
