import Espix.Lib.Run
import Espix.Terminal.Ldisc

/-! What is read of a terminal whose mode changes: `espix_tty_setattr` without a flush. -/

namespace Espix.Terminal.Modes

open Lib.Run Ldisc

structure State where
  tty : Tty
  given : List UInt8
  typed : List UInt8

inductive Event
  | input (c : UInt8)
  | take (len : Nat)
  | setattr (tio : Termios)

def step (s : State) : Event → Option State
  | .input c =>
    (s.tty.inputOne c).map fun (u, _) =>
      { s with tty := u, typed := s.typed ++ (cook s.tty.tio c).toList }
  | .take len => some { s with tty := (s.tty.take len).2, given := s.given ++ (s.tty.take len).1 }
  | .setattr tio => some { s with tty := s.tty.setattr false tio }

/-- There is a mark and room in the ring for these bytes as a line. -/
def Fits (t : Tty) (line : List UInt8) : Prop := t.ends.length ≠ endsMax ∧
    line.length ≤ t.cap - t.ring.length

/-- A character that is neither for the discipline itself nor too much for it. -/
def Plain (t : Tty) (c : UInt8) : Prop :=
  isSignal t.tio c = false ∧
    if t.tio.icanon then
      c ≠ t.tio.verase ∧ c ≠ 8 ∧ c ≠ t.tio.vkill ∧ (c ≠ 0x17 ∨ t.tio.iexten = false) ∧
        (c ≠ t.tio.veof ∨ c = 0) ∧
        t.line.length < lineCap - 1 ∧ Fits t (t.line ++ [c])
    else t.ring.length < t.cap

/-- What is typed is plain, and the line fits where the terminal leaves canonical mode. -/
def Kept (s : State) : Event → Prop
  | .input c => ∀ d, cook s.tty.tio c = some d → Plain s.tty d
  | .take _ => True
  | .setattr tio =>
      s.tty.tio.icanon = true → tio.icanon = false → s.tty.line ≠ [] → Fits s.tty s.tty.line

structure Inv (start : List UInt8) (s : State) : Prop where
  kind : s.tty.pipe = false
  settled : s.tty.tio.icanon = false → s.tty.line = []
  stream : s.given ++ s.tty.ring ++ s.tty.line = start ++ s.typed

variable {start : List UInt8} {s s' : State} {e : Event} {t : Tty}

theorem commitLine_fits (fits : Fits t t.line) :
    t.commitLine = some { t with ring := t.ring ++ t.line, ends := t.ends ++
      [(t.ring ++ t.line).length], line := [] } := by
  simp [Tty.commitLine, Tty.ringPut, fits.1, fits.2]

theorem setattr_stream {tio : Termios} (kind : t.pipe = false)
    (settled : t.tio.icanon = false → t.line = [])
    (fits : t.tio.icanon = true → tio.icanon = false → t.line ≠ [] → Fits t t.line) :
    (t.setattr false tio).ring ++ (t.setattr false tio).line = t.ring ++ t.line ∧
      (tio.icanon = false → (t.setattr false tio).line = []) := by
  by_cases leaves : t.tio.icanon = true ∧ tio.icanon = false ∧ t.line ≠ []
  · obtain ⟨before, after, some_line⟩ := leaves
    have committed := commitLine_fits (t := { t with tio }) (fits before after some_line)
    simp only [Tty.setattr, Tty.canonical]
    grind
  · simp only [Tty.setattr, Tty.canonical]
    grind

theorem edit_stream {c : UInt8} (canon : t.tio.icanon = true) (plain : Plain t c) :
    (t.edit c).1.ring ++ (t.edit c).1.line = t.ring ++ t.line ++ [c] := by
  simp only [Plain, canon, if_true] at plain
  obtain ⟨-, erase, back, kill, word, eof, short, fits⟩ := plain
  have committed := commitLine_fits (t := { t with line := t.line ++ [c] }) fits
  have whole : t.line.length ≠ lineCap := by omega
  unfold Tty.edit
  grind [Tty.commitOrDrop]

theorem inputOne_stream {c : UInt8} {u : Tty} {echo : List UInt8} {signal : Bool}
    (one : t.inputOne c = some (u, echo, signal)) (kind : t.pipe = false)
    (settled : t.tio.icanon = false → t.line = [])
    (plain : ∀ d, cook t.tio c = some d → Plain t d) :
    u.ring ++ u.line = t.ring ++ t.line ++ (cook t.tio c).toList ∧
    (t.tio.icanon = false → u.line = []) := by
  simp only [Tty.inputOne, kind] at one
  cases cooked : cook t.tio c with
  | none => grind
  | some d =>
    have edited := edit_stream (c := d) (t := t)
    have := plain d cooked
    grind [Plain, Tty.ringPut]

theorem inv_step (inv : Inv start s) (kept : Kept s e) (next : step s e = some s') :
    Inv start s' := by
  obtain ⟨kind, settled, stream⟩ := inv
  cases e with
  | take len =>
    cases next
    refine ⟨kind, settled, ?_⟩
    simpa [Tty.take] using stream
  | setattr tio =>
    cases next
    have frame := s.tty.flush_setattr false tio
    obtain ⟨same, empty⟩ := setattr_stream kind settled kept
    refine ⟨(congrArg Tty.pipe frame).trans kind, ?_, ?_⟩
    · exact fun raw => empty ((congrArg (·.tio.icanon) frame).symm.trans raw)
    · simpa [same] using stream
  | input c =>
    simp only [step, Option.map_eq_some_iff] at next
    obtain ⟨⟨u, echo, signal⟩, one, rfl⟩ := next
    have frame := Tty.flush_inputOne one
    obtain ⟨same, empty⟩ := inputOne_stream one kind settled kept
    refine ⟨(congrArg Tty.pipe frame).trans kind, ?_, ?_⟩
    · exact fun raw => empty ((congrArg (·.tio.icanon) frame).symm.trans raw)
    · simp only [List.append_assoc, same] at stream ⊢
      simp only [← List.append_assoc] at stream ⊢
      rw [stream]

theorem modes_keep_stream {t : Tty} {es : List Event} (kind : t.pipe = false)
    (settled : t.tio.icanon = false → t.line = []) (done : run step ⟨t, [], []⟩ es = some s)
    (kept : Along step Kept ⟨t, [], []⟩ es) :
    s.given ++ s.tty.ring ++ s.tty.line = t.ring ++ t.line ++ s.typed ∧
    (s.tty.tio.icanon = false → s.tty.line = []) := by
  have inv :=
    run_invariant_along (P := Inv (t.ring ++ t.line)) (fun _ _ _ inv ok next =>
      inv_step inv ok next) kept
    done ⟨kind, settled, by simp⟩
  exact ⟨inv.stream, inv.settled⟩

def raw : Termios := { sane with icanon := false }

def typing : List Event := [.input 0x62, .setattr raw, .input 0x63, .take 2]

theorem modes_keep_stream_typing : ∃ s, run step ⟨terminal 256, [], []⟩ typing = some s ∧
    s.given ++ s.tty.ring ++ s.tty.line = s.typed :=
  ⟨_, rfl, (modes_keep_stream rfl (fun _ => rfl) (show run step ⟨terminal 256, [], []⟩ typing =
    some _ from rfl)
    (by simp [typing, Along, step, Kept, terminal, raw, sane, cook, Plain, Fits,
      isSignal, Tty.inputOne, Tty.edit,
      Tty.setattr, Tty.canonical, Tty.commitLine, Tty.ringPut, lineCap, endsMax])).1⟩

/-- Sixteen lines wait to be read when the terminal leaves canonical mode: the part of a line stays
behind. -/
theorem modes_lose_order : ∃ s,
    run step ⟨terminal 256, [], []⟩ (List.replicate 16 (.input 10) ++
      [.input 0x62, .setattr raw, .input 0x63, .take 20]) =
      some s ∧ s.typed = List.replicate 16 10 ++ [0x62, 0x63] ∧
      s.given = List.replicate 16 10 ++ [0x63] ∧
      s.tty.line = [0x62] :=
  ⟨_, rfl, rfl, rfl, rfl⟩

end Espix.Terminal.Modes
