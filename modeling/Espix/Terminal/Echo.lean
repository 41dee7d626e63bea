import Mathlib.Data.Bool.Basic
import Espix.Lib.Run
import Espix.Terminal.Ldisc

/-! What a terminal shows of the line that is typed: the echo of `tty.c`, and the buffer it is
collected in. -/

namespace Espix.Terminal.Echo

open Lib.Run Ldisc

def echoMax : Nat := 3 * chunkMax

def echoAdd (buf out : List UInt8) : List UInt8 := buf ++ out.take (echoMax - buf.length)

def trails (c : UInt8) : Bool := c &&& 0xc0 == 0x80

/-- What a terminal shows of the row, and how far it is in a backspace, a space and a backspace. -/
structure Screen where
  row : List UInt8
  back : Nat

def rub (row : List UInt8) : List UInt8 := (row.reverse.dropWhile trails).tail.reverse

def Screen.put (s : Screen) (c : UInt8) : Screen :=
  if c = 8 then if s.back = 2 then ⟨rub s.row, 0⟩ else ⟨s.row, 1⟩
  else if c = 0x20 ∧ s.back = 1 then ⟨s.row, 2⟩
  else if c = 10 then ⟨[], 0⟩
  else ⟨s.row ++ [c], 0⟩

structure State where
  tty : Tty
  left : Nat
  echo : List UInt8
  screen : Screen

def boot (inbuf : Nat) (tio : Termios) : State :=
  ⟨{ terminal inbuf with tio }, chunkMax, [], ⟨[], 0⟩⟩

inductive Event
  | input (c : UInt8)
  | send
  | take (len : Nat)

def step (s : State) : Event → Option State
  | .input c =>
    if s.left = 0 then none
    else
      (s.tty.inputOne c).map fun (u, out, signal) =>
        { s with tty := u, left := if signal then 0 else s.left - 1, echo := echoAdd s.echo out }
  | .send =>
      some { s with left := chunkMax, echo := [], screen := s.echo.foldl Screen.put s.screen }
  | .take len => some { s with tty := (s.tty.take len).2 }

def text (tio : Termios) (line : List UInt8) : List UInt8 := line.flatMap (echoChar tio)

/-- No tab is shown with a caret, and no UTF-8 sequence begins in its middle. -/
def Shown (tio : Termios) (line : List UInt8) (c : UInt8) : Prop :=
  (c = 9 → tio.iexten = false) ∧ (trails c = true → line ≠ [])

def columns (tio : Termios) (line : List UInt8) : Nat :=
  ((text tio line).filter fun c => !trails c).length

/-- The line without the characters at its end that stop in a byte of some kind. -/
def rubWhile (go : UInt8 → Bool) : Nat → List UInt8 → List UInt8
  | 0, line => line
  | turns + 1, line => if line.getLast?.any go then rubWhile go turns (rub line) else line

def rubWord (line : List UInt8) : List UInt8 :=
  let line := rubWhile (· == 0x20) line.length line
  rubWhile (· != 0x20) line.length line

/-- How much a character has echoed: three bytes for each column it takes off the line, and else the
character or a new line. -/
def cost (tio : Termios) (line : List UInt8) (c : UInt8) : Nat :=
  if c = tio.verase || c = 8 then 3 * (columns tio line - columns tio (rub line))
  else if c = tio.vkill then 3 * columns tio line
  else if c = 0x17 && tio.iexten then 3 * (columns tio line - columns tio (rubWord line))
  else if c = tio.veof && c != 0 then 0
  else if c = 10 || (c = tio.veol && c != 0) then 1
  else if line.length < lineCap - 1 then (echoChar tio c).length
  else 0

/-- The character is none that edits or ends a line, and there is room for it. -/
def typed (tio : Termios) (line : List UInt8) (c : UInt8) : Bool :=
  !(c = tio.verase || c = 8) && c != tio.vkill && !(c = 0x17 && tio.iexten) &&
    !(c = tio.veof && c != 0) && !(c = 10 || (c = tio.veol && c != 0)) && line.length < lineCap - 1

/-- There is no signal, and no end of file on a line; what goes onto the line is shown, and there is
room for the echo behind what the turn has echoed. -/
def Kept (s : State) : Event → Prop
  | .input c => ∀ d, cook s.tty.tio c = some d → isSignal s.tty.tio d = false ∧
      (d = s.tty.tio.veof ∧ d ≠ 0 → s.tty.line = []) ∧
      (typed s.tty.tio s.tty.line d = true → Shown s.tty.tio s.tty.line d) ∧
      s.echo.length + cost s.tty.tio s.tty.line d ≤ echoMax
  | _ => True

/-- A line of whole characters. -/
inductive Good (tio : Termios) : List UInt8 → Prop
  | nil : Good tio []
  | char {line more : List UInt8} {c : UInt8} (good : Good tio line) (plain : c ≠ 10 ∧
      (c = 9 → tio.iexten = false))
      (first : trails c = false) (rest : ∀ d ∈ more, trails d = true) : Good tio (line ++ c :: more)

variable {tio : Termios} {line line' out more row : List UInt8} {c : UInt8} {t : Tty}

theorem caret {c : UInt8} (control : c < 0x20) :
    trails c = false ∧ c + 0x40 ≠ 8 ∧ c + 0x40 ≠ 10 ∧ trails (c + 0x40) = false := by
  have each : ∀ n < 32, trails (.ofNat n) = false ∧ UInt8.ofNat n + 0x40 ≠ 8 ∧
    UInt8.ofNat n + 0x40 ≠ 10 ∧
      trails (.ofNat n + 0x40) = false := by decide
  have := each c.toNat control
  rwa [UInt8.ofNat_toNat] at this

theorem put_echo (on : tio.echo = true) (plain : c ≠ 8 ∧ c ≠ 10) :
    (echoChar tio c).foldl Screen.put ⟨row, 0⟩ = ⟨row ++ echoChar tio c, 0⟩ := by
  have shown := @caret c
  simp only [echoChar, on]
  split
  · contradiction
  · split
    · rename_i control
      simp only [Bool.and_eq_true, decide_eq_true_eq] at control
      simp [Screen.put, shown control.1.1.1]
    · simp [Screen.put, plain]

theorem rub_last (first : trails c = false) (rest : ∀ d ∈ more, trails d = true) :
    rub (row ++ c :: more) = row := by
  have rest' : ∀ d ∈ more.reverse, trails d = true :=
    fun d member => rest d (List.mem_reverse.mp member)
  simp [rub, List.dropWhile_append_of_pos rest', first]

theorem put_rubOut : rubOut.foldl Screen.put ⟨row, 0⟩ = ⟨rub row, 0⟩ := rfl

/-- This echo takes the line as it is shown to the other one. -/
def Shows (tio : Termios) (line out line' : List UInt8) : Prop :=
  Good tio line → out.foldl Screen.put ⟨text tio line, 0⟩ = ⟨text tio line', 0⟩ ∧ Good tio line'

theorem Shows.trans {line'' : List UInt8} (first : Shows tio line out line')
    (second : Shows tio line' more line'') :
    Shows tio line (out ++ more) line'' := by
  intro good
  obtain ⟨shown, still⟩ := first good
  rw [List.foldl_append, shown]
  exact second still

theorem text_trails (on : tio.echo = true) (rest : ∀ d ∈ more, trails d = true) :
    text tio more = more := by
  have each : ∀ d ∈ more, echoChar tio d = [d] := fun d member => by
    have control := @caret d
    grind [echoChar]
  exact (List.flatMap_congr each).trans (List.flatMap_singleton' more)

theorem eraseOne_last (on : tio.echo = true) (erases : tio.echoe = true) (first : trails c = false)
    (rest : ∀ d ∈ more, trails d = true) : eraseOne tio (line ++ c :: more) =
      (line, if c < 0x20 && tio.iexten then rubOut ++ rubOut else rubOut) := by
  have rest' : ∀ d ∈ more.reverse, (d &&& 0xc0 == 0x80) = true :=
    fun d member => rest d (List.mem_reverse.mp member)
  have first' : (c &&& 0xc0 == 0x80) = false := first
  simp [eraseOne, List.dropWhile_append_of_pos rest', first', on, erases]

theorem text_last (on : tio.echo = true) (rest : ∀ d ∈ more, trails d = true) :
    text tio (line ++ c :: more) = text tio line ++ (echoChar tio c ++ more) := by
  have same := text_trails on rest
  simp only [text] at same ⊢
  simp [same]

theorem echoChar_good (on : tio.echo = true) (plain : c ≠ 10 ∧ (c = 9 → tio.iexten = false)) :
    echoChar tio c = if c < 0x20 && tio.iexten then [0x5e, c + 0x40] else [c] := by
  grind [echoChar]

theorem shows_eraseOne (on : tio.echo = true) (erases : tio.echoe = true) (line : List UInt8) :
    Shows tio line (eraseOne tio line).2 (eraseOne tio line).1 := by
  intro good
  cases good with
  | nil => exact ⟨rfl, .nil⟩
  | @char before more c good plain first rest =>
    rw [eraseOne_last on erases first rest, text_last on rest, echoChar_good on plain]
    refine ⟨?_, good⟩
    split
    · rename_i control
      simp only [Bool.and_eq_true, decide_eq_true_eq] at control
      have letter : rub (text tio before ++ [0x5e] ++ (c + 0x40) :: more) = text tio before ++
          [0x5e] :=
        rub_last (caret control.1).2.2.2 rest
      have hat : rub (text tio before ++ [0x5e]) = text tio before := rub_last rfl (by simp)
      rw [List.append_assoc] at letter
      exact congrArg (Screen.mk · 0) ((congrArg rub letter).trans hat)
    · rw [put_rubOut, List.singleton_append, rub_last first rest]

theorem shows_eraseWhile (on : tio.echo = true) (erases : tio.echoe = true)
    (go : UInt8 → Bool) (turns : Nat)
    (line : List UInt8) : Shows tio line (eraseWhile tio go turns line).2
    (eraseWhile tio go turns line).1 := by
  induction turns generalizing line with
  | zero => exact fun good => ⟨rfl, good⟩
  | succ turns ih =>
    unfold eraseWhile
    split
    · exact (shows_eraseOne on erases line).trans (ih _)
    · exact fun good => ⟨rfl, good⟩

theorem eraseOne_cost (on : tio.echo = true) (erases : tio.echoe = true) (good : Good tio line) :
    (eraseOne tio line).1 = rub line ∧ Good tio (rub line) ∧
      (eraseOne tio line).2.length + 3 * columns tio (rub line) = 3 * columns tio line := by
  cases good with
  | nil => exact ⟨rfl, .nil, rfl⟩
  | @char before more c good plain first rest =>
    have still : more.filter (fun d => !trails d) = [] := by
      simpa [List.filter_eq_nil_iff] using rest
    rw [eraseOne_last on erases first rest, rub_last first rest, columns, columns,
      text_last on rest,
      echoChar_good on plain]
    refine ⟨rfl, good, ?_⟩
    split
    · rename_i control
      simp only [Bool.and_eq_true, decide_eq_true_eq] at control
      have letter := (caret control.1).2.2.2
      simp [rubOut, still, letter, show trails 0x5e = false from rfl]
      omega
    · simp [rubOut, still, first]
      omega

theorem eraseWhile_cost (on : tio.echo = true) (erases : tio.echoe = true) (go : UInt8 → Bool)
    (turns : Nat)
    (good : Good tio line) : (eraseWhile tio go turns line).1 = rubWhile go turns line ∧
      Good tio (rubWhile go turns line) ∧
      (eraseWhile tio go turns line).2.length + 3 * columns tio (rubWhile go turns line) =
        3 * columns tio line := by
  induction turns generalizing line with
  | zero => exact ⟨rfl, good, Nat.zero_add _⟩
  | succ turns ih =>
    unfold eraseWhile rubWhile
    split
    · obtain ⟨one, still, less⟩ := eraseOne_cost on erases good
      obtain ⟨rest, good, more⟩ := ih still
      dsimp only
      rw [one]
      refine ⟨rest, good, ?_⟩
      rw [List.length_append]
      omega
    · exact ⟨rfl, good, Nat.zero_add _⟩

theorem edit_cost (on : t.tio.echo = true) (erases : t.tio.echoe = true)
    (good : Good t.tio t.line) :
    (t.edit c).2.length ≤ cost t.tio t.line c := by
  have one := eraseOne_cost on erases good
  have all := eraseWhile_cost on erases (fun _ => true) t.line.length good
  have blanks := eraseWhile_cost on erases (· == 0x20) t.line.length good
  have word :=
    eraseWhile_cost on erases (· != 0x20)
    (rubWhile (· == 0x20) t.line.length t.line).length blanks.2.1
  unfold Tty.edit cost rubWord
  grind

theorem Good.type (good : Good tio line) (plain : c ≠ 10) (shown : Shown tio line c) :
    Good tio (line ++ [c]) := by
  cases trailing : trails c with
  | false => exact good.char ⟨plain, shown.1⟩ trailing (by simp)
  | true =>
    cases good with
    | nil => exact absurd rfl (shown.2 trailing)
    | char good before first rest =>
      rw [List.append_assoc, List.cons_append]
      exact good.char before first (by simpa [or_imp, forall_and] using ⟨rest, trailing⟩)

theorem commitOrDrop_line (t : Tty) : t.commitOrDrop.line = [] := by
  grind [Tty.commitOrDrop, Tty.commitLine, Tty.ringPut]

theorem shows_edit (on : t.tio.echo = true) (erases : t.tio.echoe = true)
    (eof : c = t.tio.veof ∧ c ≠ 0 → t.line = [])
    (shown : typed t.tio t.line c = true → Shown t.tio t.line c) :
    Shows t.tio t.line (t.edit c).2 (t.edit c).1.line := by
  revert shown
  fun_cases Tty.edit t c with
  | case1 tio erase line out one =>
    have := shows_eraseOne on erases t.line
    exact fun _ => by rwa [one] at this
  | case2 tio _ kill line out all =>
    have := shows_eraseWhile on erases (fun _ => true) t.line.length t.line
    exact fun _ => by rwa [all] at this
  | case3 tio _ _ word line out blanks line' out' letters =>
    have first := shows_eraseWhile on erases (· == 0x20) t.line.length t.line
    have second := shows_eraseWhile on erases (· != 0x20) line.length line
    rw [blanks] at first
    rw [letters] at second
    exact fun _ => first.trans second
  | case4 tio _ _ _ ends =>
    intro _ _
    simp only [commitOrDrop_line, eof (by simpa using ends)]
    exact ⟨rfl, .nil⟩
  | case5 tio =>
    intro _ _
    simp only [commitOrDrop_line, tio, on, Bool.true_or, if_true]
    exact ⟨rfl, .nil⟩
  | case6 tio erase kill word eof ends room =>
    intro shown good
    have types : typed t.tio t.line c = true := by grind [typed]
    simp only [Bool.or_eq_true, decide_eq_true_eq, not_or] at erase ends
    refine ⟨?_, good.type ends.1 (shown types)⟩
    simp [put_echo on ⟨erase.2, ends.1⟩, text, tio]
  | case7 => exact fun _ good => ⟨rfl, good⟩

structure Inv (tio : Termios) (s : State) : Prop where
  kind : s.tty.pipe = false
  mode : s.tty.tio = tio
  good : Good tio s.tty.line
  shown : s.echo.foldl Screen.put s.screen = ⟨text tio s.tty.line, 0⟩

variable {s s' : State} {e : Event}

theorem inv_step (canon : tio.icanon = true) (on : tio.echo = true) (erases : tio.echoe = true)
    (inv : Inv tio s)
    (kept : Kept s e) (next : step s e = some s') : Inv tio s' := by
  obtain ⟨kind, rfl, good, shown⟩ := inv
  cases e with
  | send | take =>
    cases next
    exact ⟨kind, rfl, good, shown⟩
  | input c =>
    simp only [step, Option.ite_none_left_eq_some, Option.map_eq_some_iff] at next
    obtain ⟨-, ⟨u, out, signal⟩, one, rfl⟩ := next
    have frame := Tty.flush_inputOne one
    simp only [Tty.inputOne, kind, canon] at one
    cases cooked : cook s.tty.tio c with
    | none =>
      simp [cooked] at one
      obtain ⟨rfl, rfl, -⟩ := one
      exact ⟨kind, rfl, good, by simpa [echoAdd] using shown⟩
    | some d =>
      obtain ⟨quiet, eof, typed, fits⟩ := kept d cooked
      simp [cooked, quiet] at one
      obtain ⟨rfl, rfl, -⟩ := one
      obtain ⟨after, still⟩ := shows_edit on erases eof typed good
      refine ⟨(congrArg Tty.pipe frame).trans kind, (congrArg Tty.tio frame).trans rfl, still, ?_⟩
      have most := edit_cost (c := d) on erases good
      have whole : (s.tty.edit d).2.take (echoMax - s.echo.length) = (s.tty.edit d).2 :=
        List.take_of_length_le (by omega)
      dsimp only [echoAdd]
      rw [whole, List.foldl_append, shown, after]

theorem echo_shows_line {inbuf : Nat} {es : List Event} (canon : tio.icanon = true)
    (on : tio.echo = true)
    (erases : tio.echoe = true) (done : run step (boot inbuf tio) es = some s)
    (kept : Along step Kept (boot inbuf tio) es) : (s.echo.foldl Screen.put s.screen).row =
    text tio s.tty.line := by
  have inv :=
    run_invariant_along (P := Inv tio) (fun _ _ _ inv ok next =>
      inv_step canon on erases inv ok next) kept
    done ⟨rfl, rfl, .nil, rfl⟩
  rw [inv.shown]

def typing : List Event := [.input 0x61, .input 0x01, .send, .input 0x7f]

theorem echo_shows_line_typing : ∃ s, run step (boot 256 sane) typing = some s ∧
    s.screen.row = [0x61, 0x5e, 0x41] ∧
    (s.echo.foldl Screen.put s.screen).row = text sane s.tty.line :=
  ⟨_, rfl, rfl, echo_shows_line rfl rfl rfl (show run step (boot 256 sane) typing = some _ from rfl)
    (by
      simp [typing, Along, step, Kept, boot, terminal, sane, cook, isSignal, Shown,
        trails, chunkMax, echoMax, echoAdd,
        Tty.inputOne, Tty.edit, eraseOne, echoChar, rubOut, lineCap]
      decide)⟩

/-- A line of 65 letters is killed: the buffer holds the echo for 64 of them. -/
theorem echo_cut : ∃ s, run step (boot 256 sane)
      (List.replicate 64 (.input 0x61) ++
        [.send, .input 0x61, .send, .input 0x15, .send]) = some s ∧
    s.tty.line = [] ∧ s.echo = [] ∧ s.screen.row = [0x61] :=
  ⟨_, rfl, rfl, rfl, by decide +kernel⟩

end Espix.Terminal.Echo
