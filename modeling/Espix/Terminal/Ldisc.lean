import Mathlib.Data.List.Basic

/-! The line discipline of `components/espix_tty/tty.c`, each function as it runs under the lock.

The ring is the list of its bytes: its positions run freely in 32 bits, and every size that is asked
for divides 2^32. Which signal a character sends is left out. -/

namespace Espix.Terminal.Ldisc

def lineCap : Nat := 255
def endsMax : Nat := 16
def chunkMax : Nat := 64

structure Termios where
  (istrip igncr icrnl inlcr isig icanon echo echoe echonl iexten noflsh : Bool)
  (vintr vquit vsusp verase vkill veof veol vmin vtime : UInt8)

def sane : Termios where
  istrip := false
  igncr := false
  icrnl := true
  inlcr := false
  isig := true
  icanon := true
  echo := true
  echoe := true
  echonl := false
  iexten := true
  noflsh := false
  vintr := 0x03
  vquit := 0x1c
  vsusp := 0x1a
  verase := 0x7f
  vkill := 0x15
  veof := 0x04
  veol := 0
  vmin := 1
  vtime := 0

structure Tty where
  pipe : Bool
  hung : Bool
  eofIn : Bool
  full : Bool
  tio : Termios
  cap : Nat
  ring : List UInt8
  /-- Where completed lines stop, counted from `rd`. -/
  ends : List Nat
  line : List UInt8

def terminal (inbuf : Nat) : Tty :=
  ⟨false, false, false, false, sane, max inbuf (lineCap + 1), [], [], []⟩

/-- And of a pipe, whose mode is all zero but that a read waits for a byte. -/
def pipeline (inbuf : Nat) : Tty :=
  { terminal inbuf with
    pipe := true
    tio := ⟨false, false, false, false, false, false, false, false, false, false,
      false, 0, 0, 0, 0, 0, 0, 0, 1, 0⟩ }

def Tty.canonical (t : Tty) : Bool := !t.pipe && t.tio.icanon

def Tty.avail (t : Tty) : Nat := if t.canonical then t.ends.headD 0 else t.ring.length

def Tty.ready (t : Tty) : Bool :=
  (if t.canonical then !t.ends.isEmpty else !t.ring.isEmpty) || t.hung || t.eofIn

def Tty.flush (t : Tty) : Tty := { t with ring := [], ends := [], line := [] }

def Tty.ringPut (t : Tty) (bytes : List UInt8) : Option Tty :=
  if t.cap - t.ring.length < bytes.length then none else some { t with ring := t.ring ++ bytes }

def Tty.commitLine (t : Tty) : Option Tty :=
  if t.ends.length = endsMax then none
  else (t.ringPut t.line).map fun u => { u with ends := u.ends ++ [u.ring.length], line := [] }

def Tty.commitOrDrop (t : Tty) : Tty := t.commitLine.getD { t with line := [] }

def echoChar (tio : Termios) (c : UInt8) : List UInt8 :=
  if !tio.echo then []
  else if c < 0x20 && c != 10 && c != 9 && tio.iexten then [0x5e, c + 0x40]
  else [c]

def rubOut : List UInt8 := [8, 0x20, 8]

def eraseOne (tio : Termios) (line : List UInt8) : List UInt8 × List UInt8 :=
  match line.reverse.dropWhile fun c => c &&& 0xc0 == 0x80 with
  | [] => ([], [])
  | c :: rest =>
    (rest.reverse,
      if tio.echo && tio.echoe then if c < 0x20 && tio.iexten then rubOut ++ rubOut
      else rubOut else [])

def eraseWhile (tio : Termios) (go : UInt8 → Bool) : Nat → List UInt8 → List UInt8 × List UInt8
  | 0, line => (line, [])
  | turns + 1, line =>
    if line.getLast?.any go then
      let (rest, out) := eraseOne tio line
      let (rest, more) := eraseWhile tio go turns rest
      (rest, out ++ more)
    else (line, [])

def cook (tio : Termios) (c : UInt8) : Option UInt8 :=
  let c := if tio.istrip then c &&& 0x7f else c
  if c = 13 then if tio.igncr then none else some (if tio.icrnl then 10 else 13)
  else some (if c = 10 && tio.inlcr then 13 else c)

def isSignal (tio : Termios) (c : UInt8) : Bool :=
  tio.isig && c != 0 && (c == tio.vintr || c == tio.vquit || c == tio.vsusp)

def Tty.edit (t : Tty) (c : UInt8) : Tty × List UInt8 :=
  let tio := t.tio
  if c = tio.verase || c = 8 then
    let (line, out) := eraseOne tio t.line
    ({ t with line }, out)
  else if c = tio.vkill then
    let (line, out) := eraseWhile tio (fun _ => true) t.line.length t.line
    ({ t with line }, out)
  else if c = 0x17 && tio.iexten then
    let (line, out) := eraseWhile tio (· == 0x20) t.line.length t.line
    let (line, more) := eraseWhile tio (· != 0x20) line.length line
    ({ t with line }, out ++ more)
  else if c = tio.veof && c != 0 then (t.commitOrDrop, [])
  else if c = 10 || (c = tio.veol && c != 0) then
    let line := if t.line.length = lineCap then t.line.dropLast else t.line
    ({ t with line := line ++ [c] }.commitOrDrop, if tio.echo || tio.echonl then [10] else [])
  else if t.line.length < lineCap - 1 then ({ t with line := t.line ++ [c] }, echoChar tio c)
  else (t, [])

/-- `input_one_locked`: what it echoes, and whether it sends a signal; none when a pipe is full. -/
def Tty.inputOne (t : Tty) (c : UInt8) : Option (Tty × List UInt8 × Bool) :=
  if t.pipe then (t.ringPut [c]).map fun u => (u, [], false)
  else
    match cook t.tio c with
    | none => some (t, [], false)
    | some c =>
      if isSignal t.tio c then some (if t.tio.noflsh then t else t.flush, echoChar t.tio c, true)
      else if t.tio.icanon then some ((t.edit c).1, (t.edit c).2, false)
      else
        match t.ringPut [c] with
        | some u => some (u, echoChar t.tio c, false)
        | none => some (t, [], false)

/-- What one turn of `espix_tty_input` did under the lock. `echo` is not cut yet to what its buffer
holds: each `echo_add` drops the end of what does not fit. -/
structure Turn where
  tty : Tty
  echo : List UInt8
  done : Nat
  stopped : Bool

def Tty.inputLoop : Tty → List UInt8 → Turn
  | t, [] => ⟨t, [], 0, false⟩
  | t, c :: bytes =>
    match t.inputOne c with
    | none => ⟨{ t with full := true }, [], 0, true⟩
    | some (u, echo, true) => ⟨u, echo, 1, false⟩
    | some (u, echo, false) =>
      let turn := u.inputLoop bytes
      { turn with echo := echo ++ turn.echo, done := turn.done + 1 }

def Tty.take (t : Tty) (len : Nat) : List UInt8 × Tty :=
  let n := min len t.avail
  let passed := if t.canonical then if t.ends.head?.any (· ≤ n) then t.ends.tail
    else t.ends else t.ends.dropWhile (· ≤ n)
  (t.ring.take n, { t with ring := t.ring.drop n, ends := passed.map (· - n) })

def Tty.setattr (t : Tty) (flush : Bool) (tio : Termios) : Tty :=
  let u := { t with tio }
  if flush then u.flush
  else if t.canonical && !u.canonical && !t.line.isEmpty then u.commitLine.getD u
  else u

variable {t u : Tty} {c : UInt8} {bytes : List UInt8}

theorem Tty.flush_commitOrDrop (t : Tty) : t.commitOrDrop.flush = t.flush := by
  grind [Tty.commitOrDrop, Tty.commitLine, Tty.ringPut, Tty.flush]

theorem Tty.flush_edit (t : Tty) (c : UInt8) : (t.edit c).1.flush = t.flush := by
  unfold Tty.edit
  grind [Tty.flush, Tty.flush_commitOrDrop]

theorem Tty.flush_inputOne {echo : List UInt8} {signal : Bool}
    (next : t.inputOne c = some (u, echo, signal)) :
    u.flush = t.flush := by
  unfold Tty.inputOne at next
  grind [Tty.flush, Tty.flush_edit, Tty.ringPut]

theorem Tty.flush_inputLoop (t : Tty) (bytes : List UInt8) :
    (t.inputLoop bytes).tty.flush =
    { t.flush with full := t.full || (t.inputLoop bytes).stopped } := by
  fun_induction Tty.inputLoop t bytes with
  | case1 => simp [Tty.flush]
  | case2 => simp [Tty.flush]
  | case3 t c bytes u echo next =>
    have := Tty.flush_inputOne next
    simp [Tty.flush] at this ⊢
    grind
  | case4 t c bytes u echo next turn ih =>
    have := Tty.flush_inputOne next
    simp [Tty.flush] at this ih ⊢
    grind

theorem Tty.flush_setattr (t : Tty) (flush : Bool) (tio : Termios) :
    (t.setattr flush tio).flush = { t.flush with tio } := by
  grind [Tty.setattr, Tty.commitLine, Tty.ringPut, Tty.flush]

theorem Tty.inputLoop_pipe (pipe : t.pipe = true) :
    (t.inputLoop bytes).tty.ring = t.ring ++ bytes.take (t.inputLoop bytes).done ∧
      ((t.inputLoop bytes).stopped = true → t.cap ≤ (t.inputLoop bytes).tty.ring.length) := by
  fun_induction Tty.inputLoop t bytes with
  | case1 => simp
  | case2 t c bytes full =>
    simp [Tty.inputOne, pipe, Tty.ringPut] at full ⊢
    omega
  | case3 t c bytes u echo next => simp [Tty.inputOne, pipe] at next
  | case4 t c bytes u echo next turn ih =>
    simp [Tty.inputOne, pipe, Tty.ringPut] at next
    obtain ⟨room, rfl, rfl⟩ := next
    simpa using ih rfl

theorem Tty.inputLoop_terminal (kind : t.pipe = false) : (t.inputLoop bytes).stopped = false := by
  fun_induction Tty.inputLoop t bytes with
  | case1 => rfl
  | case2 t c bytes full =>
    unfold Tty.inputOne at full
    grind
  | case3 t c bytes u echo next => rfl
  | case4 t c bytes u echo next turn ih =>
      exact ih ((congrArg Tty.pipe (Tty.flush_inputOne next)).trans kind)

end Espix.Terminal.Ldisc
