import Espix.Ssh.Window

/-! The loop of `send_stream`, whatever its surroundings do. -/

namespace Espix.Ssh.Window

/-- What a turn of the loop meets: the lock, the channel, the window as `MIN` reads it, a second
time only where it is not larger than what is left, and the socket. If it waits, the window at the
last look of the wait, and the channel as it returns. -/
structure Turn where
  taken : Bool
  closed : Bool
  first : Nat
  second : Nat
  written : Bool
  seen : Nat
  shut : Bool

variable (config : Config)

def sendChunk (len : Nat) (turn : Turn) : Option Nat :=
  let chunk := capped config (if len < turn.first then len else turn.second)
  if chunk = 0 then some 0 else if turn.written then some chunk else none

/-- `wait_for_window` ends at a look that finds the window open, or with the channel closed. -/
def waitForWindow (turn : Turn) : Bool := turn.seen ≠ 0 && !turn.shut

/-- A call of `send_chunk`: the bytes that were left before it, and what it returned. -/
structure Pass where
  left : Nat
  turn : Turn
  sent : Option Nat

def sendStream : Nat → List Turn → List Pass
  | _, [] => []
  | len, turn :: turns =>
    if len = 0 ∨ turn.taken = false ∨ turn.closed then []
    else
      ⟨len, turn, sendChunk config len turn⟩ ::
        match sendChunk config len turn with
        | none => []
        | some n =>
          if n = 0 ∧ waitForWindow turn = false then []
          else sendStream ((len + 2 ^ 32 - n) % 2 ^ 32) turns

/-- After a wait a byte is sent or an error reported, and no chunk is larger than what is left. -/
structure Progress (len : Nat) (passes : List Pass) : Prop where
  waited : ∀ k a b, passes[k]? = some a → passes[k + 1]? = some b → a.sent = some 0 →
    b.sent ≠ some 0
  within : ∀ pass ∈ passes, ∀ n, pass.sent = some n → n ≤ pass.left
  turns : (passes.filter fun pass => pass.sent.any (0 < ·)).length ≤ len

/-- The peer takes no packets, or the window is closed at the look that counts. -/
def Pass.Barred (pass : Pass) : Prop :=
  config.peerMaxPacket = 0 ∨ pass.turn.first ≤ pass.left ∧ pass.turn.second = 0

/-- No two looks in a row, with a wait between them, are barred, and where the window has grown
beyond what is left between the two loads of one `MIN`, another limit holds or the write fails. -/
structure Steady (passes : List Pass) : Prop where
  opens : ∀ k a b, passes[k]? = some a → passes[k + 1]? = some b → a.Barred config →
    ¬b.Barred config
  grows : ∀ pass ∈ passes, pass.turn.written = true →
    pass.left < pass.turn.first ∨ capped config pass.turn.second ≤ pass.left

variable {config} {len : Nat} {turn : Turn} {turns : List Turn} {pass : Pass}

theorem sendStream_cases (config : Config) (len : Nat) (turn : Turn) (turns : List Turn) :
    sendStream config len (turn :: turns) = [] ∨
      ∃ rest, sendStream config len
      (turn :: turns) = ⟨len, turn, sendChunk config len turn⟩ :: rest ∧
        len ≠ 0 ∧ (rest = [] ∨ ∃ n, sendChunk config len turn = some n ∧
          rest = sendStream config ((len + 2 ^ 32 - n) % 2 ^ 32) turns) := by
  rw [sendStream]
  split
  · exact .inl rfl
  · rename_i going
    refine .inr ⟨_, rfl, fun zero => going (.inl zero), ?_⟩
    split
    · exact .inl rfl
    · rename_i n sent
      split
      · exact .inl rfl
      · exact .inr ⟨n, sent, rfl⟩

theorem mem_sendStream (member : pass ∈ sendStream config len turns) :
    pass.left ≠ 0 ∧ pass.sent = sendChunk config pass.left pass.turn := by
  induction turns generalizing len with
  | nil => cases member
  | cons turn turns ih =>
    rcases sendStream_cases config len turn turns with same | ⟨rest, same, some_left, after⟩
    · rw [same] at member
      cases member
    · rw [same] at member
      rcases List.mem_cons.mp member with rfl | member
      · exact ⟨some_left, rfl⟩
      · rcases after with rfl | ⟨n, -, rfl⟩
        · cases member
        · exact ih member

theorem sent_zero_iff (member : pass ∈ sendStream config len turns) :
    pass.sent = some 0 ↔ pass.Barred config := by
  obtain ⟨some_left, sent⟩ := mem_sendStream member
  rw [sent, Pass.Barred]
  unfold sendChunk capped maxPacket
  grind

theorem sent_within_iff (member : pass ∈ sendStream config len turns) :
    (∀ n, pass.sent = some n → n ≤ pass.left) ↔ (pass.turn.written = true →
      pass.left < pass.turn.first ∨ capped config pass.turn.second ≤ pass.left) := by
  obtain ⟨some_left, sent⟩ := mem_sendStream member
  rw [sent]
  unfold sendChunk capped
  grind

theorem turns_le (small : len < 2 ^ 32)
    (within : ∀ pass ∈ sendStream config len turns, ∀ n, pass.sent = some n → n ≤ pass.left) :
    ((sendStream config len turns).filter fun pass => pass.sent.any (0 < ·)).length ≤ len := by
  induction turns generalizing len with
  | nil => exact Nat.zero_le _
  | cons turn turns ih =>
    rcases sendStream_cases config len turn turns with same | ⟨rest, same, some_left, after⟩
    · rw [same]
      exact Nat.zero_le _
    · rw [same] at within ⊢
      have most := within _ (List.mem_cons_self ..)
      rcases after with rfl | ⟨n, sent, rfl⟩
      · exact (List.length_filter_le _ _).trans (Nat.one_le_iff_ne_zero.mpr some_left)
      · have shorter : (len + 2 ^ 32 - n) % 2 ^ 32 = len - n := by
          have least : n ≤ len := most n sent
          omega
        rw [shorter] at within ⊢
        have later := ih (by omega) fun pass member => within pass (List.mem_cons_of_mem _ member)
        rw [List.filter_cons, sent]
        split
        · rename_i more
          have more : 0 < n := by simpa using more
          rw [List.length_cons]
          omega
        · omega

theorem sendStream_progress_iff (small : len < 2 ^ 32) :
    Progress len (sendStream config len turns) ↔ Steady config (sendStream config len turns) := by
  have pair {k : Nat} {a : Pass} (there : (sendStream config len turns)[k]? = some a) :=
    sent_zero_iff (List.mem_of_getElem? there)
  constructor
  · refine fun progress => ⟨fun k a b here next barred => ?_, fun pass member => ?_⟩
    · rw [← pair next]
      exact progress.waited k a b here next ((pair here).mpr barred)
    · exact (sent_within_iff member).mp (progress.within pass member)
  · intro steady
    have within (pass : Pass) (member : pass ∈ sendStream config len turns) :=
      (sent_within_iff member).mpr (steady.grows pass member)
    refine ⟨fun k a b here next zero => ?_, within, turns_le small within⟩
    rw [ne_eq, pair next]
    exact steady.opens k a b here next ((pair here).mp zero)

def stuck : Config := ⟨fun _ => 0, 0, 1, 0, by decide⟩

def openTurn : Turn := ⟨true, false, 1, 1, true, 1, false⟩

/-- Two bytes through a window of one, which is closed at first. -/
theorem sendStream_progress_open :
    Progress 2 (sendStream { stuck with peerMaxPacket := 5 } 2
      [⟨true, false, 0, 0, true, 1, false⟩, openTurn, openTurn]) := by
  refine (sendStream_progress_iff (by decide)).mpr ⟨?_, by decide⟩
  rintro (_ | _ | k) a b here next - barred
  · cases next
    simp [Pass.Barred, openTurn] at barred
  · cases next
    simp [Pass.Barred, openTurn] at barred
  · cases next

/-- The peer takes no packets: the window is open, and the loop goes round for good. -/
theorem stream_stuck : ¬Progress 1 (sendStream stuck 1 [openTurn, openTurn]) ∧
    ∀ n, sendStream stuck 1 (List.replicate n openTurn) =
      List.replicate n ⟨1, openTurn, some 0⟩ := by
  refine ⟨fun progress => progress.waited 0 _ _ rfl rfl rfl rfl, fun n => ?_⟩
  induction n with
  | zero => rfl
  | succ n ih => exact congrArg (⟨1, openTurn, some 0⟩ :: ·) ih

end Espix.Ssh.Window
