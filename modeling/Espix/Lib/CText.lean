import Mathlib.Data.List.Basic
import Mathlib.Data.List.TakeWhile
import Mathlib.Tactic

/-! Text files as C programs read them: a buffer at a time, then a token at a time.

A stream is read in pieces that end at a line's end or at the buffer's. What is
asked of every piece is therefore asked of every buffer-sized chunk of every line. -/

namespace Espix.Lib.CText

def cstr (buffer : List Char) : List Char := buffer.takeWhile (· != '\x00')

variable {text : List Char}

theorem cstr_of_no_nul (no_nul : '\x00' ∉ text) : cstr text = text := by
  rw [cstr, List.takeWhile_eq_self_iff]
  intro c member
  have different : c ≠ '\x00' := fun same => no_nul (same ▸ member)
  simpa using different

/-- `fgets` with room for `n` characters: what lands in the buffer, and what is left. -/
def fgets : Nat → List Char → List Char × List Char
  | 0, text => ([], text)
  | _ + 1, [] => ([], [])
  | n + 1, c :: rest =>
    if c = '\n' then ([c], rest) else (c :: (fgets n rest).1, (fgets n rest).2)

def reads (n : Nat) : Nat → List Char → List (List Char)
  | 0, _ => []
  | _ + 1, [] => []
  | fuel + 1, c :: rest => (fgets n (c :: rest)).1 :: reads n fuel (fgets n (c :: rest)).2

/-- The buffers of a loop over `fgets` until the end of the file. -/
def fgetsAll (n : Nat) (text : List Char) : List (List Char) := reads n text.length text

def chunks {α : Type*} (n : Nat) (xs : List α) : List (List α) :=
  (List.range ((xs.length + n - 1) / n)).map fun i => (xs.drop (i * n)).take n

/-- `strtok`: the token, and the state the next call goes on from. -/
def strtok (delims : List Char) (s : List Char) : Option (List Char) × List Char :=
  match s.dropWhile (delims.contains ·) with
  | [] => (none, [])
  | c :: rest =>
    (some ((c :: rest).takeWhile (!delims.contains ·)),
      ((c :: rest).dropWhile (!delims.contains ·)).drop 1)

def isSpace (c : Char) : Bool := c = ' ' || ('\t' ≤ c && c ≤ '\r')

def digitOf (base : Nat) (c : Char) : Option Nat :=
  let value :=
    if '0' ≤ c ∧ c ≤ '9' then c.toNat - '0'.toNat
    else if 'a' ≤ c ∧ c ≤ 'z' then c.toNat - 'a'.toNat + 10
    else if 'A' ≤ c ∧ c ≤ 'Z' then c.toNat - 'A'.toNat + 10
    else base
  if value < base then some value else none

/-- `strtoul` of a 32-bit `unsigned long`: the value, and what follows the digits.
Too large a number is the largest one, and a minus sign negates modulo `2 ^ 32`. -/
def strtoul (base : Nat) (s : List Char) : Option (Nat × List Char) :=
  let (negative, s) := match s.dropWhile isSpace with
    | '-' :: rest => (true, rest)
    | '+' :: rest => (false, rest)
    | rest => (false, rest)
  match s.takeWhile fun c => (digitOf base c).isSome with
  | [] => none
  | digits =>
    let value := digits.foldl (fun v c => v * base + (digitOf base c).getD 0) 0
    let rest := s.dropWhile fun c => (digitOf base c).isSome
    if 4294967296 ≤ value then some (4294967295, rest)
    else if negative then some ((4294967296 - value) % 4294967296, rest)
    else some (value, rest)

variable {line : List Char}

section Reads

variable {n : Nat}

/-- Either the whole line fits with its newline, or the buffer fills up first. -/
theorem fgets_line (no_newline : '\n' ∉ line) (short : line.length < n)
    (rest : List Char) : fgets n (line ++ '\n' :: rest) = (line ++ ['\n'], rest) := by
  induction line generalizing n with
  | nil =>
    cases n with
    | zero => simp at short
    | succ n => simp [fgets]
  | cons c line ih =>
    cases n with
    | zero => simp at short
    | succ n =>
      obtain ⟨other, no_newline⟩ := not_or.mp (List.mem_cons.not.mp no_newline)
      have room : line.length < n := by simpa using short
      have tail := ih no_newline room
      simp [fgets, Ne.symm other, tail]

theorem fgets_cut (no_newline : '\n' ∉ text.take n) :
    fgets n text = (text.take n, text.drop n) := by
  induction n generalizing text with
  | zero => simp [fgets]
  | succ n ih =>
    cases text with
    | nil => simp [fgets]
    | cons c text =>
      rw [List.take_succ_cons] at no_newline
      obtain ⟨other, no_newline⟩ := not_or.mp (List.mem_cons.not.mp no_newline)
      simp [fgets, Ne.symm other, ih no_newline]

theorem fgets_rest_length (text : List Char) : (fgets n text).2.length ≤ text.length := by
  induction n generalizing text with
  | zero => simp [fgets]
  | succ n ih =>
    cases text with
    | nil => simp [fgets]
    | cons c text =>
      have shorter := ih text
      simp only [fgets]
      split
      · simp
      · simp only [List.length_cons]
        omega

theorem fgets_progress (room : 0 < n) (c : Char) (text : List Char) :
    (fgets n (c :: text)).2.length ≤ text.length := by
  obtain ⟨m, rfl⟩ : ∃ m, n = m + 1 := ⟨n - 1, by omega⟩
  simp only [fgets]
  split
  · exact le_refl _
  · exact fgets_rest_length text

theorem reads_fuel (room : 0 < n) {fuel : Nat} (enough : text.length ≤ fuel) :
    reads n fuel text = fgetsAll n text := by
  induction fuel using Nat.strong_induction_on generalizing text with
  | _ fuel ih =>
    cases text with
    | nil => cases fuel <;> rfl
    | cons c text =>
      obtain ⟨fuel, rfl⟩ : ∃ f, fuel = f + 1 := ⟨fuel - 1, by simp at enough; omega⟩
      simp only [List.length_cons, Nat.add_le_add_iff_right] at enough
      have progress := fgets_progress room c text
      rw [fgetsAll, List.length_cons, reads, reads, ih fuel (by omega) (by omega),
        ← ih text.length (by omega) progress]

theorem fgetsAll_nil : fgetsAll n [] = [] := rfl

theorem fgetsAll_eq (room : 0 < n) (more : text ≠ []) :
    fgetsAll n text = (fgets n text).1 :: fgetsAll n (fgets n text).2 := by
  obtain ⟨c, rest, rfl⟩ := List.exists_cons_of_ne_nil more
  rw [fgetsAll, List.length_cons, reads, reads_fuel room (fgets_progress room c rest)]

end Reads

section Chunks

variable {α : Type*} {n : Nat}

theorem chunks_nil (room : 0 < n) : chunks n ([] : List α) = [] := by
  simp [chunks, room]

theorem chunks_eq (room : 0 < n) {xs : List α} (more : xs ≠ []) :
    chunks n xs = xs.take n :: chunks n (xs.drop n) := by
  have count : (xs.length + n - 1) / n = ((xs.drop n).length + n - 1) / n + 1 := by
    have some_left := List.length_pos_of_ne_nil more
    rw [List.length_drop]
    rcases Nat.lt_or_ge xs.length n with short | long
    · rw [Nat.sub_eq_zero_of_le short.le, Nat.div_eq_of_lt (a := 0 + n - 1) (by omega),
        Nat.div_eq_of_lt_le] <;> omega
    · rw [← Nat.add_div_right _ room]
      congr 1
      omega
  rw [chunks, chunks, count, List.range_succ_eq_map, List.map_cons, List.map_map]
  refine congrArg₂ _ (by simp) (List.map_congr_left fun i _ => ?_)
  simp [List.drop_drop, Nat.add_mul, Nat.add_comm]

theorem chunks_any (room : 0 < n) {asked : List α → Bool} (blank : asked [] = false) (xs : List α) :
    (chunks n xs).any asked = (asked (xs.take n) || (chunks n (xs.drop n)).any asked) := by
  by_cases empty : xs = []
  · simp [empty, chunks_nil room, blank]
  · rw [chunks_eq room empty, List.any_cons]

end Chunks

section Lines

variable {n : Nat} {asked : List Char → Bool}

theorem fgetsAll_line_any (room : 0 < n) (newline : ∀ piece, asked (piece ++ ['\n']) = asked piece)
    (blank : asked [] = false) (no_newline : '\n' ∉ line) (rest : List Char) :
    (fgetsAll n (line ++ '\n' :: rest)).any asked =
      ((chunks n line).any asked || (fgetsAll n rest).any asked) := by
  induction measured : line.length using Nat.strong_induction_on generalizing line with
  | _ length ih =>
    have more : line ++ '\n' :: rest ≠ [] := by simp
    rw [fgetsAll_eq room more]
    rcases Nat.lt_or_ge line.length n with short | long
    · rw [fgets_line no_newline short, List.any_cons, newline]
      have all : line.drop n = [] := List.drop_eq_nil_of_le short.le
      rw [chunks_any room blank, all, chunks_nil room, List.take_of_length_le short.le,
        List.any_nil, Bool.or_false]
    · have first : (line ++ '\n' :: rest).take n = line.take n := List.take_append_of_le_length long
      have after : (line ++ '\n' :: rest).drop n = line.drop n ++ '\n' :: rest :=
        List.drop_append_of_le_length long
      have left : '\n' ∉ line.take n := fun member => no_newline (List.mem_of_mem_take member)
      have right : '\n' ∉ line.drop n := fun member => no_newline (List.mem_of_mem_drop member)
      have tail := ih (line.drop n).length (by rw [List.length_drop]; omega) right rfl
      rw [fgets_cut (by rw [first]; exact left), first, after, List.any_cons, tail,
        chunks_any room blank line, Bool.or_assoc]

theorem fgetsAll_last_any (room : 0 < n) (no_newline : '\n' ∉ line) :
    (fgetsAll n line).any asked = (chunks n line).any asked := by
  induction measured : line.length using Nat.strong_induction_on generalizing line with
  | _ length ih =>
    by_cases empty : line = []
    · rw [empty, fgetsAll_nil, chunks_nil room]
    · have left : '\n' ∉ line.take n := fun member => no_newline (List.mem_of_mem_take member)
      have some_left := List.length_pos_of_ne_nil empty
      have right : '\n' ∉ line.drop n := fun member => no_newline (List.mem_of_mem_drop member)
      have tail := ih (line.drop n).length (by rw [List.length_drop]; omega) right rfl
      rw [fgetsAll_eq room empty, fgets_cut left, chunks_eq room empty, List.any_cons,
        List.any_cons, tail]

/-- A question that a newline does not change the answer to is asked, in the end, of
every chunk of every line. -/
theorem fgetsAll_any (room : 0 < n) (newline : ∀ piece, asked (piece ++ ['\n']) = asked piece)
    (blank : asked [] = false) (text : List Char) :
    (fgetsAll n text).any asked =
      (text.splitOn '\n').any fun line => (chunks n line).any asked := by
  induction measured : text.length using Nat.strong_induction_on generalizing text with
  | _ length ih =>
    by_cases last : '\n' ∈ text
    · obtain ⟨line, rest, rfl, no_newline⟩ := List.eq_append_cons_of_mem last
      have shorter : rest.length < length := by
        rw [← measured, List.length_append, List.length_cons]
        omega
      rw [fgetsAll_line_any room newline blank no_newline, ih rest.length shorter rest rfl,
        List.splitOn_append_cons_self_of_not_mem no_newline, List.any_cons]
    · rw [List.splitOn_eq_singleton last, fgetsAll_last_any room last]
      simp

/-- Where a part of a split text stands: a separator, or nothing, follows it. -/
theorem exists_of_mem_splitOn {part : List Char} {sep : Char} (is_part : part ∈ text.splitOn sep) :
    ∃ pre post, text = pre ++ part ++ post ∧ (∀ c, post.head? = some c → c = sep) ∧ sep ∉ part := by
  induction measured : text.length using Nat.strong_induction_on generalizing text with
  | _ length ih =>
    by_cases last : sep ∈ text
    · obtain ⟨first, rest, rfl, no_sep⟩ := List.eq_append_cons_of_mem last
      rw [List.splitOn_append_cons_self_of_not_mem no_sep] at is_part
      rcases List.mem_cons.mp is_part with rfl | later
      · exact ⟨[], sep :: rest, rfl, fun c head => by simpa using head.symm, no_sep⟩
      · have shorter : rest.length < length := by
          rw [← measured, List.length_append, List.length_cons]
          omega
        obtain ⟨pre, post, rfl, follows⟩ := ih _ shorter later rfl
        exact ⟨first ++ sep :: pre, post, by simp, follows⟩
    · rw [List.splitOn_eq_singleton last, List.mem_singleton] at is_part
      exact ⟨[], [], by simp [is_part], by simp, is_part ▸ last⟩

theorem sep_notMem_of_mem_splitOn {part : List Char} {sep : Char}
    (is_part : part ∈ text.splitOn sep) : sep ∉ part := by
  obtain ⟨-, -, -, -, apart⟩ := exists_of_mem_splitOn is_part
  exact apart

theorem mem_of_mem_splitOn {c : Char} (is_line : line ∈ text.splitOn '\n')
    (member : c ∈ line) : c ∈ text := by
  obtain ⟨pre, post, rfl, -⟩ := exists_of_mem_splitOn is_line
  simp [member]

end Lines

section Rewriting

def room (out : List Char) : Nat := if out = [] then 0 else out.length + 1

/-- Parts that are written one after the other, with separators between them. -/
theorem room_foldl {write : List Char → List Char → List Char}
    (step : ∀ out seg, room (write out seg) ≤ room out + (seg.length + 1))
    (segs : List (List Char)) (out : List Char) :
    room (segs.foldl write out) ≤ room out + (segs.map fun seg => seg.length + 1).sum := by
  induction segs generalizing out with
  | nil => simp
  | cons seg segs ih =>
    have first := step out seg
    have rest := ih (write out seg)
    rw [List.foldl_cons, List.map_cons, List.sum_cons]
    omega

theorem sum_splitOn (text : List Char) (sep : Char) :
    ((text.splitOn sep).map fun seg => seg.length + 1).sum = text.length + 1 := by
  induction measured : text.length using Nat.strong_induction_on generalizing text with
  | _ length ih =>
    by_cases more : sep ∈ text
    · obtain ⟨first, rest, rfl, no_sep⟩ := List.eq_append_cons_of_mem more
      rw [List.length_append, List.length_cons] at measured
      rw [List.splitOn_append_cons_self_of_not_mem no_sep, List.map_cons, List.sum_cons,
        ih rest.length (by omega) rest rfl]
      omega
    · rw [List.splitOn_eq_singleton more]
      simpa using measured

end Rewriting

end Espix.Lib.CText
