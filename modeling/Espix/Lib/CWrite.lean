import Espix.Lib.CText

/-! Text files as C programs write them, and that the readers get back what was written:
numbers, bytes in hex, the fields of a line, and the lines of a file. -/

namespace Espix.Lib.CWrite

open CText

def decimal (n : Nat) : List Char := Nat.toDigits 10 n

def hexPair (b : UInt8) : List Char := [Nat.digitChar (b.toNat / 16), Nat.digitChar (b.toNat % 16)]

def hex (bytes : List UInt8) : List Char := bytes.flatMap hexPair

variable {n : Nat} {c : Char} {text : List Char}

section Numbers

def Plain (c : Char) : Prop := isSpace c = false ∧ c ≠ '-' ∧ c ≠ '+'

instance (c : Char) : Decidable (Plain c) :=
  inferInstanceAs (Decidable (isSpace c = false ∧ c ≠ '-' ∧ c ≠ '+'))

theorem digitChar_hex {d : Nat} (small : d < 16) :
    digitOf 16 (Nat.digitChar d) = some d ∧ Plain (Nat.digitChar d) := by
  decide +revert

theorem digitChar_decimal {d : Nat} (small : d < 10) :
    digitOf 10 (Nat.digitChar d) = some d ∧ Plain (Nat.digitChar d) := by
  decide +revert

theorem exists_digit (member : c ∈ decimal n) : ∃ d < 10, c = Nat.digitChar d := by
  have digit := Nat.isDigit_of_mem_toDigits (by decide) (by decide) member
  rw [Char.isDigit, Bool.and_eq_true, decide_eq_true_eq, decide_eq_true_eq] at digit
  have low : 48 ≤ c.toNat := digit.1
  have high : c.toNat ≤ 57 := digit.2
  refine ⟨c.toNat - 48, by omega, Char.toNat_inj.mp ?_⟩
  rw [Nat.toNat_digitChar_of_lt_ten (by omega)]
  omega

theorem strtoul_digits {base : Nat} {digits : List Char} (some_digits : digits ≠ [])
    (inside : ∀ c ∈ digits, (digitOf base c).isSome = true ∧ Plain c)
    (value : digits.foldl (fun v c => v * base + (digitOf base c).getD 0) 0 = n)
    (small : n < 4294967296) : strtoul base digits = some (n, []) := by
  obtain ⟨first, rest, rfl⟩ := List.exists_cons_of_ne_nil some_digits
  obtain ⟨-, no_space, no_minus, no_plus⟩ := inside first List.mem_cons_self
  have whole : (first :: rest).takeWhile (fun c => (digitOf base c).isSome) = first :: rest :=
    List.takeWhile_eq_self_iff.mpr fun c member => (inside c member).1
  have nothing : (first :: rest).dropWhile (fun c => (digitOf base c).isSome) = [] :=
    List.dropWhile_eq_nil_iff.mpr fun c member => (inside c member).1
  rw [strtoul, List.dropWhile_cons_of_neg (by simp [no_space])]
  split
  rename_i negative text signless
  split at signless
  · rename_i same
    exact absurd (List.cons.inj same).1 no_minus
  · rename_i same
    exact absurd (List.cons.inj same).1 no_plus
  · cases signless
    simp only [whole, nothing, value, if_neg (Nat.not_le_of_lt small), Bool.false_eq_true, if_false]

theorem strtoul_lt {base : Nat} {rest : List Char} (read : strtoul base text = some (n, rest)) :
    n < 4294967296 := by
  rw [strtoul] at read
  split at read
  split at read
  · cases read
  · rename_i negative text' _ _ _
    generalize (text'.takeWhile fun c => (digitOf base c).isSome).foldl
      (fun v c => v * base + (digitOf base c).getD 0) 0 = value at read
    dsimp only at read
    split at read
    · cases read
      decide
    · rename_i small
      split at read
      · cases read
        exact Nat.mod_lt _ (by decide)
      · cases read
        omega

theorem decimal_ne_nil (n : Nat) : decimal n ≠ [] := Nat.toDigits_ne_nil

theorem strtoul_decimal (small : n < 4294967296) : strtoul 10 (decimal n) = some (n, []) := by
  have value : (decimal n).foldl (fun v c => v * 10 + (digitOf 10 c).getD 0) 0 =
      Nat.ofDigitChars 10 (decimal n) 0 := by
    apply List.foldl_ext
    intro v c member
    obtain ⟨d, low, rfl⟩ := exists_digit member
    rw [(digitChar_decimal low).1, Nat.toNat_digitChar_of_lt_ten low, Option.getD_some,
      Nat.mul_comm]
    exact congrArg _ (Nat.add_sub_cancel_left 48 d).symm
  apply strtoul_digits (decimal_ne_nil n) _ _ small
  · intro c member
    obtain ⟨d, low, rfl⟩ := exists_digit member
    exact ⟨by rw [(digitChar_decimal low).1]; rfl, (digitChar_decimal low).2⟩
  · rw [value, decimal, Nat.ofDigitChars_toDigits (by decide) (by decide)]

theorem length_decimal {k : Nat} (some_digits : 0 < k) (small : n < 10 ^ k) :
    (decimal n).length ≤ k :=
  (Nat.length_toDigits_le_iff (by decide) some_digits).mpr small

theorem decimal_apart {delims : List Char} (apart : ∀ d < 10, Nat.digitChar d ∉ delims) :
    ∀ c ∈ decimal n, c ∉ delims := by
  intro c member
  obtain ⟨d, low, rfl⟩ := exists_digit member
  exact apart d low

theorem strtoul_hexPair (b : UInt8) : strtoul 16 (hexPair b) = some (b.toNat, []) := by
  have high : b.toNat / 16 < 16 := by
    have := b.toNat_lt
    omega
  have low : b.toNat % 16 < 16 := Nat.mod_lt _ (by decide)
  apply strtoul_digits (List.cons_ne_nil _ _)
  · intro c member
    rcases List.mem_cons.mp member with rfl | second
    · exact ⟨by rw [(digitChar_hex high).1]; rfl, (digitChar_hex high).2⟩
    · rw [List.mem_singleton.mp second]
      exact ⟨by rw [(digitChar_hex low).1]; rfl, (digitChar_hex low).2⟩
  · simp only [List.foldl_cons, List.foldl_nil, (digitChar_hex high).1, (digitChar_hex low).1,
      Option.getD_some]
    omega
  · have := b.toNat_lt
    omega

theorem length_hex (bytes : List UInt8) : (hex bytes).length = 2 * bytes.length := by
  induction bytes with
  | nil => rfl
  | cons b bytes ih =>
    rw [hex, List.flatMap_cons, List.length_append, ← hex, ih, List.length_cons]
    simp only [hexPair, List.length_cons, List.length_nil]
    omega

theorem hex_apart {bytes : List UInt8} {delims : List Char}
    (apart : ∀ d < 16, Nat.digitChar d ∉ delims) :
    ∀ c ∈ hex bytes, c ∉ delims := by
  intro c member
  obtain ⟨b, -, digit⟩ := List.mem_flatMap.mp member
  have high : b.toNat / 16 < 16 := by
    have := b.toNat_lt
    omega
  rcases List.mem_cons.mp digit with rfl | second
  · exact apart _ high
  · rw [List.mem_singleton.mp second]
    exact apart _ (Nat.mod_lt _ (by decide))

end Numbers

section Fields

variable {delims : List Char}

theorem strtok_field {field : List Char} {d : Char} (some_text : field ≠ [])
    (apart : ∀ c ∈ field, c ∉ delims) (ends : d ∈ delims) (rest : List Char) :
    strtok delims (field ++ d :: rest) = (some field, rest) := by
  obtain ⟨first, more, rfl⟩ := List.exists_cons_of_ne_nil some_text
  have start : first ∉ delims := apart first List.mem_cons_self
  have taken : (first :: more ++ d :: rest).takeWhile (!delims.contains ·) = first :: more := by
    rw [List.takeWhile_append_of_pos (fun c member => by simpa using apart c member),
      List.takeWhile_cons_of_neg (by simpa using ends), List.append_nil]
  have left : (first :: more ++ d :: rest).dropWhile (!delims.contains ·) = d :: rest := by
    rw [List.dropWhile_append_of_pos (fun c member => by simpa using apart c member),
      List.dropWhile_cons_of_neg (by simpa using ends)]
  rw [List.cons_append] at taken left
  rw [strtok, List.cons_append, List.dropWhile_cons_of_neg (by simpa using start)]
  simp only [taken, left, List.drop_succ_cons, List.drop_zero]

theorem strtok_last {field : List Char} (some_text : field ≠ []) (apart : ∀ c ∈ field, c ∉ delims) :
    strtok delims field = (some field, []) := by
  obtain ⟨first, more, rfl⟩ := List.exists_cons_of_ne_nil some_text
  have start : first ∉ delims := apart first List.mem_cons_self
  have taken : (first :: more).takeWhile (!delims.contains ·) = first :: more :=
    List.takeWhile_eq_self_iff.mpr fun c member => by simpa using apart c member
  have left : (first :: more).dropWhile (!delims.contains ·) = [] :=
    List.dropWhile_eq_nil_iff.mpr fun c member => by simpa using apart c member
  rw [strtok, List.dropWhile_cons_of_neg (by simpa using start)]
  simp only [taken, left, List.drop_nil]

theorem strtok_none (all : ∀ c ∈ text, c ∈ delims) : strtok delims text = (none, []) := by
  have nothing : text.dropWhile (delims.contains ·) = [] :=
    List.dropWhile_eq_nil_iff.mpr fun c member => by simpa using all c member
  rw [strtok, nothing]

theorem strtok_start (delims text : List Char) (start : ∀ c, text.head? = some c → c ∉ delims)
    (some_text : text ≠ []) : (strtok delims text).1 =
    some (text.takeWhile (!delims.contains ·)) := by
  obtain ⟨first, more, rfl⟩ := List.exists_cons_of_ne_nil some_text
  have outside : first ∉ delims := start first rfl
  rw [strtok, List.dropWhile_cons_of_neg (by simpa using outside)]

theorem strtok_some {field : List Char} (found : (strtok delims text).1 = some field) :
    field ≠ [] ∧ (∀ c ∈ field, c ∉ delims) ∧ ∃ before after, text = before ++ field ++ after ∧
      (after = [] ∧ (strtok delims text).2 = [] ∨
        ∃ d ∈ delims, after = d :: (strtok delims text).2) := by
  have whole := List.takeWhile_append_dropWhile (p := (delims.contains ·)) (l := text)
  rw [strtok] at found ⊢
  split at found
  · cases found
  · rename_i c more left
    have start : c ∉ delims := by
      have first := List.head?_dropWhile_not (delims.contains ·) text
      rw [left] at first
      simpa using first
    have halves := List.takeWhile_append_dropWhile (p := (!delims.contains ·)) (l := c :: more)
    cases found
    dsimp only
    refine ⟨?_, ?_, text.takeWhile (delims.contains ·), (c :: more).dropWhile (!delims.contains ·),
      ?_, ?_⟩
    · rw [List.takeWhile_cons_of_pos (by simpa using start)]
      exact List.cons_ne_nil _ _
    · intro d member
      simpa using List.mem_takeWhile_imp member
    · rw [List.append_assoc, halves, ← left, whole]
    · cases after : (c :: more).dropWhile (!delims.contains ·) with
      | nil => exact .inl ⟨rfl, rfl⟩
      | cons d rest =>
        have stop := List.head?_dropWhile_not (!delims.contains ·) (c :: more)
        rw [after] at stop
        exact .inr ⟨d, by simpa using stop, rfl⟩

theorem strtok_nil (delims : List Char) : strtok delims [] = (none, []) := strtok_none nofun

theorem strtok_mem {field : List Char} (found : (strtok delims text).1 = some field)
    (member : c ∈ field) : c ∈ text := by
  obtain ⟨-, -, before, after, rfl, -⟩ := strtok_some found
  simp [member]

theorem strtok_rest_mem (member : c ∈ (strtok delims text).2) : c ∈ text := by
  cases found : (strtok delims text).1 with
  | none =>
    rw [strtok] at found member
    split at found
    · rename_i left
      simp only [left] at member
      cases member
    · cases found
  | some field =>
    obtain ⟨-, -, before, after, whole, ends⟩ := strtok_some found
    rcases ends with ⟨-, nothing⟩ | ⟨d, -, rfl⟩
    · rw [nothing] at member
      cases member
    · rw [whole]
      simp [member]

end Fields

variable {line : List Char}

section Lines

def Line (line : List Char) : Prop := ∀ before after, line = before ++ '\n' :: after → after = []

theorem Line.of_append {rest : List Char} (whole : Line (line ++ rest)) : Line line := by
  rintro before after rfl
  have nothing := whole before (after ++ rest) (by simp)
  exact (List.append_eq_nil_iff.mp nothing).1

theorem line_fgets (n : Nat) (text : List Char) : Line (fgets n text).1 := by
  induction n generalizing text with
  | zero => simp [fgets, Line]
  | succ n ih =>
    cases text with
    | nil => simp [fgets, Line]
    | cons c text =>
      simp only [fgets]
      split
      · rename_i newline
        intro before after whole
        cases before with
        | nil => exact ((List.cons.inj whole).2).symm
        | cons b before => simp at whole
      · rename_i other
        intro before after whole
        cases before with
        | nil => exact absurd (List.cons.inj whole).1 other
        | cons b before => exact ih text before after (List.cons.inj whole).2

theorem line_of_mem_reads {fuel : Nat} (member : line ∈ reads n fuel text) : Line line := by
  induction fuel generalizing text with
  | zero => cases member
  | succ fuel ih =>
    cases text with
    | nil => cases member
    | cons c text =>
      rcases List.mem_cons.mp member with rfl | later
      · exact line_fgets n _
      · exact ih later

theorem line_cstr (whole : Line line) : Line (cstr line) := by
  rw [← List.takeWhile_append_dropWhile (p := (· != '\x00')) (l := line)] at whole
  exact whole.of_append

theorem cstr_no_nul (buffer : List Char) : '\x00' ∉ cstr buffer := by
  intro member
  have inside := List.mem_takeWhile_imp member
  simp at inside

theorem Line.field {delims field : List Char} (whole : Line line)
    (found : (strtok delims line).1 = some field) (more : (strtok delims line).2 ≠ []) :
    '\n' ∉ field := by
  intro member
  obtain ⟨x, y, rfl⟩ := List.append_of_mem member
  obtain ⟨-, -, before, after, rfl, ends⟩ := strtok_some found
  have last := whole (before ++ x) (y ++ after) (by simp)
  obtain ⟨-, nothing⟩ := List.append_eq_nil_iff.mp last
  rcases ends with ⟨-, rest⟩ | ⟨d, -, follows⟩
  · exact more rest
  · rw [nothing] at follows
    cases follows

theorem fgetsAll_written {lines : List (List Char)}
    (each : ∀ line ∈ lines, '\n' ∉ line ∧ line.length < n) :
    fgetsAll n (lines.flatMap (· ++ ['\n'])) = lines.map (· ++ ['\n']) := by
  induction lines with
  | nil => rfl
  | cons line lines ih =>
    obtain ⟨⟨no_newline, short⟩, later⟩ := List.forall_mem_cons.mp each
    have room : 0 < n := by omega
    rw [List.flatMap_cons, List.append_assoc, List.singleton_append,
      fgetsAll_eq room (by simp), fgets_line no_newline short, ih later, List.map_cons]

end Lines

end Espix.Lib.CWrite
