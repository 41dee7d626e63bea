import Espix.Auth.Accounts

/-! Who may become root: `espix_auth_may_sudo` and the list `ensure_sudoers` seeds.

The file is read through a buffer of `ESPIX_USER_MAX + 8` characters, and each buffer
is taken for a line. What a line says and what its buffers say are kept apart here. -/

namespace Espix.Auth.Sudo

open Lib.CText Accounts

/-- `fgets` keeps one character of `line` for the terminator. -/
def lineRoom : Nat := userMax + 8 - 1

def isBlank (c : Char) : Bool := c = ' ' || c = '\t' || c = '\r' || c = '\n'

def word (buffer : List Char) : List Char :=
  ((cstr buffer).takeWhile (· != '#')).takeWhile (!isBlank ·)

def grants (files : Files) (user : List Char) : List Char → Bool
  | [] => false
  | '%' :: group => inGroup files user group
  | name => name == user

def found (files : Files) (user buffer : List Char) : Bool := grants files user (word buffer)

def maySudo (files : Files) (user : List Char) : Bool :=
  user != [] && (fgetsAll lineRoom (files.sudoers.getD [])).any (found files user)

def seededSudoers : List Char :=
  ("# Who may run commands as root: an account name per line,\n" ++
    "# or %name for every member of a group.\n" ++ "%sudo\n").toList

def ensureSudoers (creatable : Bool) (files : Files) : Files :=
  match files.sudoers with
  | some _ => files
  | none => if creatable then { files with sudoers := some seededSudoers } else files

/-! The list as it reads. -/

def lines (files : Files) : List (List Char) := (files.sudoers.getD []).splitOn '\n'

/-- The first blank-delimited word of a line, comments aside. -/
def firstWord (line : List Char) : List Char :=
  ((line.takeWhile (· != '#')).dropWhile isBlank).takeWhile (!isBlank ·)

/-- A word that names the user, or a group the user belongs to. -/
def lists (files : Files) (user : List Char) (entry : List Char) : Bool :=
  entry == user ||
    match entry with
    | '%' :: group => inGroup files user group
    | _ => false

def Listed (files : Files) (user : List Char) : Prop :=
  ∃ line ∈ lines files, lists files user (firstWord line) = true

def indented (line : List Char) : Bool := line.head?.any isBlank

/-- A word with a percent sign is taken for a group's, and never for the user's own name. -/
def honours (files : Files) (user entry : List Char) : Bool :=
  if entry.head? = some '%' then inGroup files user entry.tail else entry == user

/-- A line honours the user at its very start. -/
def Plain (files : Files) (user : List Char) : Prop :=
  ∃ line ∈ lines files, indented line = false ∧ honours files user (firstWord line) = true

/-- An entry lists the user and is passed over: it is indented, or it is the name of a user that
starts with a percent sign. -/
def Missed (files : Files) (user : List Char) : Prop :=
  ∃ line ∈ lines files, lists files user (firstWord line) = true ∧
    (indented line = true ∨ honours files user (firstWord line) = false)

/-- A later part of a long line honours the user, as if it were a line. -/
def Tail (files : Files) (user : List Char) : Prop :=
  ∃ line ∈ lines files, ∃ piece ∈ chunks lineRoom (line.drop lineRoom),
    indented piece = false ∧ honours files user (firstWord piece) = true

instance (files : Files) (user : List Char) : Decidable (Listed files user) :=
  inferInstanceAs (Decidable (∃ line ∈ lines files, lists files user (firstWord line) = true))

section Words

variable {files : Files} {user : List Char}

def wordChar (c : Char) : Bool := c != '\x00' && c != '#' && !isBlank c

theorem word_eq (buffer : List Char) : word buffer = buffer.takeWhile wordChar := by
  simp only [word, cstr, List.takeWhile_takeWhile]
  congr 1
  funext c
  simp only [wordChar]
  cases c != '\x00' <;> cases c != '#' <;> cases isBlank c <;> simp

theorem word_newline (piece : List Char) : word (piece ++ ['\n']) = word piece := by
  have stops : ['\n'].takeWhile wordChar = [] := by decide
  simp only [word_eq, List.takeWhile_append, stops, List.append_nil]
  split
  · rename_i whole
    exact ((List.takeWhile_prefix wordChar).eq_of_length whole).symm
  · rfl

theorem word_take (line : List Char) (n : Nat) : word (line.take n) = (word line).take n := by
  simp only [word_eq, List.take_takeWhile]

theorem grants_long (short : user.length < userMax) {entry : List Char}
    (long : userMax < entry.length) : grants files user entry = false := by
  rw [grants.eq_def]
  split
  · rfl
  · rename_i group
    simp only [List.length_cons] at long
    exact inGroup_long (by omega)
  · have different : entry ≠ user := by
      rintro rfl
      omega
    simpa using different

theorem grants_take (short : user.length < userMax) (entry : List Char) :
    grants files user (entry.take lineRoom) = grants files user entry := by
  rcases Nat.lt_or_ge lineRoom entry.length with long | fits
  · have longer : userMax < entry.length := by
      simp only [lineRoom, userMax] at *
      omega
    have longer' : userMax < (entry.take lineRoom).length := by
      simp only [List.length_take, lineRoom, userMax] at *
      omega
    rw [grants_long short longer, grants_long short longer']
  · rw [List.take_of_length_le fits]

theorem lists_of_honours {entry : List Char} (honoured : honours files user entry = true) :
    lists files user entry = true := by
  cases entry with
  | nil => simpa [honours, lists] using honoured
  | cons c entry =>
    by_cases group : c = '%'
    · subst group
      simp only [honours, List.head?_cons, if_true, List.tail_cons] at honoured
      simp [lists, honoured]
    · simp only [honours, List.head?_cons, Option.some.injEq, group, if_false] at honoured
      simp [lists, honoured]

theorem grants_eq (named : user ≠ []) (entry : List Char) :
    grants files user entry = honours files user entry := by
  rw [grants.eq_def, honours]
  split
  · simpa using named.symm
  · simp
  · rename_i other
    cases entry with
    | nil => rfl
    | cons c entry =>
      rw [if_neg]
      rintro ⟨⟩
      exact other entry rfl

/-- A buffer is read at its start alone. -/
theorem found_iff (named : user ≠ []) {line : List Char} (text : '\x00' ∉ line) :
    found files user line = true ↔
      indented line = false ∧ honours files user (firstWord line) = true := by
  rw [found, grants_eq named, word, firstWord, cstr_of_no_nul text]
  cases line with
  | nil => simp [indented]
  | cons c rest =>
    by_cases blank : isBlank c = true
    · have unhashed : c ≠ '#' := by
        rintro rfl
        cases blank
      simpa [indented, blank, unhashed, honours] using named
    · rw [List.takeWhile_cons]
      split
      · rw [List.dropWhile_cons_of_neg (by simp [blank])]
        simp [indented, blank]
      · simp [indented, blank]

theorem listed_iff : Listed files user ↔ Plain files user ∨ Missed files user := by
  constructor
  · rintro ⟨line, member, listed⟩
    by_cases plain : indented line = false ∧ honours files user (firstWord line) = true
    · exact .inl ⟨line, member, plain⟩
    · refine .inr ⟨line, member, listed, ?_⟩
      rwa [not_and_or, Bool.not_eq_false, Bool.not_eq_true] at plain
  · rintro (⟨line, member, -, honoured⟩ | ⟨line, member, listed, -⟩)
    · exact ⟨line, member, lists_of_honours honoured⟩
    · exact ⟨line, member, listed⟩

end Words

theorem maySudo_iff {files : Files} {user : List Char} (named : user ≠ [])
    (short : user.length < userMax) (text : '\x00' ∉ files.sudoers.getD []) :
    maySudo files user = true ↔ Plain files user ∨ Tail files user := by
  have room : 0 < lineRoom := by decide
  have blank : found files user [] = false := rfl
  have newline : ∀ piece, found files user (piece ++ ['\n']) = found files user piece :=
    fun piece => by rw [found, found, word_newline]
  have first : ∀ line, found files user (line.take lineRoom) = found files user line :=
    fun line => by rw [found, found, word_take, grants_take short]
  have each : ∀ line ∈ lines files, (chunks lineRoom line).any (found files user) = true ↔
      (indented line = false ∧ honours files user (firstWord line) = true) ∨
        ∃ piece ∈ chunks lineRoom (line.drop lineRoom),
          indented piece = false ∧ honours files user (firstWord piece) = true := by
    intro line member
    have no_nul : '\x00' ∉ line := fun inside => text (mem_of_mem_splitOn member inside)
    rw [chunks_any room blank, first, Bool.or_eq_true, List.any_eq_true, found_iff named no_nul]
    refine or_congr_right (exists_congr fun piece => and_congr_right fun inside => ?_)
    obtain ⟨i, -, rfl⟩ := List.mem_map.mp inside
    exact found_iff named fun nul =>
      no_nul (List.mem_of_mem_drop (List.mem_of_mem_drop (List.mem_of_mem_take nul)))
  rw [maySudo, fgetsAll_any room newline blank, Bool.and_eq_true, List.any_eq_true]
  constructor
  · rintro ⟨-, line, member, granted⟩
    exact ((each line member).mp granted).imp (fun plain => ⟨line, member, plain⟩)
      fun tail => ⟨line, member, tail⟩
  · rintro (⟨line, member, plain⟩ | ⟨line, member, tail⟩)
    · exact ⟨bne_iff_ne.mpr named, line, member, (each line member).mpr (.inl plain)⟩
    · exact ⟨bne_iff_ne.mpr named, line, member, (each line member).mpr (.inr tail)⟩

/-- Only the group `sudo` is listed, and only `esp` is in it. -/
def freshFiles : Files :=
  { passwd := some "root:!:0:0:/\nesp:!:1000:1000:/home/esp\n".toList
    group := some "root:0:\nsudo:27:esp\nesp:1000:\n".toList
    sudoers := none }

end Espix.Auth.Sudo
