import Espix.Auth.Accounts
import Espix.Lib.CWrite
import Espix.Lib.Scan

/-! Writing accounts and groups back: `load_all`, `store_all`, `groups_store` and the line of
each record in `components/espix_auth/auth.c`.

Every change rewrites a whole file from what was read of it, so what counts is which records
survive: those whose name does not start like a comment. -/

namespace Espix.Auth.Store

open Lib.CText Lib.CWrite Accounts

/-- A line that `load_all` and `groups_load` pass over. -/
def Skipped (first : Option Char) : Prop :=
  first = some '#' ∨ first = some '\n' ∨ first = some '\r'

/-- A line that `find_record` passes over. -/
def Comment (first : Option Char) : Prop := first = some '#' ∨ first = some '\n'

theorem Comment.skipped {first : Option Char} (comment : Comment first) : Skipped first :=
  Or.imp_right .inl comment

instance : DecidablePred Skipped := fun first =>
  inferInstanceAs (Decidable (first = some '#' ∨ first = some '\n' ∨ first = some '\r'))

instance : DecidablePred Comment := fun first =>
  inferInstanceAs (Decidable (first = some '#' ∨ first = some '\n'))

def accounts (files : Files) : List Record :=
  (fileLines files.passwd).filterMap fun line => if Comment line.head? then none else parseLine line

def loadable (files : Files) : List Record :=
  (fileLines files.passwd).filterMap fun line => if Skipped line.head? then none else parseLine line

def loadAll (files : Files) : List Record := (loadable files).take maxAccounts

def groups (files : Files) : List Group :=
  (fileLines files.group).filterMap fun line => if Skipped line.head? then none
  else parseGroupLine line

theorem groupsLoad_eq (files : Files) : groupsLoad files = (groups files).take maxGroups := rfl

def hashField (r : Record) : List Char :=
  if r.locked then lockedTag
  else algoTag ++ (decimal r.iters ++ '$' :: (hex r.salt ++ '$' :: hex r.hash))

def recordLine (r : Record) : List Char :=
  r.name ++
  ':' :: (hashField r ++ ':' :: (decimal r.uid ++ ':' :: (decimal r.gid ++ ':' :: r.home)))

def formatRecord (r : Record) : List Char := (recordLine r ++ ['\n']).take (lineMaxLen - 1)

def groupLine (g : Group) : List Char := g.name ++ ':' :: (decimal g.gid ++ ':' :: g.members)

structure Io where
  passwd : Bool
  group : Bool

def storeAll (recs : List Record) (files : Files) : Files :=
  { files with passwd := some (recs.flatMap formatRecord) }

def groupsStore (gs : List Group) (files : Files) : Files :=
  { files with group := some (gs.flatMap fun g => groupLine g ++ ['\n']) }

variable {n : Nat} {line : List Char}

section Records

structure Fits (name : List Char) : Prop where
  some_text : name ≠ []
  short : name.length < userMax
  inside : ∀ c ∈ name, c ≠ ':' ∧ c ≠ '\n' ∧ c ≠ '\x00'

/-- A record that is read, or that is about to be written. -/
structure Stored (r : Record) : Prop where
  name : Fits r.name
  home : r.home ≠ [] ∧ r.home.length < homeMax
  home_start : ∀ c, r.home.head? = some c → c ∉ fieldEnd
  home_inside : ∀ c ∈ r.home, c ≠ '\n' ∧ c ≠ '\x00'
  ids : r.uid ≤ 65535 ∧ r.gid ≤ 65535
  barred : r.locked = true →
    r.iters = 0 ∧ r.salt = List.replicate saltLen 0 ∧ r.hash = List.replicate hashLen 0
  hashed : r.locked = false →
    0 < r.iters ∧ r.iters < 4294967296 ∧ r.salt.length = saltLen ∧ r.hash.length = hashLen

/-- The record as it is read back: a home ends where the line seems to. -/
def reread (r : Record) : Record := { r with home := r.home.takeWhile (!fieldEnd.contains ·) }

variable {r : Record}

theorem Fits.not_comment {name : List Char} (fits : Fits name) (plain : name.head? ≠ some '#') :
    ¬ Comment name.head? := by
  rintro (hash | newline)
  · exact plain hash
  · exact (fits.inside '\n' (List.mem_of_mem_head? newline)).2.1 rfl

theorem strlcpy_short {size : Nat} {s : List Char} (short : s.length < size) : strlcpy size s = s :=
  List.take_of_length_le (by omega)

theorem parseId_decimal (small : n ≤ 65535) : parseId (some (decimal n)) = some n := by
  simp only [parseId, strtoul_decimal (Nat.lt_of_le_of_lt small (by decide)),
    if_neg (Nat.not_lt.mpr small)]

theorem fromHex_hex (bytes : List UInt8) : fromHex bytes.length (hex bytes) = some bytes := by
  induction bytes with
  | nil => rfl
  | cons b bytes ih =>
    have pair := strtoul_hexPair b
    rw [hexPair] at pair
    rw [hex, List.flatMap_cons, ← hex, hexPair, List.cons_append, List.cons_append, List.nil_append,
      List.length_cons, fromHex, pair]
    simp only [ih, Option.map_some, UInt8.ofNat_toNat]

def breaks : List Char := [':', '\n', '\x00']

theorem tags_inside : (∀ c ∈ lockedTag, c ∉ breaks) ∧ ∀ c ∈ algoTag, c ∉ breaks := by
  decide +kernel

theorem hashField_inside (r : Record) : ∀ c ∈ hashField r, c ∉ breaks := by
  have salt : ∀ c ∈ hex r.salt, c ∉ breaks := hex_apart (by decide)
  have hash : ∀ c ∈ hex r.hash, c ∉ breaks := hex_apart (by decide)
  have dollar : '$' ∉ breaks := by decide
  unfold hashField
  split
  · exact tags_inside.1
  · simp only [List.forall_mem_append, List.forall_mem_cons]
    exact ⟨tags_inside.2, decimal_apart (by decide), dollar, salt, dollar, hash⟩

theorem hashField_ne_nil (r : Record) : hashField r ≠ [] := by
  have tags : lockedTag ≠ [] ∧ algoTag ≠ [] := by decide +kernel
  unfold hashField
  split
  · exact tags.1
  · exact List.append_ne_nil_of_left_ne_nil tags.2 _

theorem length_hashField (stored : Stored r) : (hashField r).length ≤ 123 := by
  unfold hashField
  split
  · decide +kernel
  · rename_i open_
    obtain ⟨-, small, salt, hash⟩ := stored.hashed (by simpa using open_)
    have digits := length_decimal (n := r.iters) (k := 10) (by decide) (by omega)
    have tag : algoTag.length = 15 := by decide +kernel
    simp only [List.length_append, List.length_cons, length_hex, salt, hash, tag, saltLen, hashLen]
    omega

theorem length_recordLine (stored : Stored r) : (recordLine r).length < lineMaxLen - 1 := by
  have name := stored.name.short
  have home := stored.home.2
  have field := length_hashField stored
  have uid := length_decimal (n := r.uid) (k := 5) (by decide) (by have := stored.ids.1; omega)
  have gid := length_decimal (n := r.gid) (k := 5) (by decide) (by have := stored.ids.2; omega)
  simp only [recordLine, List.length_append, List.length_cons, lineMaxLen, userMax, homeMax] at *
  omega

theorem formatRecord_eq (stored : Stored r) : formatRecord r = recordLine r ++ ['\n'] := by
  have short := length_recordLine stored
  apply List.take_of_length_le
  simp only [List.length_append, List.length_singleton]
  omega

theorem strtok_hash (stored : Stored r) (open_ : r.locked = false) :
    (hashField r).drop algoTag.length = decimal r.iters ++
    '$' :: (hex r.salt ++ '$' :: hex r.hash) ∧
      strtok ['$'] (decimal r.iters ++ '$' :: (hex r.salt ++ '$' :: hex r.hash)) =
        (some (decimal r.iters), hex r.salt ++ '$' :: hex r.hash) ∧
      strtok ['$'] (hex r.salt ++ '$' :: hex r.hash) = (some (hex r.salt), hex r.hash) ∧
      strtok ['$'] (hex r.hash) = (some (hex r.hash), []) := by
  obtain ⟨-, -, salt, hash⟩ := stored.hashed open_
  have some_bytes {bytes : List UInt8} {n : Nat} (length : bytes.length = n + 1) :
      hex bytes ≠ [] := by
    intro empty
    have none := length_hex bytes
    rw [empty, length, List.length_nil] at none
    omega
  have digits : ∀ c ∈ decimal r.iters, c ∉ ['$'] := decimal_apart (by decide)
  have pairs (bytes : List UInt8) : ∀ c ∈ hex bytes, c ∉ ['$'] := hex_apart (by decide)
  have delim : '$' ∈ ['$'] := List.mem_singleton_self _
  refine ⟨?_, strtok_field (decimal_ne_nil _) digits delim _,
    strtok_field (some_bytes salt) (pairs _) delim _, strtok_last (some_bytes hash) (pairs _)⟩
  rw [hashField, if_neg (by simp [open_]), List.drop_left]

def blankRecord (r : Record) : Record :=
  { name := r.name, iters := 0, salt := List.replicate saltLen 0, hash := List.replicate hashLen 0,
    home := r.home, uid := r.uid, gid := r.gid, locked := false }

theorem parseHash_hashField (stored : Stored r) (home : List Char) :
    parseHash (blankRecord { r with home }) (hashField r) = some { r with home } := by
  cases locked : r.locked with
  | true =>
    obtain ⟨iters, salt, hash⟩ := stored.barred locked
    rw [hashField, if_pos locked, parseHash, if_pos rfl]
    simp only [blankRecord, iters, salt, hash]
  | false =>
    obtain ⟨some_iters, small, salt, hash⟩ := stored.hashed locked
    obtain ⟨dropped, first, second, third⟩ := strtok_hash stored locked
    have tag : algoTag.isPrefixOf (hashField r) = true := by
      rw [List.isPrefixOf_iff_prefix, hashField, if_neg (by simp [locked])]
      exact List.prefix_append _ _
    have differ : hashField r ≠ lockedTag := by
      intro same
      rw [same] at tag
      revert tag
      decide +kernel
    have salt_back := fromHex_hex r.salt
    have hash_back := fromHex_hex r.hash
    rw [salt] at salt_back
    rw [hash] at hash_back
    rw [parseHash, if_neg differ, tag]
    simp only [Bool.not_true, Bool.false_eq_true, if_false, dropped, first, second, third,
      strtoul_decimal small, Option.map_some, Option.getD_some, if_neg some_iters.ne',
      salt_back, hash_back, blankRecord]

theorem takeWhile_newline (text : List Char) :
    (text ++ ['\n']).takeWhile (!fieldEnd.contains ·) = text.takeWhile (!fieldEnd.contains ·) := by
  have stops : ['\n'].takeWhile (!fieldEnd.contains ·) = [] := by decide
  rw [List.takeWhile_append, stops, List.append_nil]
  split
  · rename_i whole
    exact ((List.takeWhile_prefix _).eq_of_length whole).symm
  · rfl

theorem parseLine_formatRecord (stored : Stored r) :
    parseLine (formatRecord r) = some (reread r) := by
  have named : ∀ c ∈ r.name, c ∉ [':'] := by
    intro c member
    simpa using (stored.name.inside c member).1
  have field : ∀ c ∈ hashField r, c ∉ [':'] := by
    intro c member same
    rw [List.mem_singleton.mp same] at member
    exact hashField_inside r ':' member (by decide)
  have digits (n : Nat) : ∀ c ∈ decimal n, c ∉ fieldEnd := decimal_apart (by decide)
  have delim : ':' ∈ fieldEnd := by decide
  have colon : ':' ∈ [':'] := List.mem_singleton_self _
  have home : (strtok fieldEnd (r.home ++ ['\n'])).1 = some (reread r).home := by
    have first : (r.home ++ ['\n']).head? = r.home.head? :=
      List.head?_append_of_ne_nil _ stored.home.1
    rw [strtok_start _ _ (first ▸ stored.home_start) (by simp), takeWhile_newline]
    rfl
  have tokens : formatRecord r = r.name ++ ':' :: (hashField r ++ ':' :: (decimal r.uid ++
      ':' :: (decimal r.gid ++ ':' :: (r.home ++ ['\n'])))) := by
    rw [formatRecord_eq stored]
    simp [recordLine]
  have short : (reread r).home.length < homeMax :=
    Nat.lt_of_le_of_lt (List.takeWhile_prefix _).length_le stored.home.2
  rw [tokens]
  simp only [parseLine, strtok_field stored.name.some_text named colon,
    strtok_field (hashField_ne_nil r) field colon, strtok_field (decimal_ne_nil _) (digits _) delim,
    parseId_decimal stored.ids.1, parseId_decimal stored.ids.2, home, Option.getD_some,
    strlcpy_short stored.name.short, strlcpy_short short]
  exact parseHash_hashField stored (reread r).home

theorem Fits.of_token {delims token : List Char} (colon : ':' ∈ delims) (text : '\x00' ∉ line)
    (whole : Line line) (found : (strtok delims line).1 = some token)
    (more : (strtok delims line).2 ≠ []) : Fits (strlcpy userMax token) := by
  obtain ⟨some_text, apart, -⟩ := strtok_some found
  have no_newline := whole.field found more
  refine ⟨?_, ?_, ?_⟩
  · obtain ⟨first, rest, rfl⟩ := List.exists_cons_of_ne_nil some_text
    exact List.cons_ne_nil _ _
  · simp only [strlcpy, List.length_take, userMax]
    omega
  · intro c member
    have inside := List.mem_of_mem_take member
    refine ⟨?_, ?_, ?_⟩
    · rintro rfl
      exact apart _ inside colon
    · rintro rfl
      exact no_newline inside
    · rintro rfl
      exact text (strtok_mem found inside)

theorem parseId_le {token : Option (List Char)} (parsed : parseId token = some n) : n ≤ 65535 := by
  unfold parseId at parsed
  split at parsed
  · cases parsed
  · split at parsed
    · split at parsed
      · cases parsed
      · cases parsed
        omega
    · cases parsed

theorem length_fromHex {text : List Char} {bytes : List UInt8}
    (parsed : fromHex n text = some bytes) : bytes.length = n := by
  fun_induction fromHex n text generalizing bytes with
  | case1 text =>
    cases parsed
    rfl
  | case2 n high low rest value _ ih =>
    obtain ⟨more, tail, rfl⟩ := Option.map_eq_some_iff.mp parsed
    rw [List.length_cons, ih tail]
  | case3 => cases parsed
  | case4 => cases parsed

theorem parseHash_some {base : Record} {field : List Char}
    (parsed : parseHash base field = some r) :
    r = { base with locked := true } ∨ ∃ iters salt hash, r = { base with iters, salt, hash } ∧
      0 < iters ∧ iters < 4294967296 ∧ salt.length = saltLen ∧ hash.length = hashLen := by
  revert parsed
  fun_cases parseHash base field with
  | case1 =>
    rintro ⟨⟩
    exact .inl rfl
  | case2 | case3 | case5 | case6 => exact nofun
  | case4 _ _ _ _ _ iters_text salt_text digest_text iters some_iters salt hash
      hash_parsed salt_parsed =>
    rintro ⟨⟩
    refine .inr ⟨_, salt, hash, rfl, Nat.pos_of_ne_zero some_iters, ?_, length_fromHex salt_parsed,
      length_fromHex hash_parsed⟩
    simp only [iters]
    cases read : strtoul 10 iters_text with
    | none => decide
    | some value => exact strtoul_lt read

theorem token_inside {delims text default : List Char} (no_nul : '\x00' ∉ text)
    (plain : ∀ c ∈ default, c ∉ delims ∧ c ≠ '\x00') :
    ∀ c ∈ strlcpy n ((strtok delims text).1.getD default), c ∉ delims ∧ c ≠ '\x00' := by
  intro c member
  have inside := List.mem_of_mem_take member
  cases found : (strtok delims text).1 with
  | none =>
    rw [found] at inside
    exact plain c inside
  | some token =>
    rw [found, Option.getD_some] at inside
    refine ⟨(strtok_some found).2.1 c inside, ?_⟩
    rintro rfl
    exact no_nul (strtok_mem found inside)

theorem home_some (text : List Char) :
    strlcpy homeMax ((strtok fieldEnd text).1.getD ['/']) ≠ [] ∧
      (strlcpy homeMax ((strtok fieldEnd text).1.getD ['/'])).length < homeMax := by
  constructor
  · have some_text : (strtok fieldEnd text).1.getD ['/'] ≠ [] := by
      cases found : (strtok fieldEnd text).1 with
      | none => exact List.cons_ne_nil _ _
      | some home => exact (strtok_some found).1
    obtain ⟨first, rest, same⟩ := List.exists_cons_of_ne_nil some_text
    rw [same]
    exact List.cons_ne_nil _ _
  · simp only [strlcpy, List.length_take, homeMax]
    omega

theorem parseLine_stored (text : '\x00' ∉ line) (whole : Line line)
    (parsed : parseLine line = some r) : Stored r ∧ reread r = r := by
  simp only [parseLine] at parsed
  split at parsed
  · rename_i name hash uid gid name_found hash_found uid_parsed gid_parsed
    have more : (strtok [':'] line).2 ≠ [] := by
      intro nothing
      rw [nothing, strtok_nil] at hash_found
      cases hash_found
    have fits := Fits.of_token (List.mem_singleton_self _) text whole name_found more
    have no_nul : '\x00' ∉ (strtok fieldEnd (strtok fieldEnd (strtok [':']
        (strtok [':'] line).2).2).2).2 := fun member =>
      text (strtok_rest_mem (strtok_rest_mem (strtok_rest_mem (strtok_rest_mem member))))
    generalize (strtok fieldEnd (strtok fieldEnd (strtok [':'] (strtok [':'] line).2).2).2).2 =
      rest at *
    have inside :=
      token_inside (n := homeMax) no_nul (by decide : ∀ c ∈ ['/'], c ∉ fieldEnd ∧ c ≠ '\x00')
    have some_home := home_some rest
    generalize strlcpy homeMax ((strtok fieldEnd rest).1.getD ['/']) = home at *
    have start : ∀ c, home.head? = some c → c ∉ fieldEnd := fun c first =>
      (inside c (List.mem_of_mem_head? first)).1
    have plain : ∀ c ∈ home, c ≠ '\n' ∧ c ≠ '\x00' := by
      intro c member
      refine ⟨?_, (inside c member).2⟩
      rintro rfl
      exact (inside _ member).1 (by decide)
    have same : home.takeWhile (!fieldEnd.contains ·) = home :=
      List.takeWhile_eq_self_iff.mpr fun c member => by simpa using (inside c member).1
    have ids := And.intro (parseId_le uid_parsed) (parseId_le gid_parsed)
    rcases parseHash_some parsed with rfl | ⟨iters, salt, hash, rfl, some_iters,
      small, salt16, hash32⟩
    · refine ⟨⟨fits, some_home, start, plain, ids, fun _ => ⟨rfl, rfl, rfl⟩, nofun⟩, ?_⟩
      simp only [reread, same]
    · refine ⟨⟨fits, some_home, start, plain, ids, nofun, fun _ =>
        ⟨some_iters, small, salt16, hash32⟩⟩, ?_⟩
      simp only [reread, same]
  · cases parsed

end Records

section Groups

structure StoredGroup (g : Group) : Prop where
  name : Fits g.name
  gid : g.gid ≤ 65535
  short : g.members.length < membersMax
  inside : ∀ c ∈ g.members, c ∉ fieldEnd ∧ c ≠ '\x00'

variable {g : Group}

theorem parseGroupLine_groupLine (stored : StoredGroup g) :
    parseGroupLine (groupLine g ++ ['\n']) = some g := by
  have named : ∀ c ∈ g.name, c ∉ [':'] := by
    intro c member
    simpa using (stored.name.inside c member).1
  have digits : ∀ c ∈ decimal g.gid, c ∉ fieldEnd := decimal_apart (by decide)
  have colon : ':' ∈ [':'] := List.mem_singleton_self _
  have delim : ':' ∈ fieldEnd := by decide
  have tokens : groupLine g ++ ['\n'] =
      g.name ++ ':' :: (decimal g.gid ++ ':' :: (g.members ++ ['\n'])) := by simp [groupLine]
  have members : (strtok fieldEnd (g.members ++ ['\n'])).1.getD [] = g.members := by
    by_cases empty : g.members = []
    · rw [empty, strtok_none (by decide), Option.getD_none]
    · rw [strtok_field empty (fun c member => (stored.inside c member).1) (by decide),
        Option.getD_some]
  rw [tokens]
  simp only [parseGroupLine, strtok_field stored.name.some_text named colon,
    strtok_field (decimal_ne_nil _) digits delim, parseId_decimal stored.gid, members,
    strlcpy_short stored.name.short, strlcpy_short stored.short]

theorem parseGroupLine_stored (text : '\x00' ∉ line) (whole : Line line)
    (parsed : parseGroupLine line = some g) : StoredGroup g := by
  simp only [parseGroupLine] at parsed
  split at parsed
  · rename_i name gid name_found gid_parsed
    have more : (strtok [':'] line).2 ≠ [] := by
      intro nothing
      rw [nothing, strtok_nil] at gid_parsed
      cases gid_parsed
    have fits := Fits.of_token (List.mem_singleton_self _) text whole name_found more
    cases parsed
    refine ⟨fits, parseId_le gid_parsed, ?_, token_inside ?_ (by simp)⟩
    · simp only [strlcpy, List.length_take, membersMax, maxAccounts, userMax]
      omega
    · exact fun member => text (strtok_rest_mem (strtok_rest_mem member))
  · cases parsed

end Groups

variable {recs : List Record}

section Files

variable {files : Files}

theorem fileLines_mem {text : Option (List Char)} (member : line ∈ fileLines text) :
    '\x00' ∉ line ∧ Line line := by
  obtain ⟨buffer, read, rfl⟩ := List.mem_map.mp member
  exact ⟨cstr_no_nul buffer, line_cstr (line_of_mem_reads read)⟩

theorem fileLines_written {lines : List (List Char)}
    (each : ∀ line ∈ lines, '\n' ∉ line ∧ '\x00' ∉ line ∧ line.length < lineMaxLen - 1) :
    fileLines (some (lines.flatMap (· ++ ['\n']))) = lines.map (· ++ ['\n']) := by
  have fit : ∀ line ∈ lines, '\n' ∉ line ∧ line.length < lineMaxLen - 1 :=
    fun line member => ⟨(each line member).1, (each line member).2.2⟩
  rw [fileLines, Option.getD_some, fgetsAll_written fit, List.map_map]
  apply List.map_congr_left
  intro line member
  have text : '\x00' ∉ line ++ ['\n'] := by simp [(each line member).2.1]
  exact cstr_of_no_nul text

theorem filterMap_lines {α : Type*} {format : α → List Char} {parse : List Char → Option α}
    {name : α → List Char} (back : α → α) (P : Option Char → Prop) [DecidablePred P] {xs : List α}
    (head : ∀ x ∈ xs, (format x).head? = (name x).head?)
    (parsed : ∀ x ∈ xs, parse (format x) = some (back x)) :
    (xs.map format).filterMap (fun line => if P line.head? then none else parse line) =
      (xs.filter fun x => ¬ P (name x).head?).map back := by
  induction xs with
  | nil => rfl
  | cons x xs ih =>
    obtain ⟨first, later⟩ := List.forall_mem_cons.mp head
    obtain ⟨read, reads⟩ := List.forall_mem_cons.mp parsed
    have tail := ih later reads
    rw [List.map_cons, List.filterMap_cons, first]
    by_cases skipped : P (name x).head?
    · simp [skipped, tail]
    · simp [skipped, read, tail]

theorem not_break {c : Char} (inside : c ∉ breaks) : c ≠ '\n' ∧ c ≠ '\x00' := by
  simp only [breaks, List.mem_cons, not_or] at inside
  exact ⟨inside.2.1, inside.2.2.1⟩

theorem decimal_inside (n : Nat) : ∀ c ∈ decimal n, c ≠ '\n' ∧ c ≠ '\x00' := by
  intro c member
  exact not_break (decimal_apart (by decide) c member)

theorem recordLine_inside {r : Record} (stored : Stored r) :
    ∀ c ∈ recordLine r, c ≠ '\n' ∧ c ≠ '\x00' := by
  have colon : ':' ≠ '\n' ∧ ':' ≠ '\x00' := by decide
  simp only [recordLine, List.forall_mem_append, List.forall_mem_cons]
  exact ⟨fun c name => (stored.name.inside c name).2, colon, fun c hash =>
    not_break (hashField_inside r c hash), colon,
    decimal_inside _, colon, decimal_inside _, colon, stored.home_inside⟩

theorem groupLine_inside {g : Group} (stored : StoredGroup g) :
    ∀ c ∈ groupLine g, c ≠ '\n' ∧ c ≠ '\x00' := by
  have colon : ':' ≠ '\n' ∧ ':' ≠ '\x00' := by decide
  simp only [groupLine, List.forall_mem_append, List.forall_mem_cons]
  refine ⟨fun c name => (stored.name.inside c name).2, colon, decimal_inside _, colon,
    fun c members => ⟨?_, (stored.inside c members).2⟩⟩
  rintro rfl
  exact (stored.inside _ members).1 (by decide)

theorem length_groupLine {g : Group} (stored : StoredGroup g) :
    (groupLine g).length < lineMaxLen - 1 := by
  have name := stored.name.short
  have members := stored.short
  have gid := length_decimal (n := g.gid) (k := 5) (by decide) (by have := stored.gid; omega)
  simp only [groupLine, List.length_append, List.length_cons, lineMaxLen, userMax, membersMax,
    maxAccounts] at *
  omega

theorem fileLines_flatMap {α : Type} {xs : List α} {line : α → List Char}
    (inside : ∀ x ∈ xs, ∀ c ∈ line x, c ≠ '\n' ∧ c ≠ '\x00')
    (short : ∀ x ∈ xs, (line x).length < lineMaxLen - 1) :
    fileLines (some (xs.flatMap fun x => line x ++ ['\n'])) = xs.map (line · ++ ['\n']) := by
  have each : ∀ text ∈ xs.map line, '\n' ∉ text ∧ '\x00' ∉ text ∧ text.length < lineMaxLen - 1 := by
    intro text member
    obtain ⟨x, there, rfl⟩ := List.mem_map.mp member
    exact ⟨fun newline => (inside x there _ newline).1 rfl, fun nul => (inside x there _ nul).2 rfl,
      short x there⟩
  have lines := fileLines_written each
  rwa [List.flatMap_map, List.map_map] at lines

theorem fileLines_storeAll (stored : ∀ r ∈ recs, Stored r) (files : Files) :
    fileLines (storeAll recs files).passwd = recs.map formatRecord := by
  have same : ∀ r ∈ recs, formatRecord r = recordLine r ++ ['\n'] :=
    fun r member => formatRecord_eq (stored r member)
  rw [storeAll, List.flatMap_congr same, List.map_congr_left same]
  exact fileLines_flatMap (fun r member => recordLine_inside (stored r member))
    fun r member => length_recordLine (stored r member)

theorem fileLines_groupsStore {gs : List Group} (stored : ∀ g ∈ gs, StoredGroup g) (files : Files) :
    fileLines (groupsStore gs files).group = gs.map (groupLine · ++ ['\n']) :=
  fileLines_flatMap (fun g member => groupLine_inside (stored g member)) fun g member =>
  length_groupLine (stored g member)

theorem formatRecord_head {r : Record} (stored : Stored r) :
    (formatRecord r).head? = r.name.head? := by
  rw [formatRecord_eq stored, recordLine, List.append_assoc]
  exact List.head?_append_of_ne_nil _ stored.name.some_text

theorem accounts_storeAll (stored : ∀ r ∈ recs, Stored r) (files : Files) :
    accounts (storeAll recs files) =
      (recs.filter fun r => ¬ Comment r.name.head?).map reread := by
  rw [accounts, fileLines_storeAll stored]
  exact filterMap_lines reread Comment (fun r member => formatRecord_head (stored r member))
    fun r member => parseLine_formatRecord (stored r member)

theorem loadable_storeAll (stored : ∀ r ∈ recs, Stored r) (files : Files) :
    loadable (storeAll recs files) =
      (recs.filter fun r => ¬ Skipped r.name.head?).map reread := by
  rw [loadable, fileLines_storeAll stored]
  exact filterMap_lines reread Skipped (fun r member => formatRecord_head (stored r member))
    fun r member => parseLine_formatRecord (stored r member)

theorem groups_groupsStore {gs : List Group} (stored : ∀ g ∈ gs, StoredGroup g) (files : Files) :
    groups (groupsStore gs files) = gs.filter fun g => ¬ Skipped g.name.head? := by
  have head : ∀ g ∈ gs, (groupLine g ++ ['\n']).head? = g.name.head? := by
    intro g member
    rw [groupLine, List.append_assoc]
    exact List.head?_append_of_ne_nil _ (stored g member).name.some_text
  rw [groups, fileLines_groupsStore stored,
    filterMap_lines id Skipped head fun g member => parseGroupLine_groupLine (stored g member),
    List.map_id]

theorem stored_of_accounts {r : Record} (member : r ∈ accounts files) : Stored r ∧
    reread r = r := by
  obtain ⟨line, read, parsed⟩ := List.mem_filterMap.mp member
  split at parsed
  · cases parsed
  · obtain ⟨text, whole⟩ := fileLines_mem read
    exact parseLine_stored text whole parsed

theorem stored_of_groups {g : Group} (member : g ∈ groups files) : StoredGroup g := by
  obtain ⟨line, read, parsed⟩ := List.mem_filterMap.mp member
  split at parsed
  · cases parsed
  · obtain ⟨text, whole⟩ := fileLines_mem read
    exact parseGroupLine_stored text whole parsed

theorem accounts_of_loadable {r : Record} (member : r ∈ loadable files) : r ∈ accounts files := by
  obtain ⟨line, read, parsed⟩ := List.mem_filterMap.mp member
  split at parsed
  · cases parsed
  · rename_i kept
    refine List.mem_filterMap.mpr ⟨line, read, ?_⟩
    rw [if_neg, parsed]
    exact fun comment => kept comment.skipped

theorem parseLine_return {r : Record} (start : line.head? = some '\r')
    (parsed : parseLine line = some r) : r.name.head? = some '\r' := by
  obtain ⟨rest, rfl⟩ := List.head?_eq_some_iff.mp start
  have name := strtok_start [':'] ('\r' :: rest)
    (by rintro c same; cases same; decide) (List.cons_ne_nil _ _)
  rw [List.takeWhile_cons_of_pos (by decide)] at name
  simp only [parseLine, name] at parsed
  split at parsed
  · rename_i found _ _ _
    cases found
    rcases parseHash_some parsed with rfl | ⟨iters, salt, hash, rfl, -⟩
    · rfl
    · rfl
  · cases parsed

theorem loadable_eq (plain : ∀ r ∈ accounts files, r.name.head? ≠ some '\r') :
    loadable files = accounts files := by
  apply List.filterMap_congr
  intro line read
  by_cases comment : Comment line.head?
  · rw [if_pos comment, if_pos comment.skipped]
  · rw [if_neg comment]
    split
    · rename_i skipped
      have start : line.head? = some '\r' :=
        (skipped.resolve_left fun hash => comment (.inl hash)).resolve_left fun newline =>
        comment (.inr newline)
      cases parsed : parseLine line with
      | none => rfl
      | some r =>
        have member : r ∈ accounts files := by
          refine List.mem_filterMap.mpr ⟨line, read, ?_⟩
          rw [if_neg comment, parsed]
        exact absurd (parseLine_return start parsed) (plain r member)
    · rfl

theorem findRecord_eq (files : Files) (user : List Char) :
    findRecord files user = (accounts files).find? (·.name == user) := by
  rw [findRecord, accounts]
  induction fileLines files.passwd with
  | nil => rfl
  | cons line lines ih =>
    rw [List.findSome?_cons, List.filterMap_cons, ih]
    by_cases comment : line.head? = some '#' ∨ line.head? = some '\n'
    · rw [if_pos comment, if_pos (show Comment line.head? from comment)]
    · rw [if_neg comment, if_neg (show ¬ Comment line.head? from comment)]
      cases parsed : parseLine line with
      | none => rfl
      | some r =>
        by_cases this : r.name = user <;> simp [Option.filter, this]

end Files

end Espix.Auth.Store
