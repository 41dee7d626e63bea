import Espix.Fs.Access
import Espix.Lib.PathText

/-! `components/espix_fs/fs.c`: from a path as it was written to the one that is looked up.

The normaliser works in place, popping the text it has written when it meets two dots. What
it leaves is the text of the components that remain. Of any beginning of the text no more is
written than was read (`length_normaliseText_le`), so what is still to be read is never
overwritten, and the two cursors are left out. -/

namespace Espix.Fs.Resolve

open Access Lib.CText Lib.PathText

def popped (out : Path) : Path := (out.reverse.dropWhile (· != '/')).tail.reverse

def write (out seg : Path) : Path :=
  if seg = [] ∨ seg = ['.'] then out
  else if seg = ['.', '.'] then popped out
  else if out = [] then seg
  else out ++ '/' :: seg

/-- `normalise`, which leaves the first character where it is. -/
def normaliseText : Path → Path
  | [] => []
  | slash :: rest => slash :: (rest.splitOn '/').foldl write []

def fullText (cwd path : Path) : Path :=
  let base := if cwd = [] then ['/'] else cwd
  if path = [] then base
  else if path.head? = some '/' then path
  else if base = ['/'] then '/' :: path
  else base ++ '/' :: path

def fsResolve (cwd path : Path) : Option Path :=
  if (fullText cwd path).length < pathMax then some (normaliseText (fullText cwd path)) else none

section Normalise

variable {out seg : Path} {above : List Path}

theorem popped_joined (clean : Clean above) : popped (joined above) = joined above.dropLast := by
  rcases List.eq_nil_or_concat' above with rfl | ⟨front, last, rfl⟩
  · rfl
  · have plain : ∀ c ∈ last.reverse, (c != '/') = true := by
      intro c member
      rw [bne_iff_ne]
      rintro rfl
      exact (clean last (by simp)).2.1 (List.mem_reverse.mp member)
    rw [List.dropLast_concat, joined_concat, popped]
    split
    · rename_i none_before
      rw [← List.append_nil last.reverse, List.dropWhile_append_of_pos plain, none_before]
      rfl
    · rw [List.reverse_append, List.reverse_cons, List.append_assoc,
        List.dropWhile_append_of_pos plain]
      simp

theorem write_joined (clean : Clean above) (seg : Path) :
    write (joined above) seg = joined (push above seg) := by
  unfold write push
  split
  · rfl
  · split
    · exact popped_joined clean
    · rw [joined_concat]
      by_cases first : above = []
      · rw [if_pos first, first]
        rfl
      · rw [if_neg first, if_neg (joined_ne_nil clean first)]

theorem foldl_write (clean : Clean above) {segs : List Path} (plain : ∀ seg ∈ segs, '/' ∉ seg) :
    segs.foldl write (joined above) = joined (segs.foldl push above) := by
  induction segs generalizing above with
  | nil => rfl
  | cons seg segs ih =>
    obtain ⟨here, later⟩ := List.forall_mem_cons.mp plain
    rw [List.foldl_cons, List.foldl_cons, write_joined clean, ih (clean.push here) later]

theorem plain_splitOn (text : Path) : ∀ seg ∈ text.splitOn '/', '/' ∉ seg :=
  fun _ member => sep_notMem_of_mem_splitOn member

theorem clean_normalise (text : Path) : Clean (normalise text) :=
  clean_foldl nofun (plain_splitOn text)

theorem normaliseText_eq (text : Path) :
    normaliseText ('/' :: text) = '/' :: joined (normalise ('/' :: text)) := by
  have behind : normalise ('/' :: text) = (text.splitOn '/').foldl push [] := normalise_join [] text
  have written := foldl_write (show Clean [] from nofun) (plain_splitOn text)
  rw [normaliseText, behind, ← written]
  rfl

theorem normalise_normaliseText (text : Path) :
    normalise (normaliseText ('/' :: text)) = normalise ('/' :: text) := by
  rw [normaliseText_eq, normalise_joined (clean_normalise _)]

theorem no_up_normaliseText (text : Path) :
    ['.', '.'] ∉ (normaliseText ('/' :: text)).splitOn '/' := by
  have clean := clean_normalise ('/' :: text)
  rw [normaliseText_eq, show '/' :: joined (normalise ('/' :: text)) =
    [] ++ '/' :: joined (normalise ('/' :: text)) from rfl, List.splitOn_append_cons_self]
  intro member
  rcases List.mem_append.mp member with front | back
  · simp [List.splitOn_nil] at front
  · by_cases nothing : normalise ('/' :: text) = []
    · rw [nothing] at back
      simp [joined, List.splitOn_nil] at back
    · rw [splitOn_joined clean nothing] at back
      exact (clean _ back).2.2.2 rfl

theorem room_write (out seg : Path) : room (write out seg) ≤ room out + (seg.length + 1) := by
  have shorter : (popped out).length ≤ out.length := by
    rw [popped, List.length_reverse, List.length_tail]
    have dropped := (List.dropWhile_suffix (l := out.reverse) (· != '/')).length_le
    rw [List.length_reverse] at dropped
    omega
  unfold write room
  split
  · omega
  · split
    · split
      · omega
      · rename_i some_left
        have some_before : out ≠ [] := by
          rintro rfl
          exact some_left rfl
        rw [if_neg some_before]
        omega
    · split
      · split <;> omega
      · rw [List.length_append, List.length_cons]
        split <;> omega

theorem length_normaliseText_le (text : Path) : (normaliseText text).length ≤ text.length := by
  cases text with
  | nil => exact Nat.le_refl _
  | cons slash rest =>
    have bound := room_foldl room_write (rest.splitOn '/') []
    rw [sum_splitOn, room, room] at bound
    rw [normaliseText, List.length_cons, List.length_cons]
    split at bound
    · rename_i nothing
      rw [nothing]
      simp
    · simp only [if_true] at bound
      omega

theorem length_of_fsResolve {cwd path p : Path} (found : fsResolve cwd path = some p) :
    p.length < pathMax := by
  unfold fsResolve at found
  obtain ⟨short, ⟨⟩⟩ := Option.ite_none_right_eq_some.mp found
  exact Nat.lt_of_le_of_lt (length_normaliseText_le _) short

end Normalise

section Canonical

inductive Refusal
  | invalidArg
  | invalidSize

def resolveInto (size : Nat) (cwd path : Path) : Except Refusal Path :=
  if size < 2 then .error .invalidArg
  else if (fullText cwd path).length < size then .ok (normaliseText (fullText cwd path))
  else .error .invalidSize

/-- Where the components of a path lead, from the directory on if the path is relative. -/
def target (cwd path : Path) : List Path :=
  (path.splitOn '/').foldl push (if path.head? = some '/' then [] else normalise cwd)

theorem normalise_fullText (cwd path : Path) :
    normalise (fullText ('/' :: cwd) path) = target ('/' :: cwd) path := by
  unfold fullText target
  simp only [reduceCtorEq, if_false]
  split
  · rename_i empty
    rw [empty]
    rfl
  · split
    · rfl
    · split
      · rename_i root
        have nowhere : normalise ['/'] = normalise [] := normalise_trailing []
        rw [root, nowhere]
        exact normalise_join [] path
      · exact normalise_join _ path

theorem fullText_absolute (cwd path : Path) : ∃ rest, fullText ('/' :: cwd) path = '/' :: rest := by
  unfold fullText
  simp only [reduceCtorEq, if_false]
  split
  · exact ⟨_, rfl⟩
  · split
    · rename_i absolute
      exact List.head?_eq_some_iff.mp absolute
    · split
      · exact ⟨_, rfl⟩
      · exact ⟨_, rfl⟩

theorem clean_target (cwd path : Path) : Clean (target cwd path) := by
  refine clean_foldl ?_ (plain_splitOn path)
  split
  · exact nofun
  · exact clean_normalise cwd

/-- What fits is resolved to the text of the components alone, and that resolves to itself; what
does not fit is refused. -/
theorem resolve_canonical (cwd path : Path) (size : Nat) :
    resolveInto size ('/' :: cwd) path =
      (if size < 2 then .error .invalidArg
        else if (fullText ('/' :: cwd) path).length < size then
        .ok ('/' :: joined (target ('/' :: cwd) path))
        else .error .invalidSize) ∧
    ∀ p, resolveInto size ('/' :: cwd) path = .ok p →
      (p = ['/'] ∨ ∃ rest, p = '/' :: rest ∧ Clean (rest.splitOn '/')) ∧
      ∀ dir, resolveInto size dir p = .ok p := by
  obtain ⟨rest, full⟩ := fullText_absolute cwd path
  have text : normaliseText (fullText ('/' :: cwd) path) = '/' ::
      joined (target ('/' :: cwd) path) := by
    rw [full, normaliseText_eq, ← full, normalise_fullText]
  have clean := clean_target ('/' :: cwd) path
  refine ⟨by rw [resolveInto, text], fun p found => ?_⟩
  unfold resolveInto at found
  split at found
  · cases found
  · rename_i big
    split at found
    · rename_i short
      cases found
      have shorter := length_normaliseText_le (fullText ('/' :: cwd) path)
      rw [text] at shorter ⊢
      refine ⟨?_, fun dir => ?_⟩
      · by_cases nothing : target ('/' :: cwd) path = []
        · rw [nothing]
          exact .inl rfl
        · refine .inr ⟨_, rfl, ?_⟩
          rwa [splitOn_joined clean nothing]
      · have same : fullText dir ('/' :: joined (target ('/' :: cwd) path)) = '/' ::
          joined (target ('/' :: cwd) path) := rfl
        rw [resolveInto, if_neg big, same, if_pos (by omega), normaliseText_eq,
          normalise_joined clean]
    · cases found

/-- The root does not fit one byte. -/
theorem resolve_one_byte : resolveInto 1 ['/'] [] = .error .invalidArg := rfl

end Canonical

section Within

variable {path dir : Path}

theorem within_cases (inside : within path dir = true) :
    dir = ['/'] ∨ path = dir ∨ ∃ rest, path = dir ++ '/' :: rest := by
  unfold within at inside
  split at inside
  · cases inside
  · split at inside
    · rename_i whole
      exact .inl whole
    · rw [Bool.and_eq_true, List.isPrefixOf_iff_prefix] at inside
      obtain ⟨⟨rest, rfl⟩, follows⟩ := inside
      right
      cases rest with
      | nil => exact .inl (List.append_nil dir)
      | cons c rest =>
        have slash : c = '/' := by simpa using follows
        exact .inr ⟨rest, by rw [slash]⟩

theorem normalise_of_within (inside : within path dir = true)
    (down : ['.', '.'] ∉ path.splitOn '/') : normalise dir <+: normalise path := by
  rcases within_cases inside with rfl | rfl | ⟨rest, rfl⟩
  · have slash : normalise ['/'] = [] := normalise_trailing []
    rw [slash]
    exact List.nil_prefix
  · exact List.prefix_rfl
  · rw [List.splitOn_append_cons_self, List.mem_append, not_or] at down
    exact normalise_below down.2

end Within

end Espix.Fs.Resolve
