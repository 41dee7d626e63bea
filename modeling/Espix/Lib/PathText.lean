import Espix.Lib.CText

/-! Paths with slashes, and the components they stand for.

Empty components and dots go nowhere, and a double dot takes back the component before
it. A path that goes on from another without a double dot stays below it. -/

namespace Espix.Lib.PathText

open CText

def push (above : List (List Char)) (part : List Char) : List (List Char) :=
  if part = [] ∨ part = ['.'] then above
  else if part = ['.', '.'] then above.dropLast
  else above ++ [part]

def normalise (path : List Char) : List (List Char) := (path.splitOn '/').foldl push []

section Normalise

variable {base rest path : List Char} {above parts : List (List Char)}

theorem normalise_join (base rest : List Char) :
    normalise (base ++ '/' :: rest) = (rest.splitOn '/').foldl push (normalise base) := by
  rw [normalise, List.splitOn_append_cons_self, List.foldl_append, normalise]

theorem normalise_trailing (base : List Char) : normalise (base ++ ['/']) = normalise base := by
  rw [normalise_join, List.splitOn_nil]
  simp [push]

theorem normalise_component (base : List Char) {part : List Char} (plain : '/' ∉ part) :
    normalise (base ++ '/' :: part) = push (normalise base) part := by
  rw [normalise_join, List.splitOn_eq_singleton plain]
  rfl

theorem foldl_push (down : ['.', '.'] ∉ parts) :
    parts.foldl push above = above ++ parts.filter fun part => part ≠ [] ∧ part ≠ ['.'] := by
  induction parts generalizing above with
  | nil => simp
  | cons part parts ih =>
    obtain ⟨here, later⟩ := not_or.mp (List.mem_cons.not.mp down)
    rw [List.foldl_cons, ih later, push]
    by_cases stays : part = [] ∨ part = ['.']
    · rw [if_pos stays, List.filter_cons_of_neg]
      simpa using fun some_text => stays.resolve_left some_text
    · rw [if_neg stays, if_neg (Ne.symm here), List.filter_cons_of_pos (by simpa using stays)]
      simp

theorem normalise_below (down : ['.', '.'] ∉ rest.splitOn '/') :
    normalise base <+: normalise (base ++ '/' :: rest) := by
  rw [normalise_join, foldl_push down]
  exact List.prefix_append _ _

end Normalise

/-! Components put together again. -/

def joined : List (List Char) → List Char
  | [] => []
  | part :: parts => parts.foldl (fun text part => text ++ '/' :: part) part

def Clean (parts : List (List Char)) : Prop :=
  ∀ part ∈ parts, part ≠ [] ∧ '/' ∉ part ∧ part ≠ ['.'] ∧ part ≠ ['.', '.']

section Joined

variable {part : List Char} {parts : List (List Char)}

theorem joined_concat (parts : List (List Char)) (part : List Char) :
    joined (parts ++ [part]) = if parts = [] then part else joined parts ++ '/' :: part := by
  cases parts with
  | nil => rfl
  | cons first parts => simp [joined, List.foldl_append]

theorem Clean.concat (clean : Clean (parts ++ [part])) : Clean parts :=
  fun p member => clean p (List.mem_append_left _ member)

theorem joined_ne_nil (clean : Clean parts) (some_parts : parts ≠ []) : joined parts ≠ [] := by
  obtain ⟨front, last, rfl⟩ := (List.eq_nil_or_concat' parts).resolve_left some_parts
  rw [joined_concat]
  split
  · exact (clean last (by simp)).1
  · simp

theorem splitOn_joined (clean : Clean parts) (some_parts : parts ≠ []) :
    (joined parts).splitOn '/' = parts := by
  induction parts using List.reverseRecOn with
  | nil => exact absurd rfl some_parts
  | append_singleton parts part ih =>
    have plain : '/' ∉ part := (clean part (by simp)).2.1
    rw [joined_concat]
    split
    · rename_i none_before
      rw [List.splitOn_eq_singleton plain, none_before, List.nil_append]
    · rename_i some_before
      rw [List.splitOn_append_cons_self, ih clean.concat some_before,
        List.splitOn_eq_singleton plain]

theorem foldl_push_clean {above : List (List Char)} (clean : Clean parts) :
    parts.foldl push above = above ++ parts := by
  rw [foldl_push fun up => (clean _ up).2.2.2 rfl, List.filter_eq_self.mpr]
  intro part member
  simpa using ⟨(clean part member).1, (clean part member).2.2.1⟩

theorem normalise_joined (clean : Clean parts) : normalise ('/' :: joined parts) = parts := by
  have split_slash : normalise ('/' :: joined parts) = ((joined parts).splitOn '/').foldl push [] :=
    normalise_join [] (joined parts)
  rw [split_slash]
  by_cases none_at_all : parts = []
  · rw [none_at_all]
    rfl
  · rw [splitOn_joined clean none_at_all, foldl_push_clean clean, List.nil_append]

theorem Clean.push {above : List (List Char)} (clean : Clean above) (plain : '/' ∉ part) :
    Clean (push above part) := by
  unfold PathText.push
  split
  · exact clean
  · rename_i stays
    split
    · exact fun p member => clean p (List.mem_of_mem_dropLast member)
    · rename_i not_up
      intro p member
      rcases List.mem_append.mp member with old | new
      · exact clean p old
      · rw [List.mem_singleton.mp new]
        exact ⟨fun empty => stays (.inl empty), plain, fun dot => stays (.inr dot), not_up⟩

theorem clean_foldl {above : List (List Char)} (clean : Clean above)
    (plain : ∀ part ∈ parts, '/' ∉ part) : Clean (parts.foldl PathText.push above) := by
  induction parts generalizing above with
  | nil => exact clean
  | cons part parts ih =>
    obtain ⟨here, later⟩ := List.forall_mem_cons.mp plain
    exact ih (clean.push here) later

end Joined

/-- The path starts with the root and names it or something below it. -/
def Below (root path : List Char) : Prop := root <+: path ∧ normalise root <+: normalise path

theorem Below.refl (root : List Char) : Below root root := ⟨List.prefix_rfl, List.prefix_rfl⟩

theorem Below.join {root path rest : List Char} (below : Below root path)
    (down : ['.', '.'] ∉ rest.splitOn '/') : Below root (path ++ '/' :: rest) :=
  ⟨below.1.trans (List.prefix_append _ _), below.2.trans (normalise_below down)⟩

end Espix.Lib.PathText
