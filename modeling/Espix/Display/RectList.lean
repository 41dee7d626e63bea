import Espix.Display.Rfb

/-! The rectangle list of an update, as `update_send` makes and announces it.

The array's entries are only replaced or added at its end. The test before the picture is
cut out of the largest rectangle counts that one as gone, but its place stays taken. -/

namespace Espix.Display.RectList

open Drawing Rfb Lib.Plane

def nowhere : Rect := ⟨0, 0, 0, 0⟩

def rectMeet (a b : Rect) : Rect :=
  let x0 := max a.x b.x
  let y0 := max a.y b.y
  let x1 := min (a.x + a.w) (b.x + b.w)
  let y1 := min (a.y + a.h) (b.y + b.h)
  if x1 ≤ x0 ∨ y1 ≤ y0 then nowhere else ⟨x0, y0, x1 - x0, y1 - y0⟩

/-- In 32 bits. -/
def area (r : Rect) : Int := r.w * r.h % 4294967296

def best (rects : List Rect) : Nat :=
  (List.range' 1 (rects.length - 1)).foldl
    (fun best i =>
      if area (rects.getD i nowhere) > area (rects.getD best nowhere) then i else best) 0

/-- What the viewer takes, whether there is an encoder or the picture's own bytes, and its
place. -/
structure Photo where
  (tight lossy enc passes : Bool)
  place : Rect

section Cut

variable (photo : Photo) (rects : List Rect)

def overlap : Rect := rectMeet (rects.getD (best rects) nowhere) photo.place

def rest : List Rect := (rects.getD (best rects) nowhere).subtract (overlap photo rects)

/-- The picture is to be cut out if there is room. -/
def Chosen : Prop :=
  let ov := overlap photo rects
  let whole := ov.w = photo.place.w ∧ ov.h = photo.place.h ∧ 0 < ov.w
  photo.tight ∧ photo.lossy ∧ 0 < rects.length ∧ (whole ∧ photo.passes ∨ photo.enc) ∧
    0 < ov.w ∧ 0 < ov.h ∧ ov.w * ov.h * 2 % 4294967296 ≥ area photo.place

instance : Decidable (Chosen photo rects) :=
  inferInstanceAs (Decidable (_ ∧ _ ∧ _ ∧ (_ ∧ _ ∨ _) ∧ _ ∧ _ ∧ _))

def cutPhoto : List Rect :=
  if Chosen photo rects ∧ rects.length - 1 + (rest photo rects).length ≤ damageMax then
    rects.set (best rects) (overlap photo rects) ++ rest photo rects
  else rects

end Cut

def updated (copyrect full : Bool) (photo : Photo) (c : Canvas) : Frame :=
  { planned copyrect full c with rects := cutPhoto photo (planned copyrect full c).rects }

def announced (f : Frame) : Nat := (f.rects.length + if f.copy.isSome then 1 else 0) % 65536

def sent (f : Frame) : List Rect := (f.copy.map (·.r)).toList ++ f.rects

/-- What an update has to show. -/
def Wanted (full : Bool) (c : Canvas) (p : Point) : Prop :=
  if full then p ∈ c.area else Covered c.damage.rects p ∨ Covered (c.moves.notes.map (·.r)) p

structure Exact (full : Bool) (c : Canvas) (f : Frame) : Prop where
  inside : f.rects.length ≤ damageMax
  counted : announced f = (sent f).length
  covers : ∀ p, Wanted full c p → Covered (sent f) p

/-- A cut that is made has room for all of its parts beside the list. -/
def Fits (photo : Photo) (rects : List Rect) : Prop :=
  Chosen photo rects → rects.length - 1 + (rest photo rects).length ≤ damageMax →
    rects.length + (rest photo rects).length ≤ damageMax

/-- Moves that go as pixels and do not fit into the list lie under what does. -/
def Heard (copyrect : Bool) (c : Canvas) : Prop :=
  let moved := c.moves.notes.reverse.map (·.r)
  let room := damageMax - c.damage.rects.length
  copyPlan copyrect c.moves.notes.reverse c.damage.rects.reverse = none →
    ∀ p, Covered (moved.drop room) p → Covered c.damage.rects p ∨ Covered (moved.take room) p

variable {copyrect full : Bool} {c : Canvas} {photo : Photo} {rects : List Rect} {p : Point}

theorem mem_rectMeet {a b : Rect} (inside : p ∈ rectMeet a b) : p ∈ a := by
  simp only [rectMeet] at inside
  split at inside
  · exact absurd inside (Rect.not_mem_of_empty (Or.inl (by decide)))
  · simp only [mem_def] at inside ⊢
    omega

theorem best_lt (some_rects : 0 < rects.length) : best rects < rects.length := by
  refine List.foldlRecOn (motive := (· < rects.length)) _ _ some_rects fun b below i member => ?_
  have range := List.mem_range'_1.mp member
  split
  · omega
  · exact below

theorem covered_cut {i : Nat} {hole : Rect} (place : i < rects.length)
    (part : ∀ p ∈ hole, p ∈ rects.getD i nowhere) :
    Covered (rects.set i hole ++ (rects.getD i nowhere).subtract hole) p ↔ Covered rects p := by
  have entry : rects.getD i nowhere = rects[i] := by simp [place]
  have there : rects.getD i nowhere ∈ rects := entry ▸ List.getElem_mem place
  rw [covered_append, covered_subtract]
  constructor
  · rintro (⟨r, member, inside⟩ | ⟨inside, -⟩)
    · rcases List.mem_or_eq_of_mem_set member with old | rfl
      · exact ⟨r, old, inside⟩
      · exact ⟨_, there, part p inside⟩
    · exact ⟨_, there, inside⟩
  · rintro ⟨r, member, inside⟩
    obtain ⟨j, below, rfl⟩ := List.mem_iff_getElem.mp member
    by_cases same : j = i
    · subst same
      by_cases hit : p ∈ hole
      · exact Or.inl ⟨hole, List.mem_set below hole, hit⟩
      · exact Or.inr ⟨entry ▸ inside, hit⟩
    · refine Or.inl ⟨rects[j], List.mem_iff_getElem.mpr ⟨j, by simpa using below, ?_⟩, inside⟩
      exact List.getElem_set_ne (Ne.symm same) _

theorem covered_cutPhoto : Covered (cutPhoto photo rects) p ↔ Covered rects p := by
  unfold cutPhoto
  split
  · rename_i cuts
    exact covered_cut (best_lt cuts.1.2.2.1) fun _ => mem_rectMeet
  · rfl

theorem length_cutPhoto (few : rects.length ≤ damageMax) :
    (cutPhoto photo rects).length ≤ damageMax ↔ Fits photo rects := by
  unfold cutPhoto Fits
  split
  · rename_i cuts
    simp [cuts.1, cuts.2]
  · rename_i none
    exact iff_of_true few fun chosen room => absurd ⟨chosen, room⟩ none

theorem length_planned : (planned copyrect full c).rects.length ≤ damageMax := by
  have few : c.damage.rects.length ≤ damageMax := c.damage.room
  unfold planned
  split
  · simp [damageMax]
  · dsimp only
    split
    · rename_i m keep plan
      unfold copyPlan at plan
      split at plan
      · simp only [Option.ite_none_right_eq_some, Bool.and_eq_true, decide_eq_true_eq,
          Option.some.injEq, Prod.mk.injEq] at plan
        exact plan.2.2 ▸ plan.1.2
      · cases plan
    · simp
      omega

theorem planned_covers :
    (∀ p, Wanted full c p → Covered (sent (planned copyrect full c)) p) ↔
      (full = false → Heard copyrect c) := by
  cases full with
  | true => simp [Wanted, planned, sent]
  | false =>
    simp only [Wanted, planned, Heard, Bool.false_eq_true, if_false, forall_const]
    split
    · rename_i m keep plan
      obtain ⟨-, single, rfl⟩ := copyPlan_some plan
      have only : c.moves.notes = [m] := by simpa using single
      refine iff_of_true (fun p wanted => ?_) (by simp [plan])
      simp only [only, List.map_singleton, covered_cons, covered_nil, or_false] at wanted
      simp only [sent, Option.map_some, Option.toList_some, covered_append, covered_cons,
        covered_nil, or_false, covered_flatMap_subtract, covered_reverse]
      tauto
    · rename_i plan
      rw [forall_prop_of_true plan]
      refine forall_congr' fun p => ?_
      have moved : Covered (c.moves.notes.map (·.r)) p ↔
          Covered (c.moves.notes.reverse.map (·.r)) p := by
        rw [List.map_reverse, covered_reverse]
      rw [moved, ← List.take_append_drop (damageMax - c.damage.rects.length)
        (c.moves.notes.reverse.map (·.r)), covered_append]
      simp only [sent, Option.map_none, Option.toList_none, List.nil_append, covered_append,
        covered_reverse, List.length_reverse, List.take_append_drop]
      tauto

theorem update_exact_iff (photo : Photo) :
    Exact full c (updated copyrect full photo c) ↔
      Fits photo (planned copyrect full c).rects ∧ (full = false → Heard copyrect c) := by
  rw [← length_cutPhoto length_planned, ← planned_covers]
  have same : ∀ p, Covered (sent (updated copyrect full photo c)) p ↔
      Covered (sent (planned copyrect full c)) p := by
    intro p
    rw [sent, sent, covered_append, covered_append, updated, covered_cutPhoto]
  constructor
  · rintro ⟨inside, -, covers⟩
    exact ⟨inside, fun p wanted => (same p).mp (covers p wanted)⟩
  · rintro ⟨inside, covers⟩
    refine ⟨inside, ?_, fun p wanted => (same p).mpr (covers p wanted)⟩
    cases copied : (planned copyrect full c).copy <;>
      simp [announced, sent, updated, copied, damageMax] at inside ⊢ <;> omega

/-- So many rectangles, the first of them the largest. -/
def crowded (n : Nat) (few : n + 1 ≤ damageMax) (moves : Moves) : Canvas :=
  ⟨100, 100, fun _ => 0,
    ⟨(List.range n).map (fun i => ⟨3 * i, 9, 1, 1⟩) ++ [⟨0, 0, 4, 4⟩], by simpa using few⟩,
    moves⟩

/-- Of 29 rectangles the largest has the picture in its middle, and the list has 33; and a
viewer without copies is not told of a move when there are 32. -/
theorem update_overruns :
    (updated true false ⟨true, true, true, false, ⟨1, 1, 2, 2⟩⟩
        (crowded 28 (by decide) .none)).rects.length = 33 ∧
      let moved := crowded 31 (by decide) ⟨[⟨⟨50, 50, 5, 5⟩, 0, 0⟩], by decide⟩
      Wanted false moved (50, 50) ∧
        ¬Covered (sent (updated false false ⟨false, false, false, false, nowhere⟩ moved))
        (50, 50) :=
  ⟨by decide +kernel, .inr (by decide), by decide +kernel⟩

end Espix.Display.RectList
