import Mathlib.Data.List.Basic
import Mathlib.Tactic.SplitIfs

/-! Rectangles of an integer plane, and pictures on it.

Clipping, the box around two rectangles, and one rectangle without another, each with the
points it has. A picture is a function on points; painting and copying change it inside a
rectangle only. -/

namespace Espix.Lib.Plane

abbrev Point := Int × Int

structure Rect where
  x : Int
  y : Int
  w : Int
  h : Int
deriving DecidableEq

instance : Membership Point Rect where
  mem r p := r.x ≤ p.1 ∧ p.1 < r.x + r.w ∧ r.y ≤ p.2 ∧ p.2 < r.y + r.h

theorem mem_def {r : Rect} {p : Point} :
    p ∈ r ↔ r.x ≤ p.1 ∧ p.1 < r.x + r.w ∧ r.y ≤ p.2 ∧ p.2 < r.y + r.h := Iff.rfl

instance (r : Rect) (p : Point) : Decidable (p ∈ r) := decidable_of_iff _ mem_def.symm

namespace Rect

def clip (r : Rect) (w h : Int) : Rect :=
  let x0 := if r.x < 0 then 0 else r.x
  let y0 := if r.y < 0 then 0 else r.y
  let x1 := if r.x + r.w > w then w else r.x + r.w
  let y1 := if r.y + r.h > h then h else r.y + r.h
  ⟨x0, y0, x1 - x0, y1 - y0⟩

def union (a b : Rect) : Rect :=
  let x0 := if a.x < b.x then a.x else b.x
  let y0 := if a.y < b.y then a.y else b.y
  let x1 := if a.x + a.w > b.x + b.w then a.x + a.w else b.x + b.w
  let y1 := if a.y + a.h > b.y + b.h then a.y + a.h else b.y + b.h
  ⟨x0, y0, x1 - x0, y1 - y0⟩

def touches (a b : Rect) : Bool :=
  !(decide (b.x > a.x + a.w) || decide (b.x + b.w < a.x) ||
    decide (b.y > a.y + a.h) || decide (b.y + b.h < a.y))

def shift (r : Rect) (dx dy : Int) : Rect := ⟨r.x + dx, r.y + dy, r.w, r.h⟩

def subtract (r hole : Rect) : List Rect :=
  if hole.w ≤ 0 ∨ hole.h ≤ 0 ∨ hole.x ≥ r.x + r.w ∨ hole.x + hole.w ≤ r.x ∨
      hole.y ≥ r.y + r.h ∨ hole.y + hole.h ≤ r.y then [r]
  else
    let y0 := if hole.y > r.y then hole.y else r.y
    let y1 := if hole.y + hole.h < r.y + r.h then hole.y + hole.h else r.y + r.h
    (if hole.y > r.y then [⟨r.x, r.y, r.w, hole.y - r.y⟩] else []) ++
    (if hole.y + hole.h < r.y + r.h then
      [⟨r.x, hole.y + hole.h, r.w, r.y + r.h - (hole.y + hole.h)⟩] else []) ++
    (if hole.x > r.x then [⟨r.x, y0, hole.x - r.x, y1 - y0⟩] else []) ++
    (if hole.x + hole.w < r.x + r.w then
      [⟨hole.x + hole.w, y0, r.x + r.w - (hole.x + hole.w), y1 - y0⟩] else [])

variable {r a b hole : Rect} {p : Point} {w h : Int}

theorem mem_clip : p ∈ r.clip w h ↔ p ∈ r ∧ p ∈ (⟨0, 0, w, h⟩ : Rect) := by
  simp only [clip, mem_def]
  split_ifs <;> omega

theorem mem_union_left (b : Rect) (inside : p ∈ a) : p ∈ a.union b := by
  simp only [union, mem_def] at inside ⊢
  split_ifs <;> omega

theorem mem_union_right (a : Rect) (inside : p ∈ b) : p ∈ a.union b := by
  simp only [union, mem_def] at inside ⊢
  split_ifs <;> omega

theorem mem_shift {dx dy : Int} : p ∈ r.shift dx dy ↔ (p.1 - dx, p.2 - dy) ∈ r := by
  simp only [shift, mem_def]
  omega

theorem not_mem_of_empty (empty : r.w ≤ 0 ∨ r.h ≤ 0) : p ∉ r := by
  rw [mem_def]
  omega

end Rect

open Rect

def Covered (rects : List Rect) (p : Point) : Prop := ∃ r ∈ rects, p ∈ r

instance (rects : List Rect) (p : Point) : Decidable (Covered rects p) :=
  inferInstanceAs (Decidable (∃ r ∈ rects, p ∈ r))

section Cover

variable {rects more : List Rect} {r hole : Rect} {p : Point}

@[simp]
theorem covered_nil : ¬Covered [] p := nofun

@[simp]
theorem covered_cons : Covered (r :: rects) p ↔ p ∈ r ∨ Covered rects p := by
  simp [Covered]

@[simp]
theorem covered_append : Covered (rects ++ more) p ↔ Covered rects p ∨ Covered more p := by
  simp [Covered, or_and_right, exists_or]

@[simp]
theorem covered_reverse : Covered rects.reverse p ↔ Covered rects p := by
  simp [Covered]

theorem covered_subtract : Covered (r.subtract hole) p ↔ p ∈ r ∧ p ∉ hole := by
  unfold Rect.subtract
  split
  · rename_i apart
    simp only [covered_cons, covered_nil, or_false, mem_def]
    omega
  · simp only [covered_append, mem_def]
    split_ifs <;>
      simp only [covered_cons, covered_nil, or_false, false_or, false_iff, mem_def] <;> omega

theorem covered_flatMap_subtract :
    Covered (rects.flatMap (·.subtract hole)) p ↔ Covered rects p ∧ p ∉ hole := by
  induction rects with
  | nil => simp
  | cons r rects ih =>
    rw [List.flatMap_cons, covered_append, covered_subtract, ih, covered_cons]
    tauto

end Cover

section Pictures

variable {A B : Type*} {r : Rect} {p : Point} {rects : List Rect}

abbrev Picture (A : Type*) := Point → A

def paint (r : Rect) (new old : Picture A) : Picture A := fun p => if p ∈ r then new p else old p

def paintAll (rects : List Rect) (new old : Picture A) : Picture A :=
  rects.foldl (fun pic r => paint r new pic) old

def copyIn (r : Rect) (sx sy : Int) (pic : Picture A) : Picture A :=
  paint r (fun p => pic (p.1 + (sx - r.x), p.2 + (sy - r.y))) pic

theorem paint_mem (new old : Picture A) (inside : p ∈ r) : paint r new old p = new p :=
  if_pos inside

theorem paint_not_mem (new old : Picture A) (outside : p ∉ r) : paint r new old p = old p :=
  if_neg outside

theorem mem_of_paint_ne {new old : Picture A} (changed : paint r new old p ≠ old p) : p ∈ r := by
  by_contra outside
  exact changed (paint_not_mem new old outside)

theorem paintAll_covered {new old : Picture A} (covered : Covered rects p) :
    paintAll rects new old p = new p := by
  suffices either : ∀ pic : Picture A, Covered rects p ∨ pic p = new p →
      paintAll rects new pic p = new p from either old (.inl covered)
  clear covered
  induction rects with
  | nil =>
    intro pic start
    simpa [paintAll] using start
  | cons r rects ih =>
    intro pic start
    apply ih
    rw [covered_cons] at start
    by_cases inside : p ∈ r
    · exact .inr (paint_mem new pic inside)
    · have same := paint_not_mem new pic inside
      rcases start with (here | later) | done
      · exact absurd here inside
      · exact .inl later
      · exact .inr (same.trans done)

theorem paintAll_not_covered {new old : Picture A} (uncovered : ¬Covered rects p) :
    paintAll rects new old p = old p := by
  induction rects generalizing old with
  | nil => rfl
  | cons r rects ih =>
    rw [covered_cons, not_or] at uncovered
    rw [paintAll, List.foldl_cons]
    exact (ih uncovered.2).trans (paint_not_mem new old uncovered.1)

end Pictures

end Espix.Lib.Plane
