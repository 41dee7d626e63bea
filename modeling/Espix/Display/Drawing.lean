import Espix.Lib.Plane

/-! `components/espix_display/display.c`: the canvas, what is drawn on it, and the two notes a
backend reads, which pixels changed and which rectangle moved.

The drawing is the software path; the accelerator is taken to do the same. Coordinates are
integers without a width, so a rectangle whose far edge does not fit an `int` is not covered. -/

namespace Espix.Display.Drawing

open Lib.Plane

abbrev Px := UInt16

def damageMax : Nat := 32

def moveMax : Nat := 8

structure Move where
  r : Rect
  sx : Int
  sy : Int
deriving DecidableEq

structure Damage where
  rects : List Rect
  room : rects.length ≤ damageMax

structure Moves where
  notes : List Move
  room : notes.length ≤ moveMax

structure Canvas where
  w : Int
  h : Int
  px : Picture Px
  damage : Damage
  moves : Moves

def Damage.none : Damage := ⟨[], Nat.zero_le _⟩

def Moves.none : Moves := ⟨[], Nat.zero_le _⟩

def Canvas.area (c : Canvas) : Rect := ⟨0, 0, c.w, c.h⟩

section Folding

def dropAt (rects : List Rect) (i : Nat) (r : Rect) : List Rect :=
  (rects.set i (rects.getLastD r)).dropLast

/-- The scan starts over after every fold; each turn takes one rectangle off the list. -/
def foldIn : Nat → List Rect → Rect → List Rect × Rect
  | 0, rects, r => (rects, r)
  | turns + 1, rects, r =>
    match rects.findIdx? (·.touches r) with
    | none => (rects, r)
    | some i => foldIn turns (dropAt rects i r) ((rects.getD i r).union r)

theorem mem_dropAt {rects : List Rect} {i : Nat} {r a : Rect} (bound : i < rects.length)
    (member : a ∈ rects) : a = rects.getD i r ∨ a ∈ dropAt rects i r := by
  obtain ⟨j, below, rfl⟩ := List.mem_iff_getElem.mp member
  by_cases same : j = i
  · subst same
    left
    rw [List.getD_eq_getElem?_getD, List.getElem?_eq_getElem below]
    rfl
  · right
    rw [dropAt, List.dropLast_eq_take, List.length_set, List.mem_take_iff_getElem]
    by_cases last : j = rects.length - 1
    · -- the last rectangle now stands in the gap
      refine ⟨i, by rw [List.length_set]; omega, ?_⟩
      rw [List.getElem_set_self, List.getLastD_eq_getLast?, List.getLast?_eq_getElem?]
      subst last
      rw [List.getElem?_eq_getElem below]
      rfl
    · refine ⟨j, by rw [List.length_set]; omega, ?_⟩
      exact List.getElem_set_ne (Ne.symm same) _

theorem foldIn_covers {p : Point} (turns : Nat) (rects : List Rect) (r : Rect)
    (covered : p ∈ r ∨ Covered rects p) :
    p ∈ (foldIn turns rects r).2 ∨ Covered (foldIn turns rects r).1 p := by
  induction turns generalizing rects r with
  | zero => exact covered
  | succ turns ih =>
    unfold foldIn
    split
    · exact covered
    · rename_i i found
      have bound : i < rects.length := (List.findIdx?_eq_some_iff_getElem.mp found).1
      apply ih
      rcases covered with inside | ⟨a, member, inside⟩
      · exact .inl (Rect.mem_union_right _ inside)
      · rcases mem_dropAt (r := r) bound member with rfl | stays
        · exact .inl (Rect.mem_union_left _ inside)
        · exact .inr ⟨a, stays, inside⟩

theorem foldl_union_covers {p : Point} (rects : List Rect) (r : Rect)
    (covered : p ∈ r ∨ Covered rects p) : p ∈ rects.foldl Rect.union r := by
  induction rects generalizing r with
  | nil => simpa using covered
  | cons a rects ih =>
    apply ih
    rw [covered_cons] at covered
    rcases covered with inside | inside | later
    · exact .inl (Rect.mem_union_left _ inside)
    · exact .inl (Rect.mem_union_right _ inside)
    · exact .inr later

end Folding

/-- The end of `espix_canvas_damage`: a list that is full becomes one box. -/
def Damage.add (d : Damage) (r : Rect) : Damage :=
  let folded := foldIn d.rects.length d.rects r
  if fits : folded.1.length < damageMax then
    ⟨folded.1 ++ [folded.2], by rw [List.length_append]; exact fits⟩
  else ⟨[folded.1.foldl Rect.union folded.2], Nat.le_add_left 1 31⟩

def canvasDamage (c : Canvas) (r : Rect) : Canvas :=
  let k := r.clip c.w c.h
  if k.w ≤ 0 ∨ k.h ≤ 0 then c else { c with damage := c.damage.add k }

section Damaging

variable {c : Canvas} {r : Rect} {p : Point}

theorem Damage.covered_add {d : Damage} (covered : p ∈ r ∨ Covered d.rects p) :
    Covered (d.add r).rects p := by
  have folded := foldIn_covers d.rects.length d.rects r covered
  simp only [Damage.add]
  split
  · simpa [or_comm] using folded
  · rw [covered_cons]
    exact .inl (foldl_union_covers _ _ folded)

theorem canvasDamage_covers (covered : p ∈ r ∧ p ∈ c.area ∨ Covered c.damage.rects p) :
    Covered (canvasDamage c r).damage.rects p := by
  simp only [canvasDamage]
  split
  · rename_i empty
    rcases covered with inside | already
    · exact absurd (Rect.mem_clip.mpr inside) (Rect.not_mem_of_empty empty)
    · exact already
  · apply Damage.covered_add
    exact covered.imp_left Rect.mem_clip.mpr

section

variable (c : Canvas) (r : Rect)

@[simp]
theorem canvasDamage_px : (canvasDamage c r).px = c.px := by
  simp only [canvasDamage]
  split <;> rfl

@[simp]
theorem canvasDamage_w : (canvasDamage c r).w = c.w := by
  simp only [canvasDamage]
  split <;> rfl

@[simp]
theorem canvasDamage_h : (canvasDamage c r).h = c.h := by
  simp only [canvasDamage]
  split <;> rfl

@[simp]
theorem canvasDamage_area : (canvasDamage c r).area = c.area := by
  simp [Canvas.area]

@[simp]
theorem canvasDamage_moves : (canvasDamage c r).moves = c.moves := by
  simp only [canvasDamage]
  split <;> rfl

end

end Damaging

section Drawing

def opFill (w h : Int) (r : Rect) (v : Px) (px : Picture Px) : Picture Px :=
  paint (r.clip w h) (fun _ => v) px

def opBlit (w h : Int) (dstX dstY : Int) (src : Picture Px) (srcW srcH : Int) (px : Picture Px) :
    Picture Px :=
  let x0 := if dstX < 0 then -dstX else 0
  let y0 := if dstY < 0 then -dstY else 0
  let x1 := if dstX + srcW > w then w - dstX else srcW
  let y1 := if dstY + srcH > h then h - dstY else srcH
  paint ⟨dstX + x0, dstY + y0, x1 - x0, y1 - y0⟩ (fun p => src (p.1 - dstX, p.2 - dstY)) px

/-- One glyph of eight rows; bit 0 of a row is its leftmost pixel. -/
def glyphPicture (rows : Nat → Nat) (x y : Int) (fg bg : Px) : Picture Px :=
  fun p => if (rows (p.2 - y).toNat).testBit (p.1 - x).toNat then fg else bg

def pxText (font : Nat → Nat → Nat) (w h : Int) (y : Int) (fg bg : Px) :
    List Nat → Int → Picture Px → Picture Px
  | [], _, px => px
  | ch :: s, x, px =>
    pxText font w h y fg bg s (x + 8)
      (paint (Rect.clip ⟨x, y, 8, 8⟩ w h)
        (glyphPicture (font (if ch > 127 then 63 else ch)) x y fg bg) px)

def pxOutline (w h : Int) (r : Rect) (v : Px) (px : Picture Px) : Picture Px :=
  let px := opFill w h ⟨r.x, r.y, r.w, 1⟩ v px
  let px := opFill w h ⟨r.x, r.y + r.h - 1, r.w, 1⟩ v px
  let px := opFill w h ⟨r.x, r.y, 1, r.h⟩ v px
  opFill w h ⟨r.x + r.w - 1, r.y, 1, r.h⟩ v px

def canvasFill (c : Canvas) (r : Rect) (v : Px) : Canvas :=
  let k := r.clip c.w c.h
  canvasDamage { c with px := opFill c.w c.h k v c.px } k

def canvasBlit (c : Canvas) (dstX dstY : Int) (src : Picture Px) (srcW srcH : Int) : Canvas :=
  canvasDamage { c with px := opBlit c.w c.h dstX dstY src srcW srcH c.px } ⟨dstX, dstY, srcW, srcH⟩

def canvasOutline (c : Canvas) (r : Rect) (v : Px) : Canvas :=
  canvasDamage { c with px := pxOutline c.w c.h r v c.px } r

def canvasText (font : Nat → Nat → Nat) (c : Canvas) (x y : Int) (s : List Nat) (fg bg : Px) :
    Canvas :=
  canvasDamage { c with px := pxText font c.w c.h y fg bg s x c.px } ⟨x, y, 8 * s.length, 8⟩

/-- The drawing calls; `text` has the bytes before the terminator, and the font's rows. -/
inductive Draw
  | fill (r : Rect) (v : Px)
  | blit (dstX dstY : Int) (src : Picture Px) (srcW srcH : Int)
  | outline (r : Rect) (v : Px)
  | text (font : Nat → Nat → Nat) (x y : Int) (s : List Nat) (fg bg : Px)

def draw (c : Canvas) : Draw → Canvas
  | .fill r v => canvasFill c r v
  | .blit dstX dstY src srcW srcH => canvasBlit c dstX dstY src srcW srcH
  | .outline r v => canvasOutline c r v
  | .text font x y s fg bg => canvasText font c x y s fg bg

def Draw.rect : Draw → Rect
  | .fill r _ => r
  | .blit dstX dstY _ srcW srcH => ⟨dstX, dstY, srcW, srcH⟩
  | .outline r _ => r
  | .text _ x y s _ _ => ⟨x, y, 8 * s.length, 8⟩

/-- An outline has both its sides or neither: with one of them it draws lines that the empty
rectangle does not have. -/
def Draw.Plain : Draw → Prop
  | .outline r _ => 0 < r.w ↔ 0 < r.h
  | _ => True

variable {c : Canvas} {d : Draw} {p : Point}

theorem opBlit_changed {w h dstX dstY srcW srcH : Int} {src px : Picture Px}
    (changed : opBlit w h dstX dstY src srcW srcH px p ≠ px p) :
    p ∈ (⟨dstX, dstY, srcW, srcH⟩ : Rect) := by
  simp only [opBlit] at changed
  have inside := mem_of_paint_ne changed
  simp only [mem_def] at inside ⊢
  split_ifs at inside <;> omega

theorem pxText_changed {font : Nat → Nat → Nat} {w h y : Int} {fg bg : Px} {s : List Nat} {x : Int}
    {px : Picture Px} (changed : pxText font w h y fg bg s x px p ≠ px p) :
    p ∈ (⟨x, y, 8 * s.length, 8⟩ : Rect) := by
  induction s generalizing x px with
  | nil => exact absurd rfl changed
  | cons ch s ih =>
    rw [pxText] at changed
    generalize drawn : paint (Rect.clip ⟨x, y, 8, 8⟩ w h)
      (glyphPicture (font (if ch > 127 then 63 else ch)) x y fg bg) px = next at changed
    have wide : ((ch :: s).length : Int) = s.length + 1 := by simp
    by_cases later : pxText font w h y fg bg s (x + 8) next p = next p
    · have here : p ∈ (⟨x, y, 8, 8⟩ : Rect) := by
        rw [later, ← drawn] at changed
        exact (Rect.mem_clip.mp (mem_of_paint_ne changed)).1
      simp only [mem_def, wide] at here ⊢
      omega
    · have behind := ih later
      simp only [mem_def, wide] at behind ⊢
      omega

theorem opFill_changed {w h : Int} {r : Rect} {v : Px} {px : Picture Px}
    (changed : opFill w h r v px p ≠ px p) : p ∈ r :=
  (Rect.mem_clip.mp (mem_of_paint_ne changed)).1

theorem pxOutline_changed {w h : Int} {r : Rect} {v : Px} {px : Picture Px}
    (sides : 0 < r.w ↔ 0 < r.h) (changed : pxOutline w h r v px p ≠ px p) : p ∈ r := by
  by_contra outside
  simp only [mem_def] at outside
  have kept (side : Rect) (px : Picture Px) (part : p ∉ side) : opFill w h side v px p = px p := by
    by_contra touched
    exact part (opFill_changed touched)
  apply changed
  rw [pxOutline, kept, kept, kept, kept] <;> simp only [mem_def] <;> omega

theorem draw_changed (plain : d.Plain) (changed : (draw c d).px p ≠ c.px p) : p ∈ d.rect := by
  cases d with
  | fill r v =>
    simp only [draw, canvasFill, canvasDamage_px] at changed
    exact (Rect.mem_clip.mp (opFill_changed changed)).1
  | blit dstX dstY src srcW srcH =>
    simp only [draw, canvasBlit, canvasDamage_px] at changed
    exact opBlit_changed changed
  | outline r v =>
    simp only [draw, canvasOutline, canvasDamage_px] at changed
    exact pxOutline_changed plain changed
  | text font x y s fg bg =>
    simp only [draw, canvasText, canvasDamage_px] at changed
    exact pxText_changed changed

theorem draw_covers (covered : p ∈ d.rect ∧ p ∈ c.area ∨ Covered c.damage.rects p) :
    Covered (draw c d).damage.rects p := by
  cases d with
  | fill r v =>
    apply canvasDamage_covers
    exact covered.imp_left fun both => ⟨Rect.mem_clip.mpr both, both.2⟩
  | blit dstX dstY src srcW srcH | outline r v | text font x y s fg bg =>
      exact canvasDamage_covers covered

theorem draw_area (c : Canvas) (d : Draw) : (draw c d).area = c.area := by
  cases d <;> exact canvasDamage_area _ _

theorem draw_moves (c : Canvas) (d : Draw) : (draw c d).moves = c.moves := by
  cases d <;> exact canvasDamage_moves _ _

end Drawing

section Moving

def Move.gone (m : Move) (w h : Int) : Bool :=
  decide (m.sx < 0) || decide (m.sy < 0) || decide (m.sx + m.r.w > w) || decide (m.sy + m.r.h > h)

/-- The pending note carried along by a later motion, clipped with its source. -/
def carry (w h : Int) (m : Move) (dx dy : Int) : Option Move :=
  let r := m.r.shift dx dy
  let k := r.clip w h
  if k.w ≤ 0 ∨ k.h ≤ 0 then none
  else
    let moved : Move := ⟨k, m.sx + (k.x - r.x), m.sy + (k.y - r.y)⟩
    if moved.gone w h then none else some moved

def canvasNoteMove (c : Canvas) (note : Move) : Canvas :=
  match c.moves.notes with
  | [m] =>
    { c with
      moves := ⟨(carry c.w c.h m (note.r.x - note.sx) (note.r.y - note.sy)).toList, by
        cases carry c.w c.h m (note.r.x - note.sx) (note.r.y - note.sy) <;> simp [moveMax]⟩ }
  | notes =>
    if fits : notes.length < moveMax then
      { c with moves := ⟨notes ++ [note], by rw [List.length_append]; exact fits⟩ }
    else c

def clipNote (w h : Int) (r : Rect) (sx sy : Int) : Option Move :=
  let k := r.clip w h
  if k.w ≤ 0 ∨ k.h ≤ 0 then none
  else
    let note : Move := ⟨k, k.x + (sx - r.x), k.y + (sy - r.y)⟩
    if note.gone w h then none else some note

def canvasMoved (c : Canvas) (r : Rect) (sx sy : Int) : Canvas :=
  match clipNote c.w c.h r sx sy with
  | none => c
  | some note => canvasNoteMove c note

/-- A window that has moved: the repaint of its new and old place, and the note. -/
def moveWindow (c : Canvas) (r : Rect) (sx sy : Int) (after : Picture Px) : Canvas :=
  let painted := canvasDamage (canvasDamage { c with px := after } ⟨sx, sy, r.w, r.h⟩) r
  canvasMoved painted r sx sy

def Move.source (m : Move) (p : Point) : Point := (p.1 + (m.sx - m.r.x), p.2 + (m.sy - m.r.y))

def Move.Inside (m : Move) (area : Rect) : Prop := ∀ p ∈ m.r, p ∈ area ∧ m.source p ∈ area

variable {c : Canvas} {r : Rect} {sx sy w h : Int} {after : Picture Px} {p : Point}

theorem inside_of_not_gone {m : Move} (clipped : ∀ p ∈ m.r, p ∈ (⟨0, 0, w, h⟩ : Rect))
    (stays : ¬m.gone w h = true) : m.Inside ⟨0, 0, w, h⟩ := by
  intro p inside
  refine ⟨clipped p inside, ?_⟩
  simp only [Move.gone, Bool.or_eq_true, decide_eq_true_eq, not_or] at stays
  simp only [mem_def, Move.source] at inside ⊢
  omega

theorem clipNote_spec {note : Move} (noted : clipNote w h r sx sy = some note) :
    note.Inside ⟨0, 0, w, h⟩ ∧
      ∀ p ∈ note.r, p ∈ r ∧ note.source p = (p.1 + (sx - r.x), p.2 + (sy - r.y)) := by
  obtain ⟨-, noted⟩ := Option.ite_none_left_eq_some.mp noted
  split at noted
  · cases noted
  · rename_i stays
    cases noted
    refine ⟨inside_of_not_gone (fun p inside => (Rect.mem_clip.mp inside).2) stays, ?_⟩
    intro p inside
    refine ⟨(Rect.mem_clip.mp inside).1, ?_⟩
    simp only [Move.source, Prod.mk.injEq]
    omega

theorem carry_spec {m moved : Move} {dx dy : Int} (carried : carry w h m dx dy = some moved) :
    moved.Inside ⟨0, 0, w, h⟩ ∧
      ∀ p ∈ moved.r, (p.1 - dx, p.2 - dy) ∈ m.r ∧
      moved.source p = m.source (p.1 - dx, p.2 - dy) := by
  obtain ⟨-, carried⟩ := Option.ite_none_left_eq_some.mp carried
  split at carried
  · cases carried
  · rename_i stays
    cases carried
    refine ⟨inside_of_not_gone (fun p inside => (Rect.mem_clip.mp inside).2) stays, ?_⟩
    intro p inside
    refine ⟨Rect.mem_shift.mp (Rect.mem_clip.mp inside).1, ?_⟩
    simp only [Move.source, Rect.shift, Prod.mk.injEq]
    omega

theorem canvasNoteMove_frame (c : Canvas) (note : Move) :
    (canvasNoteMove c note).px = c.px ∧ (canvasNoteMove c note).damage = c.damage ∧
      (canvasNoteMove c note).area = c.area := by
  unfold canvasNoteMove
  split
  · exact ⟨rfl, rfl, rfl⟩
  · split
    · exact ⟨rfl, rfl, rfl⟩
    · exact ⟨rfl, rfl, rfl⟩

theorem canvasMoved_frame (c : Canvas) (r : Rect) (sx sy : Int) :
    (canvasMoved c r sx sy).px = c.px ∧ (canvasMoved c r sx sy).damage = c.damage ∧
      (canvasMoved c r sx sy).area = c.area := by
  unfold canvasMoved
  split
  · exact ⟨rfl, rfl, rfl⟩
  · exact canvasNoteMove_frame c _

theorem moveWindow_px : (moveWindow c r sx sy after).px = after := by
  rw [moveWindow, (canvasMoved_frame _ _ _ _).1, canvasDamage_px, canvasDamage_px]

theorem moveWindow_area : (moveWindow c r sx sy after).area = c.area := by
  rw [moveWindow, (canvasMoved_frame _ _ _ _).2.2, canvasDamage_area, canvasDamage_area]
  rfl

theorem moveWindow_covers
    (covered : (p ∈ r ∨ p ∈ (⟨sx, sy, r.w, r.h⟩ : Rect)) ∧ p ∈ c.area ∨ Covered c.damage.rects p) :
    Covered (moveWindow c r sx sy after).damage.rects p := by
  rw [moveWindow, (canvasMoved_frame _ _ _ _).2.1]
  apply canvasDamage_covers
  rw [canvasDamage_area]
  rcases covered with ⟨new | old, inside⟩ | already
  · exact .inl ⟨new, inside⟩
  · exact .inr (canvasDamage_covers (.inl ⟨old, inside⟩))
  · exact .inr (canvasDamage_covers (.inr already))

theorem moveWindow_notes {m : Move} (noted : m ∈ (moveWindow c r sx sy after).moves.notes) :
    clipNote c.w c.h r sx sy = none ∧ m ∈ c.moves.notes ∨
      ∃ note, clipNote c.w c.h r sx sy = some note ∧
        ((∃ pending, c.moves.notes = [pending] ∧
            carry c.w c.h pending (note.r.x - note.sx) (note.r.y - note.sy) = some m) ∨
          c.moves.notes.length ≠ 1 ∧ (m = note ∨ m ∈ c.moves.notes)) := by
  simp only [moveWindow, canvasMoved, canvasDamage_w, canvasDamage_h] at noted
  cases clipped : clipNote c.w c.h r sx sy with
  | none =>
    simp only [clipped, canvasDamage_moves] at noted
    exact .inl ⟨rfl, noted⟩
  | some note =>
    right
    refine ⟨note, rfl, ?_⟩
    simp only [clipped, canvasNoteMove, canvasDamage_moves, canvasDamage_w, canvasDamage_h] at noted
    split at noted
    · rename_i pending single
      left
      exact ⟨pending, single, Option.mem_toList.mp noted⟩
    · rename_i several
      right
      constructor
      · intro one
        obtain ⟨pending, single⟩ := List.length_eq_one_iff.mp one
        exact several pending single
      · split at noted
        · rcases List.mem_append.mp noted with old | new
          · exact .inr old
          · exact .inl (List.mem_singleton.mp new)
        · simp only [canvasDamage_moves] at noted
          exact .inr noted

theorem moveWindow_single (single : c.moves.notes.length ≤ 1) :
    (moveWindow c r sx sy after).moves.notes.length ≤ 1 := by
  simp only [moveWindow, canvasMoved]
  split
  · simpa using single
  · unfold canvasNoteMove
    split
    · exact Option.length_toList_le
    · rename_i several
      rw [canvasDamage_moves, canvasDamage_moves] at several ⊢
      have none_yet : c.moves.notes = [] := by
        match notes : c.moves.notes with
        | [] => rfl
        | [m] => exact absurd notes (several m)
        | _ :: _ :: _ =>
          rw [notes] at single
          simp at single
      simp [none_yet, moveMax]

end Moving

end Espix.Display.Drawing
