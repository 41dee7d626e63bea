import Espix.Display.Converge

/-! CopyRect: an update that moves pixels within the viewer's own picture.

The note of a move is one rectangle that later motions carry along, and the damage inside it
is not sent. This is sound as long as the note stays true of the viewer's picture. -/

namespace Espix.Display.CopyRect

open Converge Drawing Rfb Lib.Plane Lib.Run

variable {C : Type} {colour : Px → C} {w u v : World C} {e : Event}

/-- From a viewer that shows the canvas, through any drawing, moves and updates. -/
theorem copy_update_shows_canvas {es : List Event} (shows : Shows colour w.canvas w.client)
    (seen : w.seen = true) (quiet : w.canvas.moves.notes = []) (idle : w.flight = none)
    (reached : run (step colour) w es = some u)
    (carries : Along (step colour) (fun w e => Kept w e ∧ Carries colour w e) w es)
    (asks : Asks e) (kept : Kept u e) (next : step colour u e = some v) :
    (v.flight = none → Shows colour v.canvas v.client) ∧
      ∀ z, step colour v (.finish .accepted) = some z → Shows colour z.canvas z.client := by
  have start : Inv colour w := by
    refine ⟨fun _ => .inr ?_, ?_⟩
    · rw [view_idle idle]
      exact shows.fresh quiet
    · rw [idle]
      nofun
  have holds : Inv colour u ∧ u.seen = true := by
    apply run_invariant_along (P := fun u : World C => Inv colour u ∧ u.seen = true) _ carries
      reached ⟨start, seen⟩
    intro u e v before ok next
    exact ⟨step_inv before.1 ok.1 (fun _ => ok.2) next, (step_keeps next).2 before.2⟩
  have asked : Carries colour u e := by
    cases e with
    | draw _ | move _ _ _ _ | finish _ => exact asks.elim
    | request _ | retry => trivial
  exact next_update_shows (step_inv holds.1 kept (fun _ => asked) next) asks next holds.2

section Cases

def slide (px : Picture Px) (r : Rect) (sx sy : Int) : Picture Px := fun p =>
  if p ∈ r then px (p.1 + (sx - r.x), p.2 + (sy - r.y))
  else if p ∈ (⟨sx, sy, r.w, r.h⟩ : Rect) then 0
  else px p

theorem slide_truthful {c : Canvas} {px : Picture Px} (same : c.px = px) (r : Rect) (sx sy : Int) :
    Truthful c r sx sy (slide px r sx sy) where
  frame p _ changed := by
    by_contra neither
    rw [not_or] at neither
    apply changed
    rw [slide, if_neg neither.1, if_neg neither.2, same]
  moved p _ inside _ := by
    rw [slide, if_pos inside, same]

def windows : Picture Px := fun p =>
  if p ∈ (⟨10, 10, 5, 5⟩ : Rect) then 7 else if p ∈ (⟨100, 100, 5, 5⟩ : Rect) then 8 else 0

def synced : World Px :=
  { canvas := ⟨320, 200, windows, .none, .none⟩
    conn := ⟨true, false, false, 0⟩
    client := windows
    flight := none
    seen := true }

def slid : Picture Px := slide windows ⟨30, 10, 5, 5⟩ 10 10

def firstSlide : Event := .move ⟨30, 10, 5, 5⟩ 10 10 slid

theorem second_truthful (r : Rect) (sx sy : Int) :
    Truthful (moveWindow synced.canvas ⟨30, 10, 5, 5⟩ 10 10 slid) r sx sy (slide slid r sx sy) :=
  slide_truthful moveWindow_px r sx sy

def drag : List Event := [firstSlide, .move ⟨40, 12, 5, 5⟩ 30 10 (slide slid ⟨40, 12, 5, 5⟩ 30 10)]

theorem drag_copied_once :
    ∃ u v z, run (step id) synced drag = some u ∧ step id u (.request false) = some v ∧
      step id v (.finish .accepted) = some z ∧
      v.flight.map (·.copy) = some (some ⟨⟨40, 12, 5, 5⟩, 10, 10⟩) ∧ z.client (40, 12) = 7 ∧
      Shows id z.canvas z.client := by
  have carries : Along (step id) (fun w e => Kept w e ∧ Carries id w e) synced drag := by
    refine ⟨⟨slide_truthful rfl _ _ _, fun _ p _ => rfl, nofun⟩, fun u first => ?_⟩
    cases first
    refine ⟨⟨second_truthful _ _ _, nofun, ?_⟩, fun _ _ => trivial⟩
    intro m noted p inside
    rw [List.mem_singleton.mp noted] at inside
    exact inside
  refine ⟨_, _, _, rfl, rfl, rfl, rfl, rfl, ?_⟩
  exact (copy_update_shows_canvas (e := .request false)
    (fun p _ => rfl) rfl rfl rfl rfl carries trivial
    (fun _ owed => by cases owed.2.1) rfl).2 _ rfl

def differs (p : Point) (w : World Px) : Bool := w.client p != w.canvas.px p

def update : List Event := [.request false, .finish .accepted]

def redrawn : Canvas := draw synced.canvas (.fill ⟨10, 10, 5, 5⟩ 9)

def drawnThenMoved : List Event :=
  [.draw (.fill ⟨10, 10, 5, 5⟩ 9),
    .move ⟨30, 10, 5, 5⟩ 10 10 (slide redrawn.px ⟨30, 10, 5, 5⟩ 10 10)]

def movedThenDrawn : List Event := [firstSlide, .draw (.fill ⟨31, 11, 2, 2⟩ 9)]

def otherWindow : List Event :=
  [firstSlide, .move ⟨100, 120, 5, 5⟩ 100 100 (slide slid ⟨100, 120, 5, 5⟩ 100 100)]

/-- The drawing is damaged and the notes are truthful, and the update leaves a wrong pixel. -/
theorem copy_leaves_wrong_pixel :
    (Along (step id) Kept synced drawnThenMoved ∧
      (run (step id) synced (drawnThenMoved ++ update)).map (differs (30, 10)) = some true) ∧
    (Along (step id) Kept synced movedThenDrawn ∧
      (run (step id) synced (movedThenDrawn ++ update)).map (differs (31, 11)) = some true) ∧
    (Along (step id) Kept synced otherWindow ∧
      (run (step id) synced (otherWindow ++ update)).map (differs (30, 30)) = some true) := by
  refine ⟨⟨⟨trivial, fun u first => ?_⟩, by decide +kernel⟩,
    ⟨⟨slide_truthful rfl _ _ _, fun u first => ⟨trivial, fun _ _ => trivial⟩⟩, by decide +kernel⟩,
    ⟨⟨slide_truthful rfl _ _ _, fun u first => ?_⟩, by decide +kernel⟩⟩
  · cases first
    exact ⟨slide_truthful (c := redrawn) rfl _ _ _, fun _ _ => trivial⟩
  · cases first
    exact ⟨second_truthful _ _ _, fun _ _ => trivial⟩

end Cases

end Espix.Display.CopyRect
