import Espix.Display.Drawing
import Espix.Lib.Run

/-! `components/espix_display/rfb.c`: a viewer's requests and the updates that answer them.

`update_send` takes the damage and copies the pixels under the canvas lock and writes them
afterwards, so drawing goes on between the two halves; they are two steps here. The viewer
gets the pixels of a rectangle as its pixel format shows them: Raw and Hextile lose nothing,
and a viewer that takes lossy JPEG is left out. -/

namespace Espix.Display.Rfb

open Drawing Lib.Plane Lib.Run

/-- What one update carries: the copy, the rectangles, and the pixels copied out. -/
structure Frame where
  full : Bool
  copy : Option Move
  rects : List Rect
  picture : Picture Px

def copyPlan (copyrect : Bool) (notes : List Move) (rects : List Rect) :
    Option (Move × List Rect) :=
  match notes with
  | [m] =>
    let keep := rects.flatMap (·.subtract m.r)
    if copyrect && decide (keep.length ≤ damageMax) then some (m, keep) else none
  | _ => none

/-- What `update_send` takes from the canvas. Without a copy the moved rectangles go as
pixels, as far as there is room. -/
def planned (copyrect full : Bool) (c : Canvas) : Frame :=
  if full then ⟨true, none, [c.area], c.px⟩
  else
    let rects := c.damage.rects.reverse
    let notes := c.moves.notes.reverse
    match copyPlan copyrect notes rects with
    | some (m, keep) => ⟨false, some m, keep, c.px⟩
    | none => ⟨false, none, rects ++ (notes.map (·.r)).take (damageMax - rects.length), c.px⟩

structure Conn where
  copyrect : Bool
  pending : Bool
  pendingFull : Bool
  deferred : Nat

def deferLimit : Nat := 40

/-- The canvas, the connection, what the viewer shows, the update that is being written, and
whether a full one has ever been completed. -/
structure World (C : Type) where
  canvas : Canvas
  conn : Conn
  client : Picture C
  flight : Option Frame
  seen : Bool

inductive Outcome
  | accepted
  | blocked
  | gone

inductive Event
  | draw (d : Draw)
  /-- A window is repainted at its new and its old place, and the move is noted. -/
  | move (r : Rect) (sx sy : Int) (after : Picture Px)
  | request (full : Bool)
  | retry
  | finish (outcome : Outcome)

section Steps

variable {C : Type} (colour : Px → C)

def land (f : Frame) (client : Picture C) : Picture C :=
  paintAll f.rects (fun p => colour (f.picture p))
    (match f.copy with
      | none => client
      | some m => copyIn m.r m.sx m.sy client)

/-- `update_send` up to the first write. With nothing to say it takes nothing, and the viewer
gets an update without rectangles. -/
def updateTake (w : World C) : World C :=
  let c := w.canvas
  if w.conn.pendingFull = false ∧ c.damage.rects = [] ∧ c.moves.notes = [] then w
  else
    { w with
      canvas := { c with damage := .none, moves := .none }
      flight := some (planned w.conn.copyrect w.conn.pendingFull c) }

def updateFinish (w : World C) (f : Frame) : Outcome → Option (World C)
  | .accepted =>
    some { w with
      conn := { w.conn with pending := false, pendingFull := false, deferred := 0 }
      client := land colour f w.client
      flight := none
      seen := w.seen || f.full }
  | .blocked =>
    if w.conn.deferred + 1 > deferLimit then none
    else some { w with
      conn := { w.conn with deferred := w.conn.deferred + 1 }
      flight := none }
  | .gone => none

def step (w : World C) : Event → Option (World C)
  | .draw d => some { w with canvas := Drawing.draw w.canvas d }
  | .move r sx sy after => some { w with canvas := moveWindow w.canvas r sx sy after }
  | .request full =>
    match w.flight with
    | some _ => none
    | none =>
        some (updateTake { w with conn := { w.conn with pending := true, pendingFull := full } })
  | .retry =>
    match w.flight with
    | some _ => none
    | none => if w.conn.pending then some (updateTake w) else none
  | .finish outcome =>
    match w.flight with
    | none => none
    | some f => updateFinish colour w f outcome

section Inversion

variable {colour} {w u : World C}

theorem step_finish {outcome : Outcome} (next : step colour w (.finish outcome) = some u) :
    ∃ f, w.flight = some f ∧ updateFinish colour w f outcome = some u := by
  simp only [step] at next
  split at next
  · cases next
  · rename_i f flying
    exact ⟨f, flying, next⟩

end Inversion

/-- After the handshake: the old damage is dropped, and the viewer may show anything. -/
def connected (c : Canvas) (copyrect : Bool) (client : Picture C) : World C :=
  { canvas := { c with damage := .none }
    conn := ⟨copyrect, false, false, 0⟩
    client := client
    flight := none
    seen := false }

end Steps

section Landing

variable {C : Type} {colour : Px → C}

/-- What the viewer shows can be made the canvas by what is noted: every pixel that differs is
damaged, and a noted move says truly where its pixels are to be found. -/
structure Fresh (colour : Px → C) (copyrect : Bool) (c : Canvas) (view : Picture C) : Prop where
  covered : ∀ p ∈ c.area, view p ≠ colour (c.px p) → Covered c.damage.rects p
  single : copyrect = true → c.moves.notes.length ≤ 1
  copied : copyrect = true → ∀ m ∈ c.moves.notes,
    m.Inside c.area ∧ ∀ p ∈ m.r, view (m.source p) = colour (c.px p)

def Shows (colour : Px → C) (c : Canvas) (view : Picture C) : Prop :=
  ∀ p ∈ c.area, view p = colour (c.px p)

variable {c : Canvas} {view : Picture C} {copyrect : Bool}

theorem copyPlan_some {notes : List Move} {rects keep : List Rect} {m : Move}
    (plan : copyPlan copyrect notes rects = some (m, keep)) :
    copyrect = true ∧ notes = [m] ∧ keep = rects.flatMap (·.subtract m.r) := by
  unfold copyPlan at plan
  split at plan
  · simp only [Option.ite_none_right_eq_some, Bool.and_eq_true, Option.some.injEq,
      Prod.mk.injEq] at plan
    obtain ⟨⟨accepts, -⟩, rfl, rfl⟩ := plan
    exact ⟨accepts, rfl, rfl⟩
  · cases plan

theorem land_full (view : Picture C) :
    Shows colour c (land colour (planned copyrect true c) view) := by
  intro p inside
  apply paintAll_covered
  simpa [planned] using inside

theorem land_planned (fresh : Fresh colour copyrect c view) (full : Bool) :
    Shows colour c (land colour (planned copyrect full c) view) := by
  cases full with
  | true => exact land_full view
  | false =>
    intro p inside
    have same (uncovered : ¬Covered c.damage.rects p) : view p = colour (c.px p) := by
      by_contra differs
      exact uncovered (fresh.covered p inside differs)
    simp only [planned, Bool.false_eq_true, if_false]
    split
    · rename_i m keep plan
      obtain ⟨accepts, single, rfl⟩ := copyPlan_some plan
      have noted : m ∈ c.moves.notes := by
        rw [← List.mem_reverse, single]
        exact List.mem_singleton.mpr rfl
      by_cases moved : p ∈ m.r
      · -- the damage in the moved rectangle was taken out; the copy brings these pixels
        have uncovered : ¬Covered (c.damage.rects.reverse.flatMap (·.subtract m.r)) p := by
          rw [covered_flatMap_subtract]
          tauto
        rw [land, paintAll_not_covered uncovered]
        exact (paint_mem _ _ moved).trans ((fresh.copied accepts m noted).2 p moved)
      · by_cases damaged : Covered c.damage.rects p
        · apply paintAll_covered
          rw [covered_flatMap_subtract, covered_reverse]
          exact ⟨damaged, moved⟩
        · have uncovered : ¬Covered (c.damage.rects.reverse.flatMap (·.subtract m.r)) p := by
            rw [covered_flatMap_subtract, covered_reverse]
            tauto
          rw [land, paintAll_not_covered uncovered]
          exact (paint_not_mem _ _ moved).trans (same damaged)
    · generalize rects_are : c.damage.rects.reverse ++ _ = rects
      by_cases covered : Covered rects p
      · exact paintAll_covered covered
      · rw [land, paintAll_not_covered covered]
        apply same
        intro damaged
        rw [← rects_are, covered_append, covered_reverse] at covered
        exact covered (.inl damaged)

theorem Shows.fresh (shows : Shows colour c view) (none_noted : c.moves.notes = []) :
    Fresh colour copyrect c view where
  covered p inside differs := absurd (shows p inside) differs
  single _ := by
    rw [none_noted]
    exact Nat.zero_le 1
  copied _ m noted := by
    rw [none_noted] at noted
    cases noted

end Landing

end Espix.Display.Rfb
