import Espix.Display.Rfb

/-! A viewer converges to the canvas: what it does not show yet is damaged, or a full frame is
still owed to it. -/

namespace Espix.Display.Converge

open Drawing Rfb Lib.Plane Lib.Run

variable {C : Type} {colour : Px → C}

def view (colour : Px → C) (w : World C) : Picture C :=
  match w.flight with
  | none => w.client
  | some f => land colour f w.client

/-- A whole frame is owed: it was asked for, and the update that had it was deferred. -/
def Owed (w : World C) : Prop :=
  w.flight = none ∧ w.conn.pending = true ∧ w.conn.pendingFull = true

def Settled (w : World C) : Prop := w.seen = true ∨ ∃ f, w.flight = some f ∧ f.full = true

/-- The repaint stays in the window's new and old place, and the new place shows what the old
one showed before. -/
structure Truthful (c : Canvas) (r : Rect) (sx sy : Int) (after : Picture Px) : Prop where
  frame : ∀ p ∈ c.area, after p ≠ c.px p → p ∈ r ∨ p ∈ (⟨sx, sy, r.w, r.h⟩ : Rect)
  moved : ∀ p ∈ c.area, p ∈ r → (p.1 + (sx - r.x), p.2 + (sy - r.y)) ∈ c.area →
    after p = c.px (p.1 + (sx - r.x), p.2 + (sy - r.y))

/-- Once the viewer has seen a full frame: only a full frame is deferred, and no incremental
request comes while one is owed. An outline has both sides or neither. -/
def Kept (w : World C) : Event → Prop
  | .draw d => d.Plain
  | .move r sx sy after => Truthful w.canvas r sx sy after
  | .request full => w.seen = true → Owed w → full = true
  | .finish .blocked => w.seen = true → ∃ f, w.flight = some f ∧ f.full = true
  | _ => True

/-- For a viewer that takes copies. Nothing is drawn over a rectangle whose move is noted. A
first note is about pixels the viewer has as they were, and a later one takes the whole of
the noted rectangle along. -/
def Carries (colour : Px → C) (w : World C) : Event → Prop
  | .draw d => ∀ m ∈ w.canvas.moves.notes, ∀ p ∈ m.r, (draw w.canvas d).px p = w.canvas.px p
  | .move r sx sy after =>
    match clipNote w.canvas.w w.canvas.h r sx sy with
    | none => ∀ m ∈ w.canvas.moves.notes, ∀ p ∈ m.r, after p = w.canvas.px p
    | some note =>
      (w.canvas.moves.notes = [] → ∀ p ∈ note.r,
        view colour w (note.source p) = colour (w.canvas.px (note.source p))) ∧
      ∀ m ∈ w.canvas.moves.notes, ∀ p ∈ m.r, p ∈ (⟨note.sx, note.sy, note.r.w, note.r.h⟩ : Rect)
  | _ => True

section Steps

variable {c : Canvas} {seen : Picture C} {copyrect : Bool} {d : Draw}

theorem fresh_draw (fresh : Fresh colour copyrect c seen) (plain : d.Plain)
    (kept : copyrect = true → ∀ m ∈ c.moves.notes, ∀ p ∈ m.r, (draw c d).px p = c.px p) :
    Fresh colour copyrect (draw c d) seen where
  covered p inside differs := by
    rw [draw_area] at inside
    apply draw_covers
    by_cases changed : (draw c d).px p = c.px p
    · right
      rw [changed] at differs
      exact fresh.covered p inside differs
    · exact .inl ⟨draw_changed plain changed, inside⟩
  single accepts := by
    rw [draw_moves]
    exact fresh.single accepts
  copied accepts m noted := by
    rw [draw_moves] at noted
    obtain ⟨within, source⟩ := fresh.copied accepts m noted
    rw [draw_area]
    refine ⟨within, ?_⟩
    intro p inside
    rw [kept accepts m noted p inside]
    exact source p inside

theorem truthful_note {r : Rect} {sx sy : Int} {after : Picture Px} {note : Move} {p : Point}
    (truthful : Truthful c r sx sy after) (noted : clipNote c.w c.h r sx sy = some note)
    (inside : p ∈ note.r) : after p = c.px (note.source p) := by
  obtain ⟨within, source⟩ := clipNote_spec noted
  obtain ⟨given, from_there⟩ := source p inside
  have there : note.source p ∈ c.area := (within p inside).2
  rw [from_there] at there ⊢
  exact truthful.moved p (within p inside).1 given there

theorem fresh_move {w : World C} {r : Rect} {sx sy : Int} {after : Picture Px}
    (fresh : Fresh colour copyrect w.canvas (view colour w))
    (truthful : Truthful w.canvas r sx sy after)
    (carries : copyrect = true → Carries colour w (.move r sx sy after)) :
    Fresh colour copyrect (moveWindow w.canvas r sx sy after) (view colour w) where
  covered p inside differs := by
    rw [moveWindow_area] at inside
    rw [moveWindow_px] at differs
    apply moveWindow_covers
    by_cases changed : after p = w.canvas.px p
    · right
      rw [changed] at differs
      exact fresh.covered p inside differs
    · exact .inl ⟨truthful.frame p inside changed, inside⟩
  single accepts := moveWindow_single (fresh.single accepts)
  copied accepts m noted := by
    have condition := carries accepts
    simp only [Carries] at condition
    rw [moveWindow_area, moveWindow_px]
    rcases moveWindow_notes noted with ⟨dropped, old⟩ | ⟨note, made,
      ⟨pending, only, carried⟩ | ⟨none_yet, which⟩⟩
    · -- no note: the move is a drawing like any other
      rw [dropped] at condition
      obtain ⟨within, source⟩ := fresh.copied accepts m old
      refine ⟨within, ?_⟩
      intro p inside
      rw [condition m old p inside]
      exact source p inside
    · -- the pending note goes along
      rw [made] at condition
      have pending_noted : pending ∈ w.canvas.moves.notes := by
        rw [only]
        exact List.mem_singleton.mpr rfl
      obtain ⟨within, source⟩ := carry_spec carried
      refine ⟨within, ?_⟩
      intro p inside
      obtain ⟨before, same⟩ := source p inside
      have left := condition.2 pending pending_noted _ before
      have arrived : p ∈ note.r := by
        simp only [mem_def] at left ⊢
        omega
      have back : note.source p = (p.1 - (note.r.x - note.sx), p.2 - (note.r.y - note.sy)) := by
        simp only [Move.source, Prod.mk.injEq]
        omega
      rw [same, (fresh.copied accepts pending pending_noted).2 _ before,
        truthful_note truthful made arrived, back]
    · -- a first note
      rw [made] at condition
      have empty : w.canvas.moves.notes = [] := by
        have single := fresh.single accepts
        rw [← List.length_eq_zero_iff]
        omega
      rw [empty] at which
      rcases which with rfl | member
      · refine ⟨(clipNote_spec made).1, ?_⟩
        intro p inside
        rw [condition.1 empty p inside, truthful_note truthful made inside]
      · cases member

end Steps

structure Inv (colour : Px → C) (w : World C) : Prop where
  fresh : Settled w → Owed w ∨ Fresh colour w.conn.copyrect w.canvas (view colour w)
  asked : ∀ f, w.flight = some f → w.conn.pending = true ∧ w.conn.pendingFull = f.full

section Runs

variable {w u : World C} {e : Event} {c : Canvas} {client : Picture C}

theorem Inv.connected (colour : Px → C) (c : Canvas) (copyrect : Bool) (client : Picture C) :
    Inv colour (connected c copyrect client) where
  fresh := by
    rintro (seen | ⟨f, flying, -⟩)
    · cases seen
    · cases flying
  asked := nofun

theorem view_idle (idle : w.flight = none) : view colour w = w.client := by
  rw [view, idle]

theorem planned_full (copyrect full : Bool) (c : Canvas) :
    (planned copyrect full c).full = full := by
  cases full with
  | true => rfl
  | false =>
    simp only [planned, Bool.false_eq_true, if_false]
    split <;> rfl

theorem updateTake_inv (idle : w.flight = none) (pending : w.conn.pending = true)
    (ready : w.seen = true → w.conn.pendingFull = true ∨
      Fresh colour w.conn.copyrect w.canvas w.client) : Inv colour (updateTake w) := by
  simp only [updateTake]
  split
  · rename_i nothing
    refine ⟨?_, ?_⟩
    · rintro (seen | ⟨f, flying, -⟩)
      · right
        rw [view_idle idle]
        rcases ready seen with full | fresh
        · rw [nothing.1] at full
          cases full
        · exact fresh
      · rw [idle] at flying
        cases flying
    · intro f flying
      rw [idle] at flying
      cases flying
  · refine ⟨?_, ?_⟩
    · intro settled
      right
      apply Shows.fresh _ rfl
      show Shows colour w.canvas
        (land colour (planned w.conn.copyrect w.conn.pendingFull w.canvas) w.client)
      cases full : w.conn.pendingFull with
      | true => exact land_full w.client
      | false =>
        have seen : w.seen = true := by
          rcases settled with seen | ⟨f, flying, whole⟩
          · exact seen
          · cases flying
            rw [planned_full, full] at whole
            cases whole
        have fresh : Fresh colour w.conn.copyrect w.canvas w.client := by
          simpa [full] using ready seen
        exact land_planned fresh false
    · intro f flying
      cases flying
      exact ⟨pending, (planned_full _ _ _).symm⟩

theorem Inv.redraw {c : Canvas} (inv : Inv colour w)
    (keeps : Fresh colour w.conn.copyrect w.canvas (view colour w) →
      Fresh colour w.conn.copyrect c (view colour w)) : Inv colour { w with canvas := c } :=
  ⟨fun settled => (inv.fresh settled).imp_right keeps, inv.asked⟩

theorem step_inv (inv : Inv colour w) (kept : Kept w e)
    (carries : w.conn.copyrect = true → Carries colour w e) (next : step colour w e = some u) :
    Inv colour u := by
  have ready (idle : w.flight = none) (seen : w.seen = true) :
      w.conn.pendingFull = true ∧ Owed w ∨ Fresh colour w.conn.copyrect w.canvas w.client := by
    rcases inv.fresh (.inl seen) with owed | fresh
    · exact .inl ⟨owed.2.2, owed⟩
    · rw [view_idle idle] at fresh
      exact .inr fresh
  revert kept carries next
  fun_cases step colour w e with
  | case1 d =>
    rintro kept carries ⟨⟩
    exact inv.redraw fun fresh => fresh_draw fresh kept carries
  | case2 r sx sy after =>
    rintro kept carries ⟨⟩
    exact inv.redraw fun fresh => fresh_move fresh kept carries
  | case4 full idle =>
    rintro kept - ⟨⟩
    refine updateTake_inv idle rfl fun seen => ?_
    exact (ready idle seen).imp_left fun owed => kept seen owed.2
  | case6 idle pending =>
    rintro - - ⟨⟩
    exact updateTake_inv idle pending fun seen => (ready idle seen).imp_left And.left
  | case9 outcome f flying =>
    intro kept _ finished
    cases outcome with
    | gone => cases finished
    | accepted =>
      cases finished
      refine ⟨fun settled => .inr ?_, nofun⟩
      have before : Settled w := by
        rcases settled with seen | ⟨g, none_flying, -⟩
        · rcases Bool.or_eq_true_iff.mp seen with old | whole
          · exact .inl old
          · exact .inr ⟨f, flying, whole⟩
        · cases none_flying
      have same : view colour w = land colour f w.client := by rw [view, flying]
      rcases inv.fresh before with owed | fresh
      · rw [owed.1] at flying
        cases flying
      · rw [same] at fresh
        exact fresh
    | blocked =>
      simp only [updateFinish, Option.ite_none_left_eq_some, Option.some.injEq] at finished
      obtain ⟨-, rfl⟩ := finished
      refine ⟨fun settled => .inl ?_, nofun⟩
      have seen : w.seen = true := by
        rcases settled with seen | ⟨g, none_flying, -⟩
        · exact seen
        · cases none_flying
      obtain ⟨g, g_flying, whole⟩ := kept seen
      obtain ⟨pending, same⟩ := inv.asked g g_flying
      exact ⟨rfl, pending, same.trans whole⟩
  | _ => rintro - - ⟨⟩

theorem updateTake_keeps (w : World C) :
    (updateTake w).conn.copyrect = w.conn.copyrect ∧ (updateTake w).seen = w.seen := by
  simp only [updateTake]
  split <;> exact ⟨rfl, rfl⟩

theorem step_keeps (next : step colour w e = some u) :
    u.conn.copyrect = w.conn.copyrect ∧ (w.seen = true → u.seen = true) := by
  have taken (w : World C) : (updateTake w).conn.copyrect = w.conn.copyrect ∧
      (w.seen = true → (updateTake w).seen = true) :=
    ⟨(updateTake_keeps w).1, fun seen => (updateTake_keeps w).2.trans seen⟩
  revert next
  fun_cases step colour w e with
  | case1 | case2 =>
    rintro ⟨⟩
    exact ⟨rfl, id⟩
  | case4 | case6 =>
    rintro ⟨⟩
    exact taken _
  | case9 outcome f =>
    intro finished
    cases outcome with
    | gone => cases finished
    | accepted =>
      cases finished
      exact ⟨rfl, fun seen => Bool.or_eq_true_iff.mpr (.inl seen)⟩
    | blocked =>
      simp only [updateFinish, Option.ite_none_left_eq_some, Option.some.injEq] at finished
      rw [← finished.2]
      exact ⟨rfl, id⟩
  | _ => rintro ⟨⟩

def Asks : Event → Prop
  | .request _ => True
  | .retry => True
  | _ => False

theorem updateTake_clean (w : World C) : (updateTake w).canvas.damage.rects = [] ∧
    ((updateTake w).flight = none → (updateTake w).conn.pendingFull = false) := by
  simp only [updateTake]
  split
  · rename_i nothing
    exact ⟨nothing.2.1, fun _ => nothing.1⟩
  · exact ⟨rfl, nofun⟩

theorem asks_clean (asks : Asks e) (next : step colour w e = some u) :
    u.canvas.damage.rects = [] ∧ (u.flight = none → u.conn.pendingFull = false) ∧
      u.seen = w.seen := by
  revert asks next
  fun_cases step colour w e with
  | case1 | case2 | case9 => exact fun asks => asks.elim
  | case4 | case6 =>
    rintro - ⟨⟩
    exact ⟨(updateTake_clean _).1, (updateTake_clean _).2, (updateTake_keeps _).2⟩
  | _ => rintro - ⟨⟩

theorem asks_shows (inv : Inv colour u) (asks : Asks e) (next : step colour w e = some u)
    (seen : w.seen = true) : Shows colour u.canvas (view colour u) := by
  obtain ⟨clean, not_full, same⟩ := asks_clean asks next
  have fresh : Fresh colour u.conn.copyrect u.canvas (view colour u) := by
    rcases inv.fresh (.inl (same.trans seen)) with owed | fresh
    · have full := owed.2.2
      rw [not_full owed.1] at full
      cases full
    · exact fresh
  intro p inside
  by_contra differs
  have damaged := fresh.covered p inside differs
  rw [clean] at damaged
  exact covered_nil damaged

theorem next_update_shows (inv : Inv colour u) (asks : Asks e) (next : step colour w e = some u)
    (seen : w.seen = true) :
    (u.flight = none → Shows colour u.canvas u.client) ∧
      ∀ v, step colour u (.finish .accepted) = some v → Shows colour v.canvas v.client := by
  have shows := asks_shows inv asks next seen
  refine ⟨?_, ?_⟩
  · intro nothing
    rw [view_idle nothing] at shows
    exact shows
  · intro v arrived
    obtain ⟨f, flying, finished⟩ := step_finish arrived
    cases finished
    rw [view, flying] at shows
    exact shows

/-- In every run of drawing, requests and updates of a viewer without CopyRect. -/
theorem viewer_converges {es : List Event}
    (reached : run (step colour) (connected c false client) es = some w)
    (kept : Along (step colour) Kept (connected c false client) es) (seen : w.seen = true)
    (idle : w.flight = none) :
    (∀ p ∈ w.canvas.area, w.client p ≠ colour (w.canvas.px p) →
      Covered w.canvas.damage.rects p ∨ Owed w) ∧
    ∀ ask u, Asks ask → Kept w ask → step colour w ask = some u →
      (u.flight = none → Shows colour u.canvas u.client) ∧
      ∀ v, step colour u (.finish .accepted) = some v → Shows colour v.canvas v.client := by
  have holds : Inv colour w ∧ w.conn.copyrect = false := by
    apply run_invariant_along (P := fun w : World C => Inv colour w ∧ w.conn.copyrect = false) _
      kept reached ⟨Inv.connected colour c false client, rfl⟩
    intro w e u before ok next
    refine ⟨step_inv before.1 ok ?_ next, (step_keeps next).1.trans before.2⟩
    intro accepts
    rw [before.2] at accepts
    cases accepts
  refine ⟨?_, ?_⟩
  · intro p inside differs
    rcases holds.1.fresh (.inl seen) with owed | fresh
    · exact .inr owed
    · rw [view_idle idle] at fresh
      exact .inl (fresh.covered p inside differs)
  · intro ask u asks ok next
    have inv : Inv colour u := by
      apply step_inv holds.1 ok _ next
      intro accepts
      rw [holds.2] at accepts
      cases accepts
    exact next_update_shows inv asks next seen

end Runs

section Cases

def blank : Canvas := ⟨320, 200, fun _ => 0, .none, .none⟩

def viewer : World Px := connected blank false fun _ => 0xFFFF

def squared : List Event :=
  [.request true, .finish .accepted, .draw (.fill ⟨10, 10, 5, 5⟩ 7)]

theorem square_reaches_viewer :
    ∃ w u v, run (step id) viewer squared = some w ∧ w.client (10, 10) ≠ w.canvas.px (10, 10) ∧
      (∀ p ∈ w.canvas.area, w.client p ≠ id (w.canvas.px p) →
        Covered w.canvas.damage.rects p ∨ Owed w) ∧
      step id w (.request false) = some u ∧ step id u (.finish .accepted) = some v ∧
      Shows id v.canvas v.client := by
  have kept : Along (step id) Kept viewer squared := by
    refine ⟨fun _ _ => rfl, fun w first => ⟨trivial, fun u second => ⟨trivial, fun _ _ => trivial⟩⟩⟩
  have converges :=
    viewer_converges (show run (step id) viewer squared = some _ from rfl) kept rfl rfl
  refine ⟨_, _, _, rfl, by decide, converges.1, rfl, rfl, ?_⟩
  exact (converges.2 (.request false) _ trivial (fun _ owed => by cases owed.2.1) rfl).2 _ rfl

/-- The viewer has another pixel than the canvas, and nothing says that it should get it. -/
def stale (p : Point) (w : World Px) : Bool :=
  w.seen && w.flight.isNone && w.client p != w.canvas.px p &&
    !decide (Covered w.canvas.damage.rects p) && !(w.conn.pending && w.conn.pendingFull)

/-- The write of an incremental update would block, and its damage is gone. An incremental
request comes while a deferred full frame is owed, and cancels it. An outline without height
draws two lines and damages nothing. -/
theorem pixels_lost_without_damage :
    (run (step id) viewer (squared ++ [.request false, .finish .blocked])).map (stale (10, 10)) =
        some true ∧
      (run (step id) viewer
        (squared ++ [.request true, .finish .blocked, .request false])).map (stale (10, 10)) =
        some true ∧
      (run (step id) viewer [.request true, .finish .accepted,
        .draw (.outline ⟨10, 10, 5, 0⟩ 7)]).map (stale (10, 10)) = some true := by
  decide +kernel

end Cases

end Espix.Display.Converge
