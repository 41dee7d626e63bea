import Espix.Proc.Arena
import Mathlib.Data.List.Nodup
import Mathlib.Data.List.Perm.Basic

/-! Every block of the global heap is given back once.

While the process lives, what is out of the global heap is what its slot names: the bases of the
regions, the escaped blocks, and the index of the regions. -/

namespace Espix.Proc.Arena

open Lib.Ask Lib.Run
open Lib.Blocks (Heap Out Ledger)
open scoped List

def owned (slot : Slot) : List Nat := slot.regions.map (·.base) ++ slot.escaped.map (·.addr) ++
    slot.index.toList

structure Fits (slot : Slot) (m : Memory) : Prop where
  ledger : Ledger m.heap
  index : ∀ a, slot.index = some a → ∃ n, Out m.heap a n
  regions : ∀ r ∈ slot.regions, Out m.heap r.base r.size
  escaped : ∀ e ∈ slot.escaped, Out m.heap e.addr e.size
  distinct : (owned slot).Nodup
  all : ∀ a n, Out m.heap a n → a ∈ owned slot
  inner : ∀ p ∈ m.inner, ∃ r ∈ slot.regions, r.base ≤ p ∧ p < r.base + r.size
  once : m.inner.Nodup

def Usable (slot : Slot) (m : Memory) (p : Nat) : Prop :=
  p ∈ m.inner ∨ ∃ e ∈ slot.escaped, e.addr = p

variable {spiram : Bool} {n p a base : Nat}

section Primitives

variable {m : Memory}

theorem after_malloc {P : Memory → Option Nat → Prop} (failed : P m none)
    (done : ∀ p heap, Lib.Blocks.take m.heap p n = some heap → P { m with heap } (some p)) :
    After machine (malloc spiram n) m P := by
  intro a t answered
  cases a with
  | none =>
    cases answered
    exact failed
  | some p =>
    obtain ⟨heap, taken, rfl⟩ := Option.map_eq_some_iff.mp answered
    exact done p heap taken

theorem after_free {P : Memory → Unit → Prop}
    (done : P { m with heap := Lib.Blocks.give m.heap p } ()) :
    After machine (free p) m P := by
  intro a t answered
  cases answered
  exact done

theorem after_realloc {k : Nat} {P : Memory → Option Nat → Prop} (ledger : Ledger m.heap)
    (out : Out m.heap a k) (failed : P m none)
    (done : ∀ q heap, Lib.Blocks.resize m.heap a q n = some heap → P { m with heap } (some q)) :
    After machine (realloc spiram (some a) n) m P := by
  intro answer t answered
  cases answer with
  | none =>
    cases answered
    rw [Lib.Blocks.touch, ledger.isOut out]
    exact failed
  | some q =>
    obtain ⟨heap, resized, rfl⟩ := Option.map_eq_some_iff.mp answered
    exact done q heap resized

section

variable {P : Memory → Option Nat → Prop} (failed : P m none)

include failed

theorem after_realloc_null (done : ∀ p heap, Lib.Blocks.take m.heap p n = some heap →
    P { m with heap } (some p)) :
    After machine (realloc spiram none n) m P := by
  intro a t answered
  cases a with
  | none =>
    cases answered
    exact failed
  | some p =>
    obtain ⟨heap, taken, rfl⟩ := Option.map_eq_some_iff.mp answered
    exact done p heap taken

theorem after_multiHeapMalloc (done : ∀ p, within m.heap base p = true → p ∉ m.inner →
    P { m with inner := p :: m.inner } (some p)) :
    After machine (multiHeapMalloc base n) m P := by
  intro a t answered
  cases a with
  | none =>
    cases answered
    exact failed
  | some p =>
    obtain ⟨legal, ⟨⟩⟩ := Option.ite_none_right_eq_some.mp answered
    exact done p legal.1 legal.2

theorem after_multiHeapRealloc (done : ∀ q, within m.heap base q = true → (q = p ∨ q ∉ m.inner) →
      P { m with inner := q :: m.inner.erase p } (some q)) :
    After machine (multiHeapRealloc base p n) m P := by
  intro a t answered
  cases a with
  | none =>
    cases answered
    exact failed
  | some q =>
    obtain ⟨legal, ⟨⟩⟩ := Option.ite_none_right_eq_some.mp answered
    exact done q legal.1 legal.2

end

theorem after_multiHeapFree {P : Memory → Unit → Prop}
    (done : P { m with inner := m.inner.erase p } ()) :
    After machine (multiHeapFree base p) m P := by
  intro a t answered
  cases answered
  exact done

theorem after_getFreeSize {P : Memory → Nat → Prop} (done : ∀ n, P m n) :
    After machine getFreeSize m P := by
  intro a t answered
  cases answered
  exact done a

theorem after_largestFreeBlock {P : Memory → Nat → Prop} (done : ∀ n, P m n) :
    After machine (largestFreeBlock base) m P := by
  intro a t answered
  cases answered
  exact done a

theorem after_multiHeapRegister {size : Nat} {P : Memory → Bool → Prop} (done : ∀ b, P m b) :
    After machine (multiHeapRegister base size) m P := by
  intro a t answered
  cases answered
  exact done a

theorem after_psramFloorBytes {config : Config} {P : Memory → Nat → Prop} (done : ∀ n, P m n) :
    After machine (psramFloorBytes config) m P := by
  intro a t answered
  cases answered
  exact done _

theorem within_out {h : Heap} (inside : within h base p = true) :
    ∃ n, Out h base n ∧ base ≤ p ∧ p < base + n := by
  unfold within at inside
  cases found : Lib.Blocks.latest h.blocks base with
  | none =>
    rw [found] at inside
    cases inside
  | some b =>
    rw [found] at inside
    simp only [Option.any_some, Bool.and_eq_true, beq_iff_eq, decide_eq_true_eq] at inside
    obtain ⟨member, addr⟩ := Lib.Blocks.latest_mem found
    exact ⟨b.size, ⟨b, member, addr, rfl, inside.1.1⟩, inside.1.2, inside.2⟩

end Primitives

variable {new : Slot} {r : Region} {e : Escaped}

section Fits

variable {slot : Slot} {m t : Memory}

section

variable (fits : Fits slot m) (ledger : Ledger t.heap)

include fits ledger

theorem Fits.same (outs : ∀ a k, Out t.heap a k ↔ Out m.heap a k)
    (inner : t.inner = m.inner) : Fits slot t where
  ledger := ledger
  index a here := (fits.index a here).imp fun n out => (outs a n).mpr out
  regions r member := (outs _ _).mpr (fits.regions r member)
  escaped e member := (outs _ _).mpr (fits.escaped e member)
  distinct := fits.distinct
  all a n out := fits.all a n ((outs a n).mp out)
  inner := by
    rw [inner]
    exact fits.inner
  once := inner ▸ fits.once

theorem Fits.more (fresh : ∀ k, ¬Out m.heap a k)
    (outs : ∀ b k, Out t.heap b k ↔ b = a ∧ k = n ∨ Out m.heap b k) (inner : t.inner = m.inner)
    (named : (owned new).Perm (a :: owned slot)) (index : new.index = slot.index)
    (regions : ∀ r ∈ new.regions, r = ⟨a, n⟩ ∨ r ∈ slot.regions)
    (kept : ∀ r ∈ slot.regions, r ∈ new.regions)
    (escaped : ∀ e ∈ new.escaped, e = ⟨a, n⟩ ∨ e ∈ slot.escaped) : Fits new t where
  ledger := ledger
  index b here := (fits.index b (index ▸ here)).imp fun k out => (outs b k).mpr (.inr out)
  regions r member := by
    rcases regions r member with rfl | old
    · exact (outs _ _).mpr (.inl ⟨rfl, rfl⟩)
    · exact (outs _ _).mpr (.inr (fits.regions r old))
  escaped e member := by
    rcases escaped e member with rfl | old
    · exact (outs _ _).mpr (.inl ⟨rfl, rfl⟩)
    · exact (outs _ _).mpr (.inr (fits.escaped e old))
  distinct := by
    refine named.nodup_iff.mpr (List.nodup_cons.mpr ⟨fun member => ?_, fits.distinct⟩)
    -- a block that is named is out
    simp only [owned, List.mem_append, List.mem_map, Option.mem_toList] at member
    rcases member with (⟨r, at_it, rfl⟩ | ⟨e, at_it, rfl⟩) | at_it
    · exact fresh _ (fits.regions r at_it)
    · exact fresh _ (fits.escaped e at_it)
    · exact (fits.index a at_it).elim fresh
  all b k out := by
    refine named.mem_iff.mpr ?_
    rcases (outs b k).mp out with ⟨rfl, -⟩ | old
    · exact List.mem_cons_self
    · exact List.mem_cons_of_mem _ (fits.all b k old)
  inner p member := by
    rw [inner] at member
    obtain ⟨r, at_it, range⟩ := fits.inner p member
    exact ⟨r, kept r at_it, range⟩
  once := inner ▸ fits.once

theorem Fits.fewer (outs : ∀ b k, Out t.heap b k ↔ b ≠ a ∧ Out m.heap b k)
    (inner : t.inner = m.inner)
    (named : (owned slot).Perm (a :: owned new)) (index : new.index = slot.index)
    (regions : new.regions = slot.regions)
    (escaped : ∀ e ∈ new.escaped, e ∈ slot.escaped) : Fits new t := by
  obtain ⟨gone, distinct⟩ := List.nodup_cons.mp (named.nodup_iff.mp fits.distinct)
  have other : ∀ b ∈ owned new, b ≠ a := fun b member same => gone (same ▸ member)
  refine ⟨ledger, fun b here => ?_, fun r member => ?_, fun e member => ?_, distinct,
    fun b k out => ?_, ?_, inner ▸ fits.once⟩
  · obtain ⟨k, out⟩ := fits.index b (index ▸ here)
    refine ⟨k, (outs b k).mpr ⟨other b ?_, out⟩⟩
    exact List.mem_append_right _ (Option.mem_toList.mpr here)
  · refine (outs _ _).mpr ⟨other _ ?_, fits.regions r (regions ▸ member)⟩
    exact List.mem_append_left _ (List.mem_append_left _ (List.mem_map_of_mem member))
  · refine (outs _ _).mpr ⟨other _ ?_, fits.escaped e (escaped e member)⟩
    exact List.mem_append_left _ (List.mem_append_right _ (List.mem_map_of_mem member))
  · obtain ⟨differs, old⟩ := (outs b k).mp out
    rcases List.mem_cons.mp (named.mem_iff.mp (fits.all b k old)) with same | member
    · exact absurd same differs
    · exact member
  · rw [inner, regions]
    exact fits.inner

end

def used (slot : Slot) : List Nat := slot.regions.map (·.base) ++ slot.escaped.map (·.addr)

section

variable (fits : Fits slot m)

include fits

theorem Fits.used_out (member : a ∈ used slot) : some a ≠ slot.index ∧ ∃ n, Out m.heap a n := by
  constructor
  · intro same
    have distinct := fits.distinct
    rw [owned, List.nodup_append] at distinct
    exact distinct.2.2 a member a (by rw [← same]; exact List.mem_singleton_self a) rfl
  · rcases List.mem_append.mp member with region | escaped
    · obtain ⟨r, at_it, rfl⟩ := List.mem_map.mp region
      exact ⟨_, fits.regions r at_it⟩
    · obtain ⟨e, at_it, rfl⟩ := List.mem_map.mp escaped
      exact ⟨_, fits.escaped e at_it⟩

theorem Fits.reindex {heap : Heap} {g cap : Nat} (n : Nat) (ledger : Ledger heap)
    (fresh : some g ≠ slot.index → ∀ k, ¬Out m.heap g k)
    (outs : ∀ a k, Out heap a k ↔ a = g ∧ k = n ∨ some a ≠ slot.index ∧ Out m.heap a k) :
    Fits { slot with index := some g, regionCap := cap } { m with heap } := by
  have kept : ∀ a k, a ∈ used slot → Out m.heap a k → Out heap a k :=
    fun a k member out => (outs a k).mpr (.inr ⟨(fits.used_out member).1, out⟩)
  refine ⟨ledger, fun a here => ?_, fun r member => ?_, fun e member => ?_, ?_,
    fun a k out => ?_, fits.inner, fits.once⟩
  · cases here
    exact ⟨n, (outs g n).mpr (.inl ⟨rfl, rfl⟩)⟩
  · exact kept _ _ (List.mem_append_left _ (List.mem_map_of_mem member)) (fits.regions r member)
  · exact kept _ _ (List.mem_append_right _ (List.mem_map_of_mem member)) (fits.escaped e member)
  · refine List.nodup_append.mpr ⟨(List.nodup_append.mp fits.distinct).1, List.nodup_singleton g,
      fun a member b at_g same => ?_⟩
    cases List.mem_singleton.mp at_g
    subst same
    obtain ⟨other, k, out⟩ := fits.used_out member
    exact fresh other k out
  · rcases (outs a k).mp out with ⟨rfl, -⟩ | ⟨other, old⟩
    · exact List.mem_append_right _ (List.mem_singleton_self a)
    · rcases List.mem_append.mp (fits.all a k old) with member | member
      · exact List.mem_append_left _ member
      · exact absurd (Option.mem_toList.mp member).symm other

theorem Fits.apart (region : r ∈ slot.regions) (escaped : e ∈ slot.escaped)
    (above : r.base ≤ e.addr) (below : e.addr < r.base + r.size) : False := by
  have differs : e.addr ≠ r.base := by
    intro same
    have distinct := fits.distinct
    rw [owned, List.append_assoc, List.nodup_append] at distinct
    refine distinct.2.2 r.base (List.mem_map_of_mem region) e.addr ?_ same.symm
    exact List.mem_append_left _ (List.mem_map_of_mem escaped)
  have sizes := fits.ledger.size_pos (fits.escaped e escaped)
  rcases fits.ledger.ranges (fits.regions r region) (fits.escaped e
    escaped) differs with above | below <;> omega

theorem Fits.within (region : r ∈ slot.regions)
    (inside : within m.heap r.base p = true) : r.base ≤ p ∧ p < r.base + r.size := by
  obtain ⟨n, out, above, below⟩ := within_out inside
  rw [fits.ledger.size_unique (fits.regions r region) out] at below
  exact ⟨above, below⟩

theorem Fits.grant (region : r ∈ slot.regions)
    (inside : Arena.within m.heap r.base p = true)
    (new : p ∉ m.inner) : Fits slot { m with inner := p :: m.inner } := by
  refine { fits with inner := fun q member => ?_, once := List.nodup_cons.mpr ⟨new, fits.once⟩ }
  rcases List.mem_cons.mp member with rfl | old
  · exact ⟨r, region, fits.within region inside⟩
  · exact fits.inner q old

theorem Fits.ungrant (p : Nat) : Fits slot { m with inner := m.inner.erase p } :=
  { fits with
    inner := fun q member => fits.inner q (List.mem_of_mem_erase member)
    once := fits.once.erase p }

end

end Fits

variable {i : Nat} {last : Escaped}

section Programs

variable {config : Config} {slot : Slot} {m : Memory}

theorem after_growAttempts {floor : Nat} (attempts want : Nat) (ledger : Ledger m.heap) :
    After machine (growAttempts floor n attempts want) m fun t r => t.inner = m.inner ∧
    Ledger t.heap ∧
      match r with
      | none => ∀ a k, Out t.heap a k ↔ Out m.heap a k
      | some r =>
          (∀ k, ¬Out m.heap r.base k) ∧ ∀ a k, Out t.heap a k ↔ a = r.base ∧ k = r.size ∨
          Out m.heap a k := by
  induction attempts generalizing m want with
  | zero => exact ⟨rfl, ledger, fun _ _ => Iff.rfl⟩
  | succ attempts ih =>
    refine after_bind.mpr (after_getFreeSize fun available => ?_)
    split
    · exact ⟨rfl, ledger, fun _ _ => Iff.rfl⟩
    · refine after_bind.mpr (after_malloc ⟨rfl, ledger, fun _ _ => Iff.rfl⟩ fun base heap taken =>
        ?_)
      obtain ⟨kept, fresh, outs⟩ := ledger.take taken
      -- a pool that does not do is given back
      have back : Ledger (Lib.Blocks.give heap base) ∧ ∀ a k, Out (Lib.Blocks.give heap base) a k ↔
          Out m.heap a k := by
        obtain ⟨given, left⟩ := kept.give ((outs base want).mpr (.inl ⟨rfl, rfl⟩))
        refine ⟨given, fun a k => (left a k).trans ?_⟩
        rw [outs]
        constructor
        · rintro ⟨differs, ⟨same, -⟩ | old⟩
          · exact absurd same differs
          · exact old
        · exact fun old => ⟨fun same => fresh k (same ▸ old), .inr old⟩
      refine after_bind.mpr (after_multiHeapRegister fun registered => ?_)
      split
      · refine after_bind.mpr (after_free ?_)
        exact ⟨rfl, back.1, back.2⟩
      · refine after_bind.mpr (after_largestFreeBlock fun largest => ?_)
        split
        · exact ⟨rfl, kept, fresh, outs⟩
        · refine after_bind.mpr
            (after_free ((ih _ back.1).imp fun t r ⟨inner, ledger, result⟩ => ⟨inner, ledger, ?_⟩))
          cases r with
          | none => exact fun a k => (result a k).trans (back.2 a k)
          | some r =>
            refine ⟨fun k out => result.1 k ((back.2 _ _).mpr out), fun a k =>
              (result.2 a k).trans ?_⟩
            exact or_congr Iff.rfl (back.2 a k)

theorem after_reallocIndex (fits : Fits slot m) (cap : Nat) {P : Memory → Option Nat → Prop}
    (failed : P m none)
    (done : ∀ g heap, Fits { slot with index := some g, regionCap := cap } { m with heap } →
      P { m with heap } (some g)) :
    After machine (realloc spiram slot.index n) m P := by
  cases index : slot.index with
  | none =>
    refine after_realloc_null failed fun g heap taken => done g heap ?_
    obtain ⟨kept, fresh, outs⟩ := fits.ledger.take taken
    refine fits.reindex n kept (fun _ => fresh) fun a k => (outs a k).trans ?_
    rw [index]
    simp
  | some a =>
    obtain ⟨k, out⟩ := fits.index a index
    refine after_realloc fits.ledger out failed fun g heap resized => done g heap ?_
    obtain ⟨kept, fresh, outs⟩ := fits.ledger.resize out resized
    refine fits.reindex n kept (fun other => fresh fun same =>
      other (by rw [same, index])) fun b n => (outs b n).trans ?_
    rw [index]
    simp

theorem after_regionListReserve (fits : Fits slot m) :
    After machine (regionListReserve slot) m fun t r => t.inner = m.inner ∧
      match r with
      | none => Fits slot t
      | some new => Fits new t ∧ new.regions = slot.regions ∧ new.escaped = slot.escaped := by
  unfold regionListReserve
  generalize (if slot.regionCap = 0 then 4 else slot.regionCap * 2) = want
  split
  · exact ⟨rfl, fits, rfl, rfl⟩
  · dsimp only
    split
    · exact ⟨rfl, fits⟩
    · refine after_bind.mpr (after_reallocIndex fits want ?_ fun g heap fits =>
        ⟨rfl, fits, rfl, rfl⟩)
      exact after_bind.mpr (after_reallocIndex fits want ⟨rfl, fits⟩ fun g heap fits =>
        ⟨rfl, fits, rfl, rfl⟩)

theorem after_regionGrow (fits : Fits slot m) (n : Nat) :
    After machine (regionGrow config slot n) m fun t r => t.inner = m.inner ∧ Fits r.1 t ∧
      r.1.escaped = slot.escaped ∧ ∀ region, r.2 = some region → region ∈ r.1.regions := by
  unfold regionGrow
  split
  · exact ⟨rfl, fits, rfl, nofun⟩
  · refine after_bind.mpr (after_psramFloorBytes fun floor => ?_)
    refine after_bind.mpr (after_getFreeSize fun available => ?_)
    refine after_bind.mpr ((after_regionListReserve fits).imp fun t reserved ⟨inner, result⟩ => ?_)
    cases reserved with
    | none => exact ⟨inner, result, rfl, nofun⟩
    | some new =>
      obtain ⟨fits, -, escaped⟩ := result
      refine after_bind.mpr ((after_growAttempts 4 _ fits.ledger).imp fun u region
        ⟨same, ledger, result⟩ => ?_)
      cases region with
      | none => exact ⟨same.trans inner, fits.same ledger result same, escaped, nofun⟩
      | some r =>
        refine ⟨same.trans inner, ?_, escaped, fun region found => ?_⟩
        · refine fits.more ledger result.1 result.2 same ?_ rfl (fun q member => ?_)
            (fun q member => List.mem_append_left _ member) fun e member => .inr member
          · simp only [owned, List.map_append, List.map_cons, List.map_nil, List.append_assoc,
              List.singleton_append]
            exact List.perm_middle
          · rcases List.mem_append.mp member with old | last
            · exact .inr old
            · exact .inl (List.mem_singleton.mp last)
        · cases found
          exact List.mem_append_right _ (List.mem_singleton_self r)

def Pooled (slot : Slot) (m t : Memory) (r : Slot × Option Nat) : Prop :=
  Fits r.1 t ∧ r.1.escaped = slot.escaped ∧
    match r.2 with
    | none => t.inner = m.inner
    | some p => p ∉ m.inner ∧ t.inner = p :: m.inner

theorem after_firstPool (fits : Fits slot m) (n : Nat) {regions : List Region}
    (some_of : ∀ r ∈ regions, r ∈ slot.regions) :
    After machine (firstPool n regions) m fun t r => Pooled slot m t (slot, r) := by
  induction regions with
  | nil => exact ⟨fits, rfl, rfl⟩
  | cons r rest ih =>
    refine after_bind.mpr (after_multiHeapMalloc ?_ fun p inside new => ?_)
    · exact ih fun q member => some_of q (List.mem_cons_of_mem _ member)
    · exact ⟨fits.grant (some_of r List.mem_cons_self) inside new, rfl, new, rfl⟩

theorem Pooled.of_inner {t u : Memory} {r : Slot × Option Nat} (same : t.inner = m.inner)
    (pooled : Pooled slot t u r) :
    Pooled slot m u r := by
  unfold Pooled at pooled ⊢
  rw [same] at pooled
  exact pooled

theorem after_grownPool (fits : Fits slot m) (n : Nat) :
    After machine (grownPool config slot n) m fun t r => Pooled slot m t r := by
  refine after_bind.mpr ((after_regionGrow fits n).imp fun t r ⟨inner, fits, escaped, grown⟩ => ?_)
  obtain ⟨new, region⟩ := r
  cases region with
  | none => exact ⟨fits, escaped, inner⟩
  | some r =>
    refine after_bind.mpr (after_multiHeapMalloc ⟨fits, escaped, inner⟩ fun p inside new => ?_)
    refine ⟨fits.grant (grown r rfl) inside new, escaped, ?_⟩
    dsimp only
    rw [← inner]
    exact ⟨new, rfl⟩

theorem after_regionAlloc (fits : Fits slot m) (n : Nat) :
    After machine (regionAlloc config slot n) m fun t r => Pooled slot m t r := by
  unfold regionAlloc
  dsimp only
  generalize (if n = 0 then 1 else n) = n
  refine after_bind.mpr ((after_firstPool fits n fun r member => member).imp fun t p pooled => ?_)
  cases p with
  | some p => exact pooled
  | none =>
    obtain ⟨fits, -, inner⟩ := pooled
    exact (after_grownPool fits n).imp fun u r pooled => pooled.of_inner inner

def Granted (slot : Slot) (m t : Memory) (r : Slot × Option Nat) : Prop :=
  Fits r.1 t ∧
    match r.2 with
    | none => ∀ x, Usable r.1 t x ↔ Usable slot m x
    | some p => ¬Usable slot m p ∧ ∀ x, Usable r.1 t x ↔ x = p ∨ Usable slot m x

theorem Fits.not_escaped (fits : Fits slot m) (member : p ∈ m.inner) :
    ¬∃ e ∈ slot.escaped, e.addr = p := by
  rintro ⟨e, escaped, rfl⟩
  obtain ⟨r, region, above, below⟩ := fits.inner _ member
  exact fits.apart region escaped above below

theorem Pooled.granted {t : Memory} {r : Slot × Option Nat} (pooled : Pooled slot m t r) :
    Granted slot m t r := by
  obtain ⟨new, p⟩ := r
  obtain ⟨fits, escaped, result⟩ := pooled
  dsimp only at fits escaped
  refine ⟨fits, ?_⟩
  cases p with
  | none =>
    intro x
    unfold Usable
    rw [show t.inner = m.inner from result, escaped]
  | some p =>
    obtain ⟨unheld, inner⟩ := result
    have apart := fits.not_escaped (p := p) (by rw [inner]; exact List.mem_cons_self)
    rw [escaped] at apart
    refine ⟨fun usable => usable.elim unheld apart, fun x => ?_⟩
    unfold Usable
    rw [inner, escaped, List.mem_cons, or_assoc]

theorem after_allocPsram {P : Memory → Option Nat → Prop} (failed : P m none)
    (done : ∀ p heap, Lib.Blocks.take m.heap p n = some heap → P { m with heap } (some p)) :
    After machine (allocPsram n) m P :=
  after_bind.mpr (after_malloc (after_malloc failed done) done)

theorem after_escape (fits : Fits slot m) (n : Nat) : After machine (escape slot n) m fun t r =>
    Granted slot m t r := by
  have refused : Granted slot m m (slot, none) := ⟨fits, fun _ => Iff.rfl⟩
  unfold escape
  split
  · exact refused
  · split
    · refine after_bind.mpr (after_allocPsram refused fun p heap taken => ?_)
      obtain ⟨kept, fresh, outs⟩ := fits.ledger.take taken
      refine ⟨?_, fun usable => ?_, fun x => ?_⟩
      · refine fits.more kept fresh outs rfl ?_ rfl (fun r member => .inr member)
          (fun r member => member) fun e member => ?_
        · simp only [owned, List.map_append, List.map_cons, List.map_nil, List.append_assoc,
            List.singleton_append]
          rw [← List.append_assoc, ← List.append_assoc]
          exact List.perm_middle
        · rcases List.mem_append.mp member with old | last
          · exact .inr old
          · exact .inl (List.mem_singleton.mp last)
      · -- a pointer the app may have is in a block that is out
        rcases usable with inside | ⟨e, escaped, rfl⟩
        · obtain ⟨r, region, above, below⟩ := fits.inner p inside
          have old := (outs _ _).mpr (.inr (fits.regions r region))
          have new := (outs p n).mpr (.inl ⟨rfl, rfl⟩)
          have differs : p ≠ r.base := by
            rintro rfl
            exact fresh _ (fits.regions r region)
          have sizes := kept.size_pos new
          rcases kept.ranges old new differs with above | below <;> omega
        · exact fresh _ (fits.escaped e escaped)
      · unfold Usable
        simp only [List.mem_append, List.mem_singleton]
        constructor
        · rintro (inside | ⟨e, old | rfl, rfl⟩)
          · exact .inr (.inl inside)
          · exact .inr (.inr ⟨e, old, rfl⟩)
          · exact .inl rfl
        · rintro (rfl | inside | ⟨e, old, rfl⟩)
          · exact .inr ⟨_, .inr rfl, rfl⟩
          · exact .inl inside
          · exact .inr ⟨e, .inl old, rfl⟩
    · exact refused

theorem after_abiAlloc (arena : config.lock = true ∧ config.psram = true)
    (fits : Fits slot m) (n : Nat) :
    After machine (abiAlloc config slot n) m fun t r => Granted slot m t r := by
  unfold abiAlloc
  rw [if_neg (by simp [arena.1, arena.2])]
  refine after_bind.mpr ((after_regionAlloc fits n).imp fun t r pooled => ?_)
  obtain ⟨new, p⟩ := r
  cases p with
  | some p => exact pooled.granted
  | none =>
    obtain ⟨fits, same⟩ := pooled.granted
    refine (after_escape fits n).imp fun u r ⟨fits, result⟩ => ⟨fits, ?_⟩
    cases last : r.2 with
    | none =>
      rw [last] at result
      exact fun x => (result x).trans (same x)
    | some p =>
      rw [last] at result
      exact ⟨fun usable => result.1 ((same p).mpr usable), fun x =>
        (result.2 x).trans (or_congr Iff.rfl (same x))⟩

theorem dropEscaped_perm {escaped : List Escaped} (here : escaped[i]? = some e)
    (ends : escaped.getLast? = some last)
    (same : last.size = e.size) : escaped.Perm (e :: dropEscaped escaped i) := by
  have whole : { e with addr := last.addr } = last := by rw [← same]
  rw [dropEscaped, here, ends]
  dsimp only
  rw [whole]
  obtain ⟨init, rfl⟩ := List.getLast?_eq_some_iff.mp ends
  by_cases inside : i < init.length
  · rw [List.set_append, if_pos inside, List.dropLast_concat]
    rw [List.getElem?_append_left inside, List.getElem?_eq_getElem inside] at here
    cases here
    calc init ++ [last] ~ last :: init := List.perm_append_singleton last init
      _ ~ last :: init[i] :: init.eraseIdx i :=
        ((List.getElem_cons_eraseIdx_perm inside).symm).cons last
      _ ~ init[i] :: last :: init.eraseIdx i := List.Perm.swap _ _ _
      _ ~ init[i] :: init.set i last :=
        ((List.set_perm_cons_eraseIdx inside last).symm).cons init[i]
  · have at_end : i = init.length := by
      have bound := (List.getElem?_eq_some_iff.mp here).1
      rw [List.length_append, List.length_singleton] at bound
      omega
    subst at_end
    rw [List.getElem?_concat_length] at here
    cases here
    rw [List.set_append, if_neg inside, Nat.sub_self, List.set_cons_zero, List.dropLast_concat]
    exact List.perm_append_singleton _ _

theorem dropEscaped_swaps {escaped : List Escaped} (here : escaped[i]? = some e)
    (ends : escaped.getLast? = some last) (other : last.size ≠ e.size) :
    ⟨last.addr, e.size⟩ ∈ dropEscaped escaped i := by
  rw [dropEscaped, here, ends]
  dsimp only
  obtain ⟨init, rfl⟩ := List.getLast?_eq_some_iff.mp ends
  have inside : i < init.length := by
    by_contra at_end
    have bound := (List.getElem?_eq_some_iff.mp here).1
    rw [List.length_append, List.length_singleton] at bound
    rw [show i = init.length by omega, List.getElem?_concat_length] at here
    cases here
    exact other rfl
  rw [List.set_append, if_pos inside, List.dropLast_concat]
  exact List.mem_set inside _

def Swaps (slot : Slot) (p : Nat) : Prop :=
  ∃ i e last, slot.escaped.findIdx? (·.addr == p) = some i ∧ slot.escaped[i]? = some e ∧
    slot.escaped.getLast? = some last ∧ last.size ≠ e.size

theorem regionOwning_some (found : regionOwning slot p = some r) :
    r ∈ slot.regions ∧ r.base ≤ p ∧ p < r.base + r.size := by
  have right := List.find?_some found
  simp only [Bool.and_eq_true, decide_eq_true_eq] at right
  exact ⟨List.mem_of_find?_eq_some found, right⟩

theorem regionOwning_none (none : regionOwning slot p = none) :
    ∀ r ∈ slot.regions, ¬(r.base ≤ p ∧ p < r.base + r.size) := by
  intro r member inside
  have wrong := List.find?_eq_none.mp none r member
  simp [inside.1, inside.2] at wrong

theorem Fits.escaped_global (fits : Fits slot m) (member : e ∈ slot.escaped) :
    regionOwning slot e.addr = none := by
  cases found : regionOwning slot e.addr with
  | none => rfl
  | some r =>
    obtain ⟨region, above, below⟩ := regionOwning_some found
    exact (fits.apart region member above below).elim

theorem Fits.source (fits : Fits slot m) (usable : Usable slot m p) :
    (∃ r, regionOwning slot p = some r ∧ p ∈ m.inner) ∨
      regionOwning slot p = none ∧ p ∉ m.inner ∧ ∃ e ∈ slot.escaped, e.addr = p := by
  cases found : regionOwning slot p with
  | some r =>
    refine .inl ⟨r, rfl, usable.resolve_right ?_⟩
    rintro ⟨e, escaped, rfl⟩
    cases found.symm.trans (fits.escaped_global escaped)
  | none =>
    have outside : p ∉ m.inner := by
      intro inside
      obtain ⟨r, region, range⟩ := fits.inner p inside
      exact regionOwning_none found r region range
    exact .inr ⟨rfl, outside, usable.resolve_left outside⟩

theorem Fits.erased (fits : Fits slot m) (inside : p ∈ m.inner) (x : Nat) :
    Usable slot { m with inner := m.inner.erase p } x ↔ x ≠ p ∧ Usable slot m x := by
  have apart := fits.not_escaped inside
  unfold Usable
  dsimp only
  rw [fits.once.mem_erase_iff]
  constructor
  · rintro (⟨differs, old⟩ | ⟨e, escaped, rfl⟩)
    · exact ⟨differs, .inl old⟩
    · exact ⟨fun same => apart ⟨e, escaped, same⟩, .inr ⟨e, escaped, rfl⟩⟩
  · rintro ⟨differs, old | escaped⟩
    · exact .inl ⟨differs, old⟩
    · exact .inr escaped

theorem Fits.unescape (fits : Fits slot m) (here : slot.escaped[i]? = some e)
    (ends : slot.escaped.getLast? = some last) (same : last.size = e.size) :
    Fits { slot with escaped := dropEscaped slot.escaped i }
    { m with heap := Lib.Blocks.give m.heap e.addr } ∧
      ∀ x, Usable { slot with escaped := dropEscaped slot.escaped i }
      { m with heap := Lib.Blocks.give m.heap e.addr } x ↔
        x ≠ e.addr ∧ Usable slot m x := by
  have perm := dropEscaped_perm here ends same
  have member : e ∈ slot.escaped := List.mem_of_getElem? here
  obtain ⟨ledger, outs⟩ := fits.ledger.give (fits.escaped e member)
  have fewer : Fits { slot with escaped := dropEscaped slot.escaped i }
      { m with heap := Lib.Blocks.give m.heap e.addr } := by
    refine fits.fewer ledger outs rfl ?_ rfl rfl fun f at_it =>
      perm.mem_iff.mpr (List.mem_cons_of_mem _ at_it)
    calc owned slot
      _ ~ slot.regions.map (·.base) ++ (e :: dropEscaped slot.escaped i).map (·.addr) ++
          slot.index.toList :=
        ((perm.map _).append_left _).append_right _
      _ ~ e.addr :: (slot.regions.map (·.base) ++ (dropEscaped slot.escaped i).map (·.addr) ++
          slot.index.toList) := by
        simp only [List.map_cons, List.append_assoc, List.cons_append]
        exact List.perm_middle
  refine ⟨fewer, fun x => ?_⟩
  have gone : ¬∃ f ∈ dropEscaped slot.escaped i, f.addr = e.addr := by
    rintro ⟨f, at_it, addr⟩
    exact ((outs _ _).mp (fewer.escaped f at_it)).1 addr
  unfold Usable
  dsimp only
  constructor
  · rintro (inside | ⟨f, at_it, rfl⟩)
    · exact ⟨fun same => fits.not_escaped inside ⟨e, member, same.symm⟩, .inl inside⟩
    · exact ⟨fun same => gone ⟨f, at_it, same⟩,
        .inr ⟨f, perm.mem_iff.mpr (List.mem_cons_of_mem _ at_it), rfl⟩⟩
  · rintro ⟨differs, inside | ⟨f, at_it, rfl⟩⟩
    · exact .inl inside
    · rcases List.mem_cons.mp (perm.mem_iff.mp at_it) with rfl | rest
      · exact absurd rfl differs
      · exact .inr ⟨f, rest, rfl⟩

theorem findIdx_escaped (escaped : ∃ e ∈ slot.escaped, e.addr = p) :
    ∃ i e last, slot.escaped.findIdx? (·.addr == p) = some i ∧ slot.escaped[i]? = some e ∧
    e.addr = p ∧
      slot.escaped.getLast? = some last := by
  obtain ⟨e, member, rfl⟩ := escaped
  have found : (slot.escaped.findIdx? (·.addr == e.addr)).isSome := by
    rw [List.findIdx?_isSome]
    exact List.any_eq_true.mpr ⟨e, member, by simp⟩
  obtain ⟨i, at_i⟩ := Option.isSome_iff_exists.mp found
  obtain ⟨inside, right, -⟩ := List.findIdx?_eq_some_iff_getElem.mp at_i
  obtain ⟨last, ends⟩ :=
    Option.isSome_iff_exists.mp (List.getLast?_isSome.mpr (List.ne_nil_of_mem member))
  exact ⟨i, slot.escaped[i], last, at_i, List.getElem?_eq_getElem inside, eq_of_beq right, ends⟩

theorem after_abiFree (lock : config.lock = true) (fits : Fits slot m) (usable : Usable slot m p)
    (kept : ¬Swaps slot p) :
    After machine (abiFree config slot p) m fun t new => Fits new t ∧ ∀ x, Usable new t x ↔
    x ≠ p ∧ Usable slot m x := by
  unfold abiFree
  rw [if_pos lock, if_pos lock]
  rcases fits.source usable with ⟨r, owning, inside⟩ | ⟨owning, -, escaped⟩
  · rw [owning]
    exact after_bind.mpr (after_multiHeapFree ⟨fits.ungrant p, fits.erased inside⟩)
  · rw [owning]
    obtain ⟨i, e, last, found, here, rfl, ends⟩ := findIdx_escaped escaped
    have same : last.size = e.size := by
      by_contra other
      exact kept ⟨i, e, last, found, here, ends, other⟩
    dsimp only
    rw [found]
    exact after_bind.mpr (after_free (fits.unescape here ends same))

theorem after_freed (lock : config.lock = true) (fits : Fits slot m) (usable : Usable slot m p)
    (kept : ¬Swaps slot p) :
    After machine
    (abiFree config slot p >>= fun new => pure (new, none) : P (Slot × Option Nat)) m fun t r =>
      r.2 = none ∧ Fits r.1 t ∧ ∀ x, Usable r.1 t x ↔ x ≠ p ∧ Usable slot m x :=
  after_bind.mpr ((after_abiFree lock fits usable kept).imp fun _ _ freed => ⟨rfl, freed⟩)

def Moved (slot : Slot) (m : Memory) (p : Nat) (t : Memory) (r : Slot × Option Nat) : Prop :=
  Fits r.1 t ∧
    match r.2 with
    | none => ∀ x, Usable r.1 t x ↔ Usable slot m x
    | some q => (q = p ∨ ¬Usable slot m q) ∧ ∀ x, Usable r.1 t x ↔ x = q ∨ x ≠ p ∧ Usable slot m x

theorem Pooled.moved {t : Memory} {q : Nat}
    (pooled : Pooled slot m t (new, some q)) (inside : p ∈ m.inner) :
    Moved slot m p { t with inner := t.inner.erase p } (new, some q) := by
  obtain ⟨-, unheld, granted⟩ := pooled.granted
  obtain ⟨fits, -, inner⟩ := pooled
  have held : p ∈ t.inner := by
    rw [inner.2]
    exact List.mem_cons_of_mem _ inside
  have differs : q ≠ p := by
    rintro rfl
    exact inner.1 inside
  refine ⟨fits.ungrant p, .inr unheld, fun x => (fits.erased held x).trans ?_⟩
  rw [granted]
  constructor
  · rintro ⟨other, rfl | old⟩
    · exact .inl rfl
    · exact .inr ⟨other, old⟩
  · rintro (rfl | ⟨other, old⟩)
    · exact ⟨differs, .inl rfl⟩
    · exact ⟨other, .inr old⟩

theorem after_regionRealloc (fits : Fits slot m) (n : Nat) (region : r ∈ slot.regions)
    (inside : p ∈ m.inner) : After machine (regionRealloc config slot r p n) m fun t result =>
    Moved slot m p t result := by
  refine after_bind.mpr (after_multiHeapRealloc ?_ fun q within unheld => ?_)
  · refine after_bind.mpr ((after_firstPool fits n fun q member =>
      List.mem_of_mem_erase member).imp fun t q pooled => ?_)
    cases q with
    | some q => exact after_bind.mpr (after_multiHeapFree (pooled.moved inside))
    | none =>
      obtain ⟨fits, -, same⟩ := pooled
      refine after_bind.mpr ((after_grownPool fits n).imp fun u grown pooled => ?_)
      obtain ⟨new, q⟩ := grown
      cases q with
      | some q => exact after_bind.mpr (after_multiHeapFree ((pooled.of_inner same).moved inside))
      | none => exact (pooled.of_inner same).granted
  · have unlisted : q ∉ m.inner.erase p := by
      intro member
      obtain ⟨differs, old⟩ := fits.once.mem_erase_iff.mp member
      exact unheld.elim differs fun new => new old
    have now : Fits slot { m with inner := q :: m.inner.erase p } :=
      Fits.grant (fits.ungrant p) region within unlisted
    refine ⟨now, ?_, fun x => ?_⟩
    · refine unheld.imp_right fun new usable => usable.elim new ?_
      exact now.not_escaped (p := q) List.mem_cons_self
    · unfold Usable
      dsimp only
      rw [List.mem_cons, or_assoc]
      exact or_congr Iff.rfl (fits.erased inside x)

theorem after_globalRealloc (fits : Fits slot m) (n : Nat) (member : e ∈ slot.escaped) :
    After machine (globalRealloc slot e.addr n) m fun t r => r.1 = slot ∧
      match r.2 with
      | none => t = m
      | some q =>
          ∃ heap, Lib.Blocks.resize m.heap e.addr q n = some heap ∧ t = { m with heap } := by
  have out := fits.escaped e member
  have done : ∀ q heap, Lib.Blocks.resize m.heap e.addr q n = some heap → slot = slot ∧
      ∃ heap', Lib.Blocks.resize m.heap e.addr q n = some heap' ∧
      { m with heap } = { m with heap := heap' } :=
    fun q heap resized => ⟨rfl, heap, resized, rfl⟩
  exact after_bind.mpr (after_realloc fits.ledger out
    (after_bind.mpr (after_realloc fits.ledger out ⟨rfl, rfl⟩ done)) done)

theorem after_freeAll {ps : List Nat} (ledger : Ledger m.heap) (out : ∀ a ∈ ps, ∃ n, Out m.heap a n)
    (distinct : ps.Nodup) :
    After machine (freeAll ps) m fun t _ => Ledger t.heap ∧ ∀ a k, Out t.heap a k ↔
    a ∉ ps ∧ Out m.heap a k := by
  induction ps generalizing m with
  | nil => exact ⟨ledger, fun a k => ⟨fun out => ⟨List.not_mem_nil, out⟩, fun out => out.2⟩⟩
  | cons p rest ih =>
    obtain ⟨n, here⟩ := out p List.mem_cons_self
    obtain ⟨unlisted, distinct⟩ := List.nodup_cons.mp distinct
    obtain ⟨given, outs⟩ := ledger.give here
    refine after_bind.mpr (after_free ((ih given (fun a member => ?_) distinct).imp fun t _
      ⟨ledger, left⟩ => ⟨ledger, fun a k => ?_⟩))
    · obtain ⟨k, live⟩ := out a (List.mem_cons_of_mem _ member)
      exact ⟨k, (outs a k).mpr ⟨fun same => unlisted (same ▸ member), live⟩⟩
    · rw [left, outs, List.mem_cons, not_or, and_assoc, and_left_comm]

theorem Fits.owned_out (fits : Fits slot m) : ∀ a ∈ owned slot, ∃ n, Out m.heap a n := by
  intro a member
  rcases List.mem_append.mp member with used | index
  · exact (fits.used_out used).2
  · exact fits.index a (Option.mem_toList.mp index)

theorem after_regionsRelease_nothing (stops : slot.regions = [] ∧ slot.index = none) :
    After machine (regionsRelease slot) m fun t _ => t = m := by
  unfold regionsRelease
  rw [if_pos stops]
  exact rfl

theorem after_regionsRelease (fits : Fits slot m) (goesOn : slot.regions ≠ [] ∨ slot.index ≠ none) :
    After machine (regionsRelease slot) m fun t _ => Ledger t.heap ∧ ∀ a k, ¬Out t.heap a k := by
  unfold regionsRelease
  rw [if_neg fun stops => goesOn.elim (absurd stops.1) (absurd stops.2)]
  refine after_bind.mpr ((after_freeAll fits.ledger fits.owned_out fits.distinct).imp fun t _
    ⟨ledger, left⟩ => ⟨ledger, ?_⟩)
  intro a k out
  obtain ⟨unlisted, old⟩ := (left a k).mp out
  exact unlisted (fits.all a k old)

end Programs

theorem exec_globalRealloc {slot new : Slot} {p n : Nat} {m t : Memory} {trace : Trace Answer}
    {r : Option Nat} (ran : exec machine (globalRealloc slot p n) m trace = some (t, new, r))
    (q : Nat) :
    r = some q ↔ ∃ spiram, ⟨.realloc spiram (some p) n, some q⟩ ∈ trace := by
  have ends : ∀ {m : Memory} {x : Slot × Option Nat} {rest : Trace Answer},
      exec machine (pure x : P (Slot × Option Nat)) m rest = some (t, new, r) → rest = [] ∧
      x.2 = r := by
    rintro m x (_ | _) done
    · cases done
      exact ⟨rfl, rfl⟩
    · cases done
  cases trace with
  | nil => cases ran
  | cons first rest =>
    obtain ⟨asked, a⟩ := first
    obtain ⟨rfl, ran⟩ := Option.dite_none_right_eq_some.mp ran
    obtain ⟨u, -, ran⟩ := Option.bind_eq_some_iff.mp ran
    cases a with
    | some q' =>
      obtain ⟨rfl, rfl⟩ := ends ran
      simp [eq_comm]
    | none =>
      cases rest with
      | nil => cases ran
      | cons second rest =>
        obtain ⟨asked, a⟩ := second
        obtain ⟨rfl, ran⟩ := Option.dite_none_right_eq_some.mp ran
        obtain ⟨v, -, ran⟩ := Option.bind_eq_some_iff.mp ran
        obtain ⟨rfl, rfl⟩ := ends ran
        cases a <;> simp [eq_comm]

variable {memory : Memory}

section Calls

/-- A call after which the list of the slot is wrong: an escaped block is reallocated to another
place or another size, or given back before the last one of another size. -/
def Spoils (s : State) (e : Event) : Prop :=
  match e.1 with
  | .free (some p) => Swaps s.slot p
  | .realloc (some p) n =>
    if n = 0 then Swaps s.slot p
    else
      ∃ entry ∈ s.slot.escaped, entry.addr = p ∧ ∃ spiram q,
        ⟨.realloc spiram (some p) n, some q⟩ ∈ e.2 ∧ ¬(q = p ∧ n = entry.size)
  | _ => False

/-- Nothing was given back or looked at again after it was given back, and what the slot says of the
escaped blocks is so. -/
def Matched (s : State) : Prop :=
  s.memory.heap.wild = 0 ∧ (∀ b ∈ s.memory.heap.blocks, b.frees ≤ 1) ∧
    ∀ e ∈ s.slot.escaped, Out s.memory.heap e.addr e.size

structure Sound (s : State) : Prop where
  fits : Fits s.slot s.memory
  once : s.held.Nodup
  usable : ∀ p ∈ s.held, Usable s.slot s.memory p

variable {config : Config} {s t : State}

theorem Sound.matched (sound : Sound s) : Matched s :=
  ⟨sound.fits.ledger.tame, fun b member => (sound.fits.ledger.once b member).2, sound.fits.escaped⟩

theorem Sound.granted (sound : Sound s) {slot : Slot} {r : Option Nat}
    (granted : Granted s.slot s.memory memory (slot, r)) : Sound ⟨slot, memory, r.toList ++
      s.held⟩ := by
  obtain ⟨fits, result⟩ := granted
  cases r with
  | none => exact ⟨fits, sound.once, fun p member => (result p).mpr (sound.usable p member)⟩
  | some p =>
    obtain ⟨new, now⟩ := result
    refine ⟨fits, List.nodup_cons.mpr ⟨fun member => new (sound.usable p member), sound.once⟩,
      fun q member => ?_⟩
    rcases List.mem_cons.mp member with rfl | old
    · exact (now q).mpr (.inl rfl)
    · exact (now q).mpr (.inr (sound.usable q old))

theorem Sound.erased (sound : Sound s) {slot : Slot} (fits : Fits slot memory)
    (now : ∀ x, Usable slot memory x ↔ x ≠ p ∧ Usable s.slot s.memory x) : Sound
    ⟨slot, memory, s.held.erase p⟩ := by
  refine ⟨fits, sound.once.erase p, fun q member => ?_⟩
  obtain ⟨differs, old⟩ := sound.once.mem_erase_iff.mp member
  exact (now q).mpr ⟨differs, sound.usable q old⟩

theorem Sound.moved (sound : Sound s) {slot : Slot} {q : Nat}
    (moved : Moved s.slot s.memory p memory (slot, some q)) : Sound ⟨slot, memory,
      q :: s.held.erase p⟩ := by
  obtain ⟨fits, new, now⟩ := moved
  refine ⟨fits, List.nodup_cons.mpr ⟨fun member => ?_, sound.once.erase p⟩, fun x member => ?_⟩
  · obtain ⟨differs, old⟩ := sound.once.mem_erase_iff.mp member
    exact new.elim differs fun unusable => unusable (sound.usable q old)
  · rcases List.mem_cons.mp member with rfl | old
    · exact (now x).mpr (.inl rfl)
    · obtain ⟨differs, old⟩ := sound.once.mem_erase_iff.mp old
      exact (now x).mpr (.inr ⟨differs, sound.usable x old⟩)

theorem Fits.resized {slot : Slot} {m : Memory} (fits : Fits slot m) {heap : Heap}
    (member : e ∈ slot.escaped)
    (resized : Lib.Blocks.resize m.heap e.addr e.addr e.size = some heap) :
    Moved slot m e.addr { m with heap } (slot, some e.addr) := by
  have out := fits.escaped e member
  obtain ⟨ledger, -, outs⟩ := fits.ledger.resize out resized
  refine ⟨fits.same ledger (fun a k => (outs a k).trans ?_) rfl, .inl rfl, fun x => ?_⟩
  · constructor
    · rintro (⟨rfl, rfl⟩ | ⟨-, old⟩)
      · exact out
      · exact old
    · intro old
      by_cases same : a = e.addr
      · subst same
        exact .inl ⟨rfl, fits.ledger.size_unique out old⟩
      · exact .inr ⟨same, old⟩
  · have usable : Usable slot m e.addr := .inr ⟨e, member, rfl⟩
    change Usable slot m x ↔ _
    by_cases same : x = e.addr
    · simp [same, usable]
    · simp [same]

theorem body_realloc (lock : config.lock = true) (slot : Slot) (p : Nat) (positive : n ≠ 0) :
    body config slot (.realloc (some p) n) =
      match regionOwning slot p with
      | some r => regionRealloc config slot r p n
      | none => globalRealloc slot p n := by
  cases owner : regionOwning slot p <;> simp [body, abiRealloc, positive, lock, owner]

theorem sound_realloc (arena : config.lock = true ∧ config.psram = true) {trace : Trace Answer}
    {slot : Slot} {r : Option Nat} (sound : Sound s) (positive : n ≠ 0) (allowed : p ∈ s.held)
    (kept : ¬Spoils s (.realloc (some p) n, trace))
    (ran : exec machine (body config s.slot (.realloc (some p) n)) s.memory trace =
      some (memory, slot, r)) :
    Sound ⟨slot, memory, heldAfter s.held r (.realloc (some p) n)⟩ := by
  have same := body_realloc arena.1 s.slot p positive
  rcases sound.fits.source (sound.usable p allowed) with ⟨region, owning, inside⟩ | ⟨owning,
    -, entry, member, rfl⟩
  · rw [owning] at same
    rw [same] at ran
    have moved := (after_regionRealloc sound.fits n (regionOwning_some owning).1 inside).exec ran
    cases r with
    | none =>
      obtain ⟨fits, now⟩ := moved
      dsimp only [heldAfter]
      rw [if_neg positive]
      exact ⟨fits, sound.once, fun q member => (now q).mpr (sound.usable q member)⟩
    | some q => exact sound.moved moved
  · rw [owning] at same
    rw [same] at ran
    obtain ⟨rfl, result⟩ := (after_globalRealloc sound.fits n member).exec ran
    cases r with
    | none =>
      cases result
      dsimp only [heldAfter]
      rw [if_neg positive]
      exact sound
    | some q =>
      obtain ⟨heap, resized, rfl⟩ := result
      have stays : q = entry.addr ∧ n = entry.size := by
        by_contra other
        refine kept ?_
        dsimp only [Spoils]
        rw [if_neg positive]
        obtain ⟨spiram, answer⟩ := (exec_globalRealloc ran q).mp rfl
        exact ⟨entry, member, rfl, spiram, q, answer, other⟩
      obtain ⟨rfl, rfl⟩ := stays
      exact sound.moved (sound.fits.resized member resized)

theorem sound_step (arena : config.lock = true ∧ config.psram = true) {e : Event} (sound : Sound s)
    (kept : ¬Spoils s e) (stepped : step config s e = some t) : Sound t := by
  obtain ⟨call, trace⟩ := e
  unfold step at stepped
  obtain ⟨allowed, stepped⟩ := Option.ite_none_right_eq_some.mp stepped
  obtain ⟨⟨memory, slot, r⟩, ran, rfl⟩ := Option.map_eq_some_iff.mp stepped
  cases call with
  | malloc n => exact sound.granted ((after_abiAlloc arena sound.fits n).exec ran)
  | calloc n size =>
    refine sound.granted (After.exec (P := fun t r => Granted s.slot s.memory t r) ?_ ran)
    dsimp only [body]
    unfold abiCalloc
    split
    · exact ⟨sound.fits, fun _ => Iff.rfl⟩
    · exact after_abiAlloc arena sound.fits _
  | realloc p n =>
    cases p with
    | none => exact sound.granted ((after_abiAlloc arena sound.fits n).exec ran)
    | some p =>
      by_cases zero : n = 0
      · subst zero
        obtain ⟨none, fits, now⟩ :=
          (after_freed arena.1 sound.fits (sound.usable p allowed) kept).exec ran
        cases none
        exact sound.erased fits now
      · exact sound_realloc arena sound zero allowed kept ran
  | free p =>
    cases p with
    | none =>
      have nothing : After machine (body config s.slot (.free none)) s.memory fun t r =>
          t = s.memory ∧ r = (s.slot, none) := ⟨rfl, rfl⟩
      obtain ⟨rfl, same⟩ := nothing.exec ran
      cases same
      exact sound
    | some p =>
      obtain ⟨none, fits, now⟩ :=
        (after_freed arena.1 sound.fits (sound.usable p allowed) kept).exec ran
      cases none
      exact sound.erased fits now

theorem swaps_unmatched (lock : config.lock = true) {trace : Trace Answer} {slot : Slot}
    {r : Option Nat} {held : List Nat} (sound : Sound s) (swaps : Swaps s.slot p)
    (ran : exec machine (abiFree config s.slot p >>= fun new =>
      pure (new, none) : P (Slot × Option Nat)) s.memory trace =
      some (memory, slot, r)) : ¬Matched ⟨slot, memory, held⟩ := by
  obtain ⟨i, e, last, found, here, ends, other⟩ := swaps
  have addr : e.addr = p := by
    obtain ⟨inside, right, -⟩ := List.findIdx?_eq_some_iff_getElem.mp found
    rw [List.getElem?_eq_getElem inside] at here
    cases here
    exact eq_of_beq right
  subst addr
  have member : e ∈ s.slot.escaped := List.mem_of_getElem? here
  have after : After machine (abiFree config s.slot e.addr >>= fun new =>
    pure (new, none) : P (Slot × Option Nat)) s.memory
      fun t r => t = { s.memory with heap := Lib.Blocks.give s.memory.heap e.addr } ∧
        r.1 = { s.slot with escaped := dropEscaped s.slot.escaped i } := by
    refine after_bind.mpr ?_
    unfold abiFree
    rw [if_pos lock, if_pos lock, sound.fits.escaped_global member, found]
    exact after_bind.mpr (after_free ⟨rfl, rfl⟩)
  obtain ⟨rfl, rfl⟩ := after.exec ran
  rintro ⟨-, -, sizes⟩
  have wrong := sizes ⟨last.addr, e.size⟩ (dropEscaped_swaps here ends other)
  have before := ((sound.fits.ledger.give (sound.fits.escaped e member)).2 _ _).mp wrong
  have right := sound.fits.escaped last (List.mem_of_getLast? ends)
  exact other (sound.fits.ledger.size_unique before.2 right)

theorem spoils_unmatched (arena : config.lock = true ∧ config.psram = true)
    {e : Event} (sound : Sound s)
    (spoils : Spoils s e) (stepped : step config s e = some t) : ¬Matched t := by
  obtain ⟨call, trace⟩ := e
  unfold step at stepped
  obtain ⟨allowed, stepped⟩ := Option.ite_none_right_eq_some.mp stepped
  obtain ⟨⟨memory, slot, r⟩, ran, rfl⟩ := Option.map_eq_some_iff.mp stepped
  cases call with
  | malloc n => exact spoils.elim
  | calloc n size => exact spoils.elim
  | free p =>
    cases p with
    | none => exact spoils.elim
    | some p => exact swaps_unmatched arena.1 sound spoils ran
  | realloc p n =>
    cases p with
    | none => exact spoils.elim
    | some p =>
      dsimp only [Spoils] at spoils
      split at spoils
      · rename_i zero
        subst zero
        exact swaps_unmatched arena.1 sound spoils ran
      · rename_i positive
        obtain ⟨entry, member, rfl, spiram, q, answer, other⟩ := spoils
        rw [body_realloc arena.1 s.slot entry.addr positive,
          sound.fits.escaped_global member] at ran
        obtain rfl := (exec_globalRealloc ran q).mpr ⟨spiram, answer⟩
        obtain ⟨rfl, heap, resized, rfl⟩ := (after_globalRealloc sound.fits n member).exec ran
        rintro ⟨-, -, sizes⟩
        have outs := (sound.fits.ledger.resize (sound.fits.escaped entry member) resized).2.2
        rcases (outs _ _).mp (sizes entry member) with ⟨here, size⟩ | ⟨elsewhere, -⟩
        · exact other ⟨here.symm, size.symm⟩
        · exact elsewhere rfl

theorem sound_boot : Sound boot := by
  refine ⟨⟨Lib.Blocks.ledger_empty, nofun, nofun, nofun, List.nodup_nil, ?_, nofun, List.nodup_nil⟩,
    List.nodup_nil, nofun⟩
  rintro a n ⟨b, member, -⟩
  cases member

/-- For every sequence of calls and the end of the process: what the slot says of the escaped blocks
is so at every moment, nothing is given back or looked at again after it was given back, and every
block is given back once, exactly where no call leaves a wrong entry behind and the end does not
stop at once with an entry left. -/
theorem freed_once_iff (arena : config.lock = true ∧ config.psram = true) {es : List Event}
    {trace : Trace Answer}
    {last : Memory}
    (done : run (step config) boot es = some s) (released : release s trace = some last) :
    ((∀ before t, before <+: es → run (step config) boot before = some t → Matched t) ∧
        last.heap.wild = 0 ∧ ∀ b ∈ last.heap.blocks, b.frees = 1) ↔
      Along (step config) (fun s e => ¬Spoils s e) boot es ∧
        (s.slot.escaped = [] ∨ s.slot.regions ≠ [] ∨ s.slot.index ≠ none) := by
  obtain ⟨⟨memory, slot⟩, ran, rfl⟩ := Option.map_eq_some_iff.mp released
  have keep : ∀ u e v, Sound u → ¬Spoils u e → step config u e = some v → Sound v :=
    fun _ _ _ sound kept stepped => sound_step arena sound kept stepped
  have throughout := safe_throughout_iff keep (fun _ sound => sound.matched)
    (fun _ _ _ sound spoils stepped => spoils_unmatched arena sound spoils stepped) sound_boot done
  constructor
  · rintro ⟨matched, -, once⟩
    have along := throughout.mp matched
    refine ⟨along, ?_⟩
    have sound := run_invariant_along keep along done sound_boot
    by_contra stops
    push Not at stops
    obtain ⟨some_left, regions, index⟩ := stops
    -- nothing is given back, and a block is left
    obtain rfl := (after_regionsRelease_nothing ⟨regions, index⟩).exec ran
    obtain ⟨e, member⟩ := List.exists_mem_of_ne_nil _ some_left
    obtain ⟨b, there, -, -, zero⟩ := sound.fits.escaped e member
    rw [once b there] at zero
    cases zero
  · rintro ⟨along, goes_on⟩
    have sound := run_invariant_along keep along done sound_boot
    refine ⟨throughout.mpr along, ?_⟩
    by_cases stops : s.slot.regions = [] ∧ s.slot.index = none
    · have empty : s.slot.escaped = [] :=
        goes_on.resolve_right fun other => other.elim (absurd stops.1) (absurd stops.2)
      obtain rfl := (after_regionsRelease_nothing stops).exec ran
      refine ⟨sound.fits.ledger.tame, sound.fits.ledger.all_given fun a n out => ?_⟩
      have named := sound.fits.all a n out
      rw [owned, stops.1, stops.2, empty] at named
      cases named
    · obtain ⟨ledger, none_left⟩ := (after_regionsRelease sound.fits (not_and_or.mp stops)).exec ran
      exact ⟨ledger.tame, ledger.all_given none_left⟩

end Calls

def board : Config := ⟨true, true, 240, 240⟩

def inRegion : Event :=
  (.malloc 100, [⟨.canvas, none⟩, ⟨.freeSize, (1000000 : Nat)⟩, ⟨.realloc true none 48, some 1000⟩,
    ⟨.freeSize, (1000000 : Nat)⟩, ⟨.malloc true 33798, some 4096⟩, ⟨.register 4096 33798, true⟩,
    ⟨.largest 4096, (30000 : Nat)⟩, ⟨.poolMalloc 4096 100, some 4200⟩])

/-- The first request is for more than is free above the floor; the index is made and the block
escapes. -/
def escapes : Event :=
  (.malloc 300000, [⟨.canvas, none⟩, ⟨.freeSize, (400000 : Nat)⟩,
    ⟨.realloc true none 48, some 1000⟩,
    ⟨.freeSize, (400000 : Nat)⟩, ⟨.malloc true 300000, some 500000⟩])

def escapesLater : Event :=
  (.malloc 300000, [⟨.poolMalloc 4096 300000, none⟩, ⟨.canvas, none⟩, ⟨.freeSize, (400000 : Nat)⟩,
    ⟨.freeSize, (400000 : Nat)⟩, ⟨.malloc true 300000, some 500000⟩])

def wellUsed : List Event := [inRegion, escapesLater, (.free (some 500000), [⟨.free 500000, ()⟩])]

theorem freed_once_well_used : ∃ s last, run (step board) boot wellUsed = some s ∧
    release s [⟨.free 4096, ()⟩, ⟨.free 1000, ()⟩] = some last ∧ s.held = [4200] ∧
    last.heap.wild = 0 ∧ (∀ b ∈ last.heap.blocks, b.frees = 1) ∧
    ∀ before t, before <+: wellUsed → run (step board) boot before = some t → Matched t := by
  obtain ⟨s, done, held, index⟩ : ∃ s, run (step board) boot wellUsed = some s ∧
      s.held = [4200] ∧ s.slot.index ≠ none :=
    ⟨_, rfl, rfl, nofun⟩
  obtain ⟨last, released⟩ : ∃ last, release s [⟨.free 4096, ()⟩, ⟨.free 1000, ()⟩] = some last := by
    cases done
    exact ⟨_, rfl⟩
  refine ⟨s, last, done, released, held, ?_⟩
  have result := (freed_once_iff ⟨rfl, rfl⟩ done released).mpr ⟨?_, .inr (.inr index)⟩
  · exact ⟨result.2.1, result.2.2, result.1⟩
  refine ⟨id, fun _ first => ⟨id, fun _ second => ⟨?_, fun _ _ => trivial⟩⟩⟩
  cases first
  cases second
  rintro ⟨i, e, last, found, here, ends, other⟩
  cases found
  cases here
  cases ends
  exact other rfl

/-- A block that escaped is made larger and moves: at the end the old one is given back again, and
the new one never. A block escapes and the index could not be made: it is never given back. Of two
blocks that escaped the first is given back: the other is listed with its size. -/
theorem block_lost :
    (∃ s last, run (step board) boot [escapes, (.realloc (some 500000) 400000,
        [⟨.realloc true (some 500000) 400000, some 900000⟩])] = some s ∧
      release s [⟨.free 500000, ()⟩, ⟨.free 1000, ()⟩] = some last ∧
      last.heap = ⟨[⟨900000, 400000, 0⟩, ⟨500000, 300000, 2⟩, ⟨1000, 48, 1⟩], 1⟩) ∧
    (∃ s last,
      run (step board) boot [(.malloc 300000, [⟨.canvas, none⟩, ⟨.freeSize, (400000 : Nat)⟩,
        ⟨.realloc true none 48, none⟩, ⟨.realloc false none 48, none⟩,
        ⟨.malloc true 300000, some 500000⟩])] = some s ∧
      release s [] = some last ∧ last.heap = ⟨[⟨500000, 300000, 0⟩], 0⟩) ∧
    ∃ s, run (step board) boot
    [escapes, (.malloc 200000, [⟨.canvas, none⟩, ⟨.freeSize, (400000 : Nat)⟩,
        ⟨.freeSize, (400000 : Nat)⟩, ⟨.malloc true 200000, some 900000⟩]),
        (.free (some 500000), [⟨.free 500000, ()⟩])] = some s ∧
      s.slot.escaped = [⟨900000, 300000⟩] ∧
      s.memory.heap.blocks = [⟨900000, 200000, 0⟩, ⟨500000, 300000, 1⟩, ⟨1000, 48, 0⟩] :=
  ⟨⟨_, _, rfl, rfl, rfl⟩, ⟨_, _, rfl, rfl, rfl⟩, _, rfl, rfl, rfl⟩

end Espix.Proc.Arena
