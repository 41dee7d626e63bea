import Mathlib.Data.List.Pairwise
import Mathlib.Order.Basic

/-! The blocks of a heap, and how often each was given back.

A block is known by its address, and an address means the last block that was there. What the heap
hands out never overlaps what is still out. -/

namespace Espix.Lib.Blocks

structure Block where
  addr : Nat
  size : Nat
  frees : Nat
  deriving DecidableEq

structure Heap where
  blocks : List Block
  /-- Calls with an address that was not out. -/
  wild : Nat
  deriving DecidableEq

def empty : Heap := ⟨[], 0⟩

def latest (blocks : List Block) (a : Nat) : Option Block := blocks.find? (·.addr == a)

def onLatest (a : Nat) (f : Block → Block) : List Block → List Block
  | [] => []
  | b :: rest => if b.addr = a then f b :: rest else b :: onLatest a f rest

def isOut (h : Heap) (a : Nat) : Bool := (latest h.blocks a).any (·.frees == 0)

/-- No block that is out, but for the one at an address, overlaps the range. -/
def room (h : Heap) (a n : Nat) (but : Option Nat) : Bool :=
  h.blocks.all fun b => b.frees != 0 || some b.addr == but || decide (b.addr + b.size ≤ a) ||
  decide (a + n ≤ b.addr)

def take (h : Heap) (a n : Nat) : Option Heap :=
  if 0 < n ∧ room h a n none then some { h with blocks := ⟨a, n, 0⟩ :: h.blocks } else none

def give (h : Heap) (a : Nat) : Heap :=
  ⟨onLatest a (fun b => { b with frees := b.frees + 1 }) h.blocks, h.wild + if isOut h a then
    0 else 1⟩

def touch (h : Heap) (a : Nat) : Heap := { h with wild := h.wild + if isOut h a then 0 else 1 }

/-- A block gets another size, where it is or somewhere else. -/
def resize (h : Heap) (a b n : Nat) : Option Heap :=
  if isOut h a then
    if n = 0 then none
    else if b = a then
      if room h a n (some a) then
        some { h with blocks := onLatest a (fun block => { block with size := n }) h.blocks }
          else none
    else if room h b n none then some { give h a with blocks := ⟨b, n, 0⟩ :: (give h a).blocks }
    else none
  else some (touch h a)

def Apart (b c : Block) : Prop := b.addr + b.size ≤ c.addr ∨ c.addr + c.size ≤ b.addr

def Out (h : Heap) (a n : Nat) : Prop := ∃ b ∈ h.blocks, b.addr = a ∧ b.size = n ∧ b.frees = 0

def Beside (newer older : Block) : Prop :=
  older.frees = 0 → newer.addr ≠ older.addr ∧ (newer.frees = 0 → Apart newer older)

/-- Nothing was given back twice, and what is out does not overlap. -/
structure Ledger (h : Heap) : Prop where
  tame : h.wild = 0
  once : ∀ b ∈ h.blocks, 0 < b.size ∧ b.frees ≤ 1
  beside : h.blocks.Pairwise Beside

theorem ledger_empty : Ledger empty := ⟨rfl, nofun, .nil⟩

section Latest

variable {blocks : List Block} {a : Nat} {b : Block} {f : Block → Block}

theorem latest_mem (found : latest blocks a = some b) : b ∈ blocks ∧ b.addr = a := by
  have right := List.find?_some found
  exact ⟨List.mem_of_find?_eq_some found, eq_of_beq right⟩

theorem latest_split (found : latest blocks a = some b) :
    ∃ newer older, blocks = newer ++ b :: older ∧ onLatest a f blocks = newer ++ f b :: older := by
  induction blocks with
  | nil => cases found
  | cons c rest ih =>
    by_cases here : c.addr = a
    · have same : c = b := by
        rw [latest, List.find?_cons_of_pos (by simpa using here)] at found
        exact Option.some.inj found
      subst same
      exact ⟨[], rest, rfl, by rw [onLatest, if_pos here, List.nil_append]⟩
    · rw [latest, List.find?_cons_of_neg (by simpa using here)] at found
      obtain ⟨newer, older, split, changed⟩ := ih found
      refine ⟨c :: newer, older, by rw [split, List.cons_append], ?_⟩
      rw [onLatest, if_neg here, changed, List.cons_append]

end Latest

section Ledger

variable {h t : Heap} {a n : Nat}

theorem Ledger.latest (ledger : Ledger h) (out : Out h a n) :
    latest h.blocks a = some ⟨a, n, 0⟩ := by
  obtain ⟨b, member, rfl, rfl, zero⟩ := out
  have whole : b = ⟨b.addr, b.size, 0⟩ := by rw [← zero]
  have beside := ledger.beside
  unfold Blocks.latest
  generalize h.blocks = blocks at member beside
  induction blocks with
  | nil => cases member
  | cons c rest ih =>
    obtain ⟨first, later⟩ := List.pairwise_cons.mp beside
    rcases List.mem_cons.mp member with rfl | inside
    · rw [List.find?_cons_of_pos (by simp), ← whole]
    · rw [List.find?_cons_of_neg (by simpa using (first b inside zero).1)]
      exact ih inside later

theorem Ledger.isOut (ledger : Ledger h) (out : Out h a n) : isOut h a = true := by
  rw [Blocks.isOut, ledger.latest out]
  rfl

theorem Ledger.size_unique (ledger : Ledger h) {m : Nat} (out : Out h a n)
    (also : Out h a m) : m = n := by
  have same := (ledger.latest out).symm.trans (ledger.latest also)
  cases same
  rfl

def Clear (b c : Block) : Prop := b.frees = 0 → c.frees = 0 → Apart b c

instance : Std.Symm Clear := ⟨fun _ _ clear first second => (clear second first).symm⟩

section

variable (ledger : Ledger h)

include ledger

theorem Ledger.ranges {b m : Nat} (out : Out h a n) (also : Out h b m) (differs : b ≠ a) :
    a + n ≤ b ∨ b + m ≤ a := by
  obtain ⟨one, first, rfl, rfl, zero⟩ := out
  obtain ⟨other, second, rfl, rfl, also_zero⟩ := also
  have clear : h.blocks.Pairwise Clear :=
    ledger.beside.imp fun beside newer older => (beside older).2 newer
  exact clear.forall first second (fun same => differs (by rw [same])) zero also_zero

theorem Ledger.size_pos (out : Out h a n) : 0 < n := by
  obtain ⟨b, member, -, rfl, -⟩ := out
  exact (ledger.once b member).1

/-- The block that is out at an address changes, and is apart from the others that are. -/
theorem Ledger.change (f : Block → Block) (out : Out h a n) (same : (f ⟨a, n, 0⟩).addr = a)
    (sound : 0 < (f ⟨a, n, 0⟩).size ∧ (f ⟨a, n, 0⟩).frees ≤ 1)
    (clear : (f ⟨a, n, 0⟩).frees = 0 → ∀ c ∈ h.blocks, c.addr ≠ a → c.frees = 0 →
      Apart (f ⟨a, n, 0⟩) c) :
    Ledger { h with blocks := onLatest a f h.blocks } ∧
    ∀ b m, Out { h with blocks := onLatest a f h.blocks } b m ↔
      ((f ⟨a, n, 0⟩).frees = 0 ∧ b = a ∧ m = (f ⟨a, n, 0⟩).size) ∨ b ≠ a ∧ Out h b m := by
  obtain ⟨newer, older, split, changed⟩ := latest_split (f := f) (ledger.latest out)
  have beside := ledger.beside
  rw [split] at beside
  obtain ⟨front, back, across⟩ := List.pairwise_append.mp beside
  obtain ⟨first, rest⟩ := List.pairwise_cons.mp back
  -- the others, before and after it
  have ahead : ∀ c ∈ newer, c ∈ h.blocks ∧ c.addr ≠ a := by
    intro c inside
    refine ⟨by rw [split]; exact List.mem_append_left _ inside, ?_⟩
    exact (across c inside _ List.mem_cons_self rfl).1
  have behind : ∀ c ∈ older, c ∈ h.blocks ∧ (c.frees = 0 → c.addr ≠ a) := by
    intro c inside
    refine ⟨by rw [split]; exact List.mem_append_right _ (List.mem_cons_of_mem _ inside),
      fun zero => ?_⟩
    exact (first c inside zero).1.symm
  have members : ∀ b ∈ onLatest a f h.blocks, b = f ⟨a, n, 0⟩ ∨ b ∈ h.blocks ∧
      (b.addr = a → b.frees ≠ 0) := by
    intro b member
    rw [changed] at member
    rcases List.mem_append.mp member with inside | inside
    · exact .inr ⟨(ahead b inside).1, fun here => absurd here (ahead b inside).2⟩
    · rcases List.mem_cons.mp inside with rfl | inside
      · exact .inl rfl
      · exact .inr ⟨(behind b inside).1, fun here zero => (behind b inside).2 zero here⟩
  refine ⟨⟨ledger.tame, fun b member => ?_, ?_⟩, fun b m => ⟨?_, ?_⟩⟩
  · rcases members b member with rfl | ⟨old, -⟩
    · exact sound
    · exact ledger.once b old
  · dsimp only
    rw [changed]
    refine List.pairwise_append.mpr ⟨front, List.pairwise_cons.mpr ⟨fun c inside zero => ?_, rest⟩,
      fun c inside d at_it => ?_⟩
    · have differs := (behind c inside).2 zero
      exact ⟨by rw [same]; exact differs.symm, fun live =>
        clear live c (behind c inside).1 differs zero⟩
    · rcases List.mem_cons.mp at_it with rfl | at_it
      · intro live
        obtain ⟨member, differs⟩ := ahead c inside
        exact ⟨by rw [same]; exact differs, fun zero => (clear live c member differs zero).symm⟩
      · exact across c inside d (List.mem_cons_of_mem _ at_it)
  · rintro ⟨c, member, rfl, rfl, zero⟩
    rcases members c member with rfl | ⟨old, dead⟩
    · exact .inl ⟨zero, same, rfl⟩
    · exact .inr ⟨fun here => dead here zero, c, old, rfl, rfl, zero⟩
  · rintro (⟨zero, rfl, rfl⟩ | ⟨differs, c, member, addr, size, zero⟩)
    · exact ⟨_, changed ▸ List.mem_append_right _ List.mem_cons_self, same, rfl, zero⟩
    · refine ⟨c, ?_, addr, size, zero⟩
      dsimp only
      rw [changed]
      rw [split] at member
      rcases List.mem_append.mp member with inside | inside
      · exact List.mem_append_left _ inside
      · rcases List.mem_cons.mp inside with rfl | inside
        · exact absurd addr.symm differs
        · exact List.mem_append_right _ (List.mem_cons_of_mem _ inside)

theorem Ledger.give (out : Out h a n) :
    Ledger (give h a) ∧ ∀ b m, Out (give h a) b m ↔ b ≠ a ∧ Out h b m := by
  have tame : Blocks.give h a =
      { h with blocks := onLatest a (fun b => { b with frees := b.frees + 1 }) h.blocks } := by
    rw [Blocks.give, ledger.isOut out]
    rfl
  obtain ⟨kept, outs⟩ := ledger.change (fun b => { b with frees := b.frees + 1 }) out rfl
    ⟨ledger.size_pos out, Nat.le_refl 1⟩ nofun
  rw [tame]
  exact ⟨kept, fun b m => (outs b m).trans (or_iff_right nofun)⟩

end

theorem room_iff {but : Option Nat} : room h a n but = true ↔
    ∀ b ∈ h.blocks, b.frees = 0 → some b.addr ≠ but → b.addr + b.size ≤ a ∨ a + n ≤ b.addr := by
  unfold room
  rw [List.all_eq_true]
  refine forall₂_congr fun b _ => ?_
  simp only [Bool.or_eq_true, bne_iff_ne, beq_iff_eq, decide_eq_true_eq]
  grind

theorem Ledger.take (ledger : Ledger h) (taken : take h a n = some t) :
    Ledger t ∧ (∀ m, ¬Out h a m) ∧ ∀ b m, Out t b m ↔ b = a ∧ m = n ∨ Out h b m := by
  unfold Blocks.take at taken
  obtain ⟨fits, taken⟩ := Option.ite_none_right_eq_some.mp taken
  obtain ⟨positive, free⟩ := fits
  have clear := room_iff.mp free
  cases taken
  have vacant : ∀ b ∈ h.blocks, b.frees = 0 → a ≠ b.addr := by
    intro b member zero same
    have size := (ledger.once b member).1
    have range := clear b member zero nofun
    omega
  refine ⟨⟨ledger.tame, fun b member => ?_,
    List.pairwise_cons.mpr ⟨fun b member zero => ?_, ledger.beside⟩⟩, ?_, fun b m => ?_⟩
  · rcases List.mem_cons.mp member with rfl | old
    · exact ⟨positive, Nat.zero_le _⟩
    · exact ledger.once b old
  · exact ⟨vacant b member zero, fun _ => (clear b member zero nofun).symm⟩
  · rintro m ⟨b, member, here, -, zero⟩
    exact vacant b member zero here.symm
  · constructor
    · rintro ⟨c, member, rfl, rfl, zero⟩
      rcases List.mem_cons.mp member with rfl | old
      · exact .inl ⟨rfl, rfl⟩
      · exact .inr ⟨c, old, rfl, rfl, zero⟩
    · rintro (⟨rfl, rfl⟩ | ⟨c, member, addr, size, zero⟩)
      · exact ⟨⟨b, m, 0⟩, List.mem_cons_self, rfl, rfl, rfl⟩
      · exact ⟨c, List.mem_cons_of_mem _ member, addr, size, zero⟩

/-- A block that is out gets another size; if it moves, to where nothing is out. -/
theorem Ledger.resize (ledger : Ledger h) {m b : Nat} (out : Out h a m)
    (resized : resize h a b n = some t) :
    Ledger t ∧ (b ≠ a → ∀ k, ¬Out h b k) ∧ ∀ c k, Out t c k ↔ c = b ∧ k = n ∨ c ≠ a ∧
    Out h c k := by
  unfold Blocks.resize at resized
  rw [if_pos (ledger.isOut out)] at resized
  obtain ⟨positive, resized⟩ := Option.ite_none_left_eq_some.mp resized
  split at resized
  · rename_i here
    subst here
    split at resized
    · rename_i free
      cases resized
      have clear := room_iff.mp free
      obtain ⟨kept, outs⟩ := ledger.change (fun block => { block with size := n }) out rfl
        ⟨Nat.pos_of_ne_zero positive, Nat.zero_le _⟩ fun _ c member differs zero =>
          (clear c member zero fun same => differs (Option.some.inj same)).symm
      exact ⟨kept, fun differs => absurd rfl differs, fun c k =>
        (outs c k).trans (or_congr (and_iff_right rfl) Iff.rfl)⟩
    · cases resized
  · rename_i differs
    split at resized
    · rename_i free
      cases resized
      obtain ⟨kept, left⟩ := ledger.give out
      have clear : room (Blocks.give h a) b n none = true := by
        refine room_iff.mpr fun c member zero _ => ?_
        obtain ⟨apart, d, old, addr, size, live⟩ :=
          (left c.addr c.size).mp ⟨c, member, rfl, rfl, zero⟩
        have range := room_iff.mp free d old live nofun
        rwa [addr, size] at range
      have moved : Blocks.take (Blocks.give h a) b n =
          some { Blocks.give h a with blocks := ⟨b, n, 0⟩ :: (Blocks.give h a).blocks } :=
        if_pos ⟨Nat.pos_of_ne_zero positive, clear⟩
      obtain ⟨taken, -, outs⟩ := kept.take moved
      refine ⟨taken, fun _ k live => ?_, fun c k => (outs c k).trans (or_congr Iff.rfl (left c k))⟩
      obtain ⟨d, member, rfl, rfl, zero⟩ := live
      have range := room_iff.mp free d member zero nofun
      have size := (ledger.once d member).1
      omega
    · cases resized

theorem Ledger.all_given (ledger : Ledger h) (none : ∀ a n, ¬Out h a n) :
    ∀ b ∈ h.blocks, b.frees = 1 := by
  intro b member
  have most := (ledger.once b member).2
  have some : b.frees ≠ 0 := fun zero => none b.addr b.size ⟨b, member, rfl, rfl, zero⟩
  omega

end Ledger

end Espix.Lib.Blocks
