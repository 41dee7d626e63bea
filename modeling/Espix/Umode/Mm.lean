import Espix.Lib.Page
import Mathlib.Data.List.FinRange
import Mathlib.Logic.Function.Basic
import Mathlib.Tactic

/-! `components/espix_proc/umode_mm.c`: an Sv32 table per process.

Frames are numbered by the allocation they came from, so a new frame is new; the
heap they come from is an oracle that says which allocation succeeds. What user
code and the kernel's copies see of an address space is its view. -/

namespace Espix.Umode.Mm

open Function Lib.Page

def stackTop : Nat := 0x80000000
def stackMax : Nat := 0x800000
def tstacksMax : Nat := 31
def tstackHigh : Nat := stackTop - stackMax
def tstackLow : Nat := tstackHigh - tstacksMax * stackMax
def uvaMin : Nat := 0x10000
def uvaMax : Nat := 0x70000000

inductive Need
  | r
  | w
  | x
  deriving DecidableEq, Repr

structure Perm where
  r : Bool
  w : Bool
  x : Bool
  deriving DecidableEq, Repr

namespace Perm

def none : Perm := ⟨false, false, false⟩

def rw : Perm := ⟨true, true, false⟩

def union (p q : Perm) : Perm := ⟨p.r || q.r, p.w || q.w, p.x || q.x⟩

def has (p : Perm) : Need → Bool
  | .r => p.r
  | .w => p.w
  | .x => p.x

end Perm

structure Pte where
  frame : Nat
  perm : Perm
  user : Bool
  deriving DecidableEq, Repr

/-- A range whose pages are mapped when first touched. An end of zero is a free entry. -/
structure Region where
  start : Nat
  stop : Nat
  perm : Perm
  start_aligned : start % 4096 = 0
  stop_aligned : stop % 4096 = 0

def Region.empty : Region := ⟨0, 0, Perm.none, rfl, rfl⟩

def Region.contains (region : Region) (va : Nat) : Bool :=
  region.start ≤ va && va < region.stop

structure AddrSpace where
  root : Nat → Option (Nat → Option Pte)
  regions : Fin 8 → Region
  brkBase : Nat
  brk : Nat
  tstacks : Nat
  mem : Nat → Nat → UInt8
  ticks : Nat

def AddrSpace.new : AddrSpace :=
  { root := fun _ => Option.none, regions := fun _ => Region.empty, brkBase := 0, brk := 0,
    tstacks := 0, mem := fun _ _ => 0, ticks := 0 }

abbrev Heap := Nat → Bool

def l1Index (va : Nat) : Nat := va / 4194304

def l2Index (va : Nat) : Nat := va / 4096 % 1024

def lookup (as : AddrSpace) (va : Nat) : Option Pte :=
  (as.root (l1Index va)).bind fun table => table (l2Index va)

def frameAlloc (heap : Heap) (as : AddrSpace) : Option Nat × AddrSpace :=
  if heap as.ticks then
    (some as.ticks,
      { as with mem := Function.update as.mem as.ticks fun _ => 0, ticks := as.ticks + 1 })
  else (none, { as with ticks := as.ticks + 1 })

def leafCreate (heap : Heap) (as : AddrSpace) (va : Nat) : Bool × AddrSpace :=
  if (as.root (l1Index va)).isSome then (true, as)
  else
    match frameAlloc heap as with
    | (some _, as') =>
      (true, { as' with root := Function.update as'.root (l1Index va) (some fun _ => none) })
    | (none, as') => (false, as')

def setPte (as : AddrSpace) (va : Nat) (pte : Pte) : AddrSpace :=
  match as.root (l1Index va) with
  | some table =>
    { as with root :=
        Function.update as.root (l1Index va) (some
          (Function.update table (l2Index va) (some pte))) }
  | none => as

/-- `espix_um_map_new`: a page two segments share takes both segments' permissions. -/
def mapNew (heap : Heap) (as : AddrSpace) (va : Nat) (perm : Perm) : Option Nat × AddrSpace :=
  match leafCreate heap as va with
  | (false, as₁) => (none, as₁)
  | (true, as₁) =>
    match lookup as₁ va with
    | some pte => (some pte.frame, setPte as₁ va ⟨pte.frame, pte.perm.union perm, true⟩)
    | none =>
      match frameAlloc heap as₁ with
      | (some frame, as₂) => (some frame, setPte as₂ va ⟨frame, perm, true⟩)
      | (none, as₂) => (none, as₂)

def regionOf (start stop : Nat) (perm : Perm) : Region :=
  ⟨pageDown start, pageUp stop, perm, pageDown_aligned start, pageUp_aligned stop⟩

def regionAdd (as : AddrSpace) (start stop : Nat) (perm : Perm) : Option AddrSpace :=
  match (List.finRange 8).find? (fun i => i ≠ 0 ∧ (as.regions i).stop = 0) with
  | some i => some { as with regions := Function.update as.regions i (regionOf start stop perm) }
  | none => none

def reservedAt (as : AddrSpace) (va : Nat) : Option Perm :=
  match (List.finRange 8).find? (fun i => (as.regions i).contains va) with
  | some i => some (as.regions i).perm
  | none =>
    let k := (tstackHigh - 1 - va) / stackMax
    let top := tstackHigh - k * stackMax - 4096
    if tstackLow ≤ va ∧ va < tstackHigh ∧ as.tstacks.testBit k = true ∧ va < top ∧
        top - stackMax + 8192 ≤ va then some Perm.rw
    else none

def brkInit (as : AddrSpace) (base : Nat) : AddrSpace :=
  { as with
    brkBase := pageUp base
    brk := pageUp base
    regions := Function.update as.regions 0
      ⟨pageUp base, pageUp base, Perm.rw, pageUp_aligned base, pageUp_aligned base⟩ }

/-- Where a page sits: its frame and the offset of the address in it. -/
abbrev Loc := Nat × Nat

def pageOf (heap : Heap) (as : AddrSpace) (va : Nat) (need : Need) : Option Loc × AddrSpace :=
  match lookup as va with
  | none =>
    let perm := (reservedAt as va).getD Perm.none
    if perm = Perm.none ∨ perm.has need = false then (none, as)
    else
      match mapNew heap as (pageDown va) perm with
      | (some frame, as') => (some (frame, offset va), as')
      | (none, as') => (none, as')
  | some pte =>
      if pte.user && pte.perm.has need then (some (pte.frame, offset va), as) else (none, as)

/-- `espix_um_user_pin`: the walk without the lock, then the page under it. -/
def userPin (heap : Heap) (as : AddrSpace) (va : Nat) (need : Need) : Option Loc × AddrSpace :=
  match lookup as va with
  | some pte =>
    if pte.user && pte.perm.has need then (some (pte.frame, offset va), as)
    else pageOf heap as va need
  | none => pageOf heap as va need

/-- What there is at an address: a user page's byte, or the zero a reserved page
will be mapped with. -/
def view (as : AddrSpace) (va : Nat) : Option (Perm × UInt8) :=
  match lookup as va with
  | some pte => if pte.user then some (pte.perm, as.mem pte.frame (offset va)) else none
  | none => (reservedAt as va).map fun perm => (perm, 0)

def accessible (as : AddrSpace) (need : Need) (va : Nat) : Bool :=
  (view as va).any fun v => v.1.has need

/-- A frame backs one page, and no frame is one the heap has yet to give. -/
structure Wf (as : AddrSpace) : Prop where
  old : ∀ va pte, lookup as va = some pte → pte.frame < as.ticks
  inj : ∀ va vb p q, lookup as va = some p → lookup as vb = some q → p.frame = q.frame →
    page va = page vb

theorem Wf.of_empty {as : AddrSpace} (empty : ∀ va, lookup as va = none) : Wf as := by
  constructor
  · intro va pte found
    rw [empty] at found
    cases found
  · intro va vb p q found
    rw [empty] at found
    cases found

section Lookup

variable {as : AddrSpace}

theorem page_eq_iff {va vb : Nat} :
    page va = page vb ↔ l1Index va = l1Index vb ∧ l2Index va = l2Index vb := by
  simp only [page, l1Index, l2Index]
  omega

theorem lookup_congr {va vb : Nat} (same : page va = page vb) : lookup as va = lookup as vb := by
  obtain ⟨l1, l2⟩ := page_eq_iff.mp same
  rw [lookup, lookup, l1, l2]

theorem Region.contains_congr (region : Region) {va vb : Nat} (same : page va = page vb) :
    region.contains va = region.contains vb := by
  have start := region.start_aligned
  have stop := region.stop_aligned
  have lower : region.start ≤ va ↔ region.start ≤ vb := by
    simp only [page] at same
    omega
  have upper : va < region.stop ↔ vb < region.stop := by
    simp only [page] at same
    omega
  simp [Region.contains, lower, upper]

theorem tstackHigh_eq : tstackHigh = 0x7f800000 := rfl

theorem tstackLow_eq : tstackLow = 0x70000000 := rfl

theorem reservedAt_congr {va vb : Nat} (same : page va = page vb) :
    reservedAt as va = reservedAt as vb := by
  have regions : (fun i => (as.regions i).contains va) = fun i => (as.regions i).contains vb :=
    funext fun i => (as.regions i).contains_congr same
  simp only [page] at same
  have span : (tstackHigh - 1 - va) / stackMax = (tstackHigh - 1 - vb) / stackMax := by
    simp only [tstackHigh_eq, stackMax]
    omega
  have low : tstackLow ≤ va ↔ tstackLow ≤ vb := by
    simp only [tstackLow_eq]
    omega
  have high : va < tstackHigh ↔ vb < tstackHigh := by
    simp only [tstackHigh_eq]
    omega
  have below : ∀ k, va < tstackHigh - k * stackMax - 4096 ↔
      vb < tstackHigh - k * stackMax - 4096 := by
    intro k
    simp only [tstackHigh_eq, stackMax]
    omega
  have above : ∀ k, tstackHigh - k * stackMax - 4096 - stackMax + 8192 ≤ va ↔
      tstackHigh - k * stackMax - 4096 - stackMax + 8192 ≤ vb := by
    intro k
    simp only [tstackHigh_eq, stackMax]
    omega
  simp only [reservedAt, regions, span, low, high, below, above]

theorem lookup_setPte {va : Nat} (pte : Pte) (table : (as.root (l1Index va)).isSome = true)
    (vb : Nat) :
    lookup (setPte as va pte) vb = if page vb = page va then some pte else lookup as vb := by
  obtain ⟨t, present⟩ := Option.isSome_iff_exists.mp table
  simp only [setPte, present, lookup, page_eq_iff]
  by_cases l1 : l1Index vb = l1Index va
  · by_cases l2 : l2Index vb = l2Index va
    · simp [l1, l2]
    · simp [l1, l2, present]
  · simp [l1]

theorem setPte_mem (va : Nat) (pte : Pte) : (setPte as va pte).mem = as.mem := by
  simp only [setPte]
  split <;> rfl

theorem setPte_ticks (va : Nat) (pte : Pte) : (setPte as va pte).ticks = as.ticks := by
  simp only [setPte]
  split <;> rfl

end Lookup

section Regions

variable {as as' : AddrSpace} {va start stop : Nat} {perm : Perm}

theorem reservedAt_of_region {i : Fin 8} (inside : (as.regions i).contains va = true) :
    (reservedAt as va).isSome = true := by
  simp only [reservedAt]
  split
  · rfl
  · rename_i none_found
    have missing := List.find?_eq_none.mp none_found i (List.mem_finRange i)
    exact absurd inside missing

theorem reservedAt_update {i : Fin 8} (region : Region)
    (unused : (as.regions i).contains va = false) (reserved : (reservedAt as va).isSome = true) :
    (reservedAt { as with regions := update as.regions i region } va).isSome = true := by
  by_cases region_found : ∃ j, (update as.regions i region j).contains va = true
  · obtain ⟨j, inside⟩ := region_found
    exact reservedAt_of_region (i := j) inside
  · have none_new : (List.finRange 8).find?
        (fun j => (update as.regions i region j).contains va) = none :=
      List.find?_eq_none.mpr fun j _ inside => region_found ⟨j, inside⟩
    have none_old : (List.finRange 8).find? (fun j => (as.regions j).contains va) = none := by
      refine List.find?_eq_none.mpr fun j _ inside => ?_
      by_cases same : j = i
      · rw [same, unused] at inside
        cases inside
      · exact region_found ⟨j, by rw [update_of_ne same]; exact inside⟩
    simp only [reservedAt, none_old] at reserved
    simpa only [reservedAt, none_new] using reserved

theorem Region.contains_free (region : Region) (free : region.stop = 0) (va : Nat) :
    region.contains va = false := by
  simp [Region.contains, free]

section

variable (done : regionAdd as start stop perm = some as')

include done

theorem regionAdd_spec :
    ∃ i : Fin 8, i ≠ 0 ∧ (as.regions i).stop = 0 ∧
      as' = { as with regions := update as.regions i (regionOf start stop perm) } := by
  simp only [regionAdd] at done
  split at done
  · rename_i i found
    cases done
    have free := List.find?_some found
    simp only [decide_eq_true_eq] at free
    exact ⟨i, free.1, free.2, rfl⟩
  · cases done

theorem regionAdd_reserves (low : pageDown start ≤ va) (high : va < pageUp stop) :
    (reservedAt as' va).isSome = true := by
  obtain ⟨i, -, -, rfl⟩ := regionAdd_spec done
  apply reservedAt_of_region (i := i)
  simp [Region.contains, regionOf, low, high]

theorem regionAdd_keeps (reserved : (reservedAt as va).isSome = true) :
    (reservedAt as' va).isSome = true := by
  obtain ⟨i, -, free, rfl⟩ := regionAdd_spec done
  exact reservedAt_update _ ((as.regions i).contains_free free va) reserved

end

end Regions

structure Kept (as as' : AddrSpace) : Prop where
  regions : as'.regions = as.regions
  tstacks : as'.tstacks = as.tstacks
  brk : as'.brk = as.brk ∧ as'.brkBase = as.brkBase
  ticks : as.ticks ≤ as'.ticks
  mem : ∀ f, f < as.ticks → as'.mem f = as.mem f

section Map

variable {heap : Heap} {as as' as'' : AddrSpace} {va : Nat} {perm : Perm}

theorem Kept.refl (as : AddrSpace) : Kept as as :=
  ⟨rfl, rfl, ⟨rfl, rfl⟩, le_rfl, fun _ _ => rfl⟩

theorem Kept.trans (first : Kept as as') (second : Kept as' as'') : Kept as as'' where
  regions := second.regions.trans first.regions
  tstacks := second.tstacks.trans first.tstacks
  brk := ⟨second.brk.1.trans first.brk.1, second.brk.2.trans first.brk.2⟩
  ticks := first.ticks.trans second.ticks
  mem := fun f old =>
    (second.mem f (lt_of_lt_of_le old first.ticks)).trans (first.mem f old)

theorem Kept.reservedAt (kept : Kept as as') (va : Nat) : reservedAt as' va = reservedAt as va := by
  simp only [Mm.reservedAt, kept.regions, kept.tstacks]

theorem setPte_kept (va : Nat) (pte : Pte) : Kept as (setPte as va pte) := by
  simp only [setPte]
  split <;> exact ⟨rfl, rfl, ⟨rfl, rfl⟩, le_rfl, fun _ _ => rfl⟩

def AllGiven (heap : Heap) (as as' : AddrSpace) : Prop :=
  ∀ j, as.ticks ≤ j → j < as'.ticks → heap j = true

def SomeRefused (heap : Heap) (as as' : AddrSpace) : Prop :=
  ∃ j, as.ticks ≤ j ∧ j < as'.ticks ∧ heap j = false

theorem AllGiven.refl (heap : Heap) (as : AddrSpace) : AllGiven heap as as :=
  fun _ low high => absurd high (Nat.not_lt.mpr low)

theorem AllGiven.trans (first : AllGiven heap as as') (second : AllGiven heap as' as'') :
    AllGiven heap as as'' := by
  intro j from_start to_end
  rcases Nat.lt_or_ge j as'.ticks with before | after
  · exact first j from_start before
  · exact second j after to_end

theorem AllGiven.not_refused (given : AllGiven heap as as') : ¬ SomeRefused heap as as' := by
  rintro ⟨j, from_start, to_end, refused⟩
  rw [given j from_start to_end] at refused
  cases refused

theorem SomeRefused.after (kept : Kept as as') (refused : SomeRefused heap as' as'') :
    SomeRefused heap as as'' := by
  obtain ⟨j, low, high, no⟩ := refused
  exact ⟨j, kept.ticks.trans low, high, no⟩

theorem frameAlloc_some {f : Nat} (done : frameAlloc heap as = (some f, as')) :
    f = as.ticks ∧ as'.ticks = as.ticks + 1 ∧ as'.root = as.root ∧ Kept as as' ∧
      AllGiven heap as as' ∧ ∀ o, as'.mem f o = 0 := by
  simp only [frameAlloc] at done
  split at done
  · rename_i given
    cases done
    refine ⟨rfl, rfl, rfl, ⟨rfl, rfl, ⟨rfl, rfl⟩, Nat.le_succ _, ?_⟩, ?_, ?_⟩
    · intro f old
      exact update_of_ne (Nat.ne_of_lt old) _ _
    · intro j from_start to_end
      have here : j = as.ticks := Nat.le_antisymm (Nat.lt_succ_iff.mp to_end) from_start
      rw [here, given]
    · intro o
      simp
  · cases done

theorem frameAlloc_none (done : frameAlloc heap as = (none, as')) :
    as'.root = as.root ∧ Kept as as' ∧ SomeRefused heap as as' := by
  simp only [frameAlloc] at done
  split at done
  · cases done
  · rename_i refused
    cases done
    refine ⟨rfl, ⟨rfl, rfl, ⟨rfl, rfl⟩, Nat.le_succ _, fun _ _ => rfl⟩, ?_⟩
    exact ⟨as.ticks, le_rfl, Nat.lt_succ_self _, by simpa using refused⟩

theorem leafCreate_true (done : leafCreate heap as va = (true, as')) :
    (as'.root (l1Index va)).isSome = true ∧ (∀ vb, lookup as' vb = lookup as vb) ∧ Kept as as' ∧
      AllGiven heap as as' := by
  revert done
  fun_cases leafCreate heap as va with
  | case1 present =>
    rintro ⟨⟩
    exact ⟨present, fun _ => rfl, Kept.refl _, AllGiven.refl _ _⟩
  | case2 absent f as₁ alloc =>
    rintro ⟨⟩
    obtain ⟨-, -, root, kept, given, -⟩ := frameAlloc_some alloc
    refine ⟨by simp, fun vb => ?_, ⟨kept.regions, kept.tstacks, kept.brk, kept.ticks, kept.mem⟩,
      given⟩
    simp only [lookup, root]
    by_cases same : l1Index vb = l1Index va
    · rw [same]
      simp [Option.not_isSome_iff_eq_none.mp absent]
    · simp [same]
  | case3 => exact nofun

theorem leafCreate_false (done : leafCreate heap as va = (false, as')) :
    (∀ vb, lookup as' vb = lookup as vb) ∧ Kept as as' ∧ SomeRefused heap as as' := by
  revert done
  fun_cases leafCreate heap as va with
  | case1 | case2 => exact nofun
  | case3 absent as₁ alloc =>
    rintro ⟨⟩
    obtain ⟨root, kept, refused⟩ := frameAlloc_none alloc
    exact ⟨fun vb => by simp [lookup, root], kept, refused⟩

theorem Wf.of_lookup (wf : Wf as) (same : ∀ vb, lookup as' vb = lookup as vb)
    (ticks : as.ticks ≤ as'.ticks) : Wf as' where
  old := fun vb pte found => lt_of_lt_of_le (wf.old vb pte (same vb ▸ found)) ticks
  inj := fun vb vc p q found_p found_q =>
    wf.inj vb vc p q (same vb ▸ found_p) (same vc ▸ found_q)

/-- What `mapNew` gives at the page and leaves elsewhere. -/
structure MapsAt (as as' : AddrSpace) (va : Nat) (perm : Perm) (f : Nat) : Prop where
  other : ∀ vb, page vb ≠ page va → lookup as' vb = lookup as vb
  again : ∀ pte, lookup as va = some pte →
    f = pte.frame ∧ lookup as' va = some ⟨f, pte.perm.union perm, true⟩
  fresh : lookup as va = none →
    as.ticks ≤ f ∧ (∀ o, as'.mem f o = 0) ∧ lookup as' va = some ⟨f, perm, true⟩

theorem Wf.setPte (wf : Wf as) {pte : Pte} (table : (as.root (l1Index va)).isSome = true)
    (old : pte.frame < as.ticks)
    (unshared : ∀ vb q, lookup as vb = some q → q.frame = pte.frame → page vb = page va) :
    Wf (setPte as va pte) where
  old := by
    intro vb q found
    rw [lookup_setPte _ table] at found
    rw [setPte_ticks]
    split at found
    · cases found
      exact old
    · exact wf.old vb q found
  inj := by
    intro vb vc p q found_p found_q frames
    rw [lookup_setPte _ table] at found_p found_q
    split at found_p <;> split at found_q
    · rename_i first second
      exact first.trans second.symm
    · rename_i first second
      cases found_p
      exact first.trans (unshared vc q found_q frames.symm).symm
    · rename_i first second
      cases found_q
      exact (unshared vb p found_p frames).trans second.symm
    · exact wf.inj vb vc p q found_p found_q frames

theorem AllGiven.setPte (given : AllGiven heap as as') (pte : Pte) :
    AllGiven heap as (setPte as' va pte) := by
  intro j low high
  rw [setPte_ticks] at high
  exact given j low high

theorem mapNew_some {f : Nat} (wf : Wf as) (done : mapNew heap as va perm = (some f, as')) :
    Wf as' ∧ Kept as as' ∧ AllGiven heap as as' ∧ MapsAt as as' va perm f := by
  revert done
  fun_cases mapNew heap as va perm with
  | case1 | case4 => exact nofun
  | case2 as₁ created pte found =>
    rintro ⟨⟩
    obtain ⟨table, same, kept, given⟩ := leafCreate_true created
    have wf₁ := wf.of_lookup same kept.ticks
    refine ⟨wf₁.setPte table (wf₁.old va pte found) fun vb q found_q frames =>
        wf₁.inj vb va q pte found_q found frames,
      kept.trans (setPte_kept va _), given.setPte _, ⟨?_, ?_, ?_⟩⟩
    · intro vb different
      rw [lookup_setPte _ table, if_neg different, same]
    · intro old found_old
      rw [← same, found] at found_old
      cases found_old
      exact ⟨rfl, by rw [lookup_setPte _ table, if_pos rfl]⟩
    · intro absent
      rw [← same, found] at absent
      cases absent
  | case3 as₁ created unmapped f as₂ alloc =>
    rintro ⟨⟩
    obtain ⟨table, same, kept, given⟩ := leafCreate_true created
    have wf₁ := wf.of_lookup same kept.ticks
    obtain ⟨rfl, ticks, root, kept₂, given₂, zero⟩ := frameAlloc_some alloc
    have same₂ : ∀ vb, lookup as₂ vb = lookup as₁ vb := fun vb => by simp [lookup, root]
    have table₂ : (as₂.root (l1Index va)).isSome = true := by rw [root]; exact table
    -- the new frame is past every one in use
    have unshared : ∀ vb q, lookup as₂ vb = some q → q.frame = as₁.ticks → page vb = page va :=
      fun vb q found frames => absurd frames (Nat.ne_of_lt (wf₁.old vb q (same₂ vb ▸ found)))
    refine ⟨(wf₁.of_lookup same₂ kept₂.ticks).setPte table₂ (by simp [ticks]) unshared,
      (kept.trans kept₂).trans (setPte_kept va _), (given.trans given₂).setPte _, ⟨?_, ?_, ?_⟩⟩
    · intro vb different
      rw [lookup_setPte _ table₂, if_neg different, same₂, same]
    · intro old found_old
      rw [← same, unmapped] at found_old
      cases found_old
    · intro _
      refine ⟨kept.ticks, fun o => ?_, by rw [lookup_setPte _ table₂, if_pos rfl]⟩
      rw [setPte_mem]
      exact zero o

theorem mapNew_none (wf : Wf as) (done : mapNew heap as va perm = (none, as')) :
    Wf as' ∧ Kept as as' ∧ SomeRefused heap as as' ∧ ∀ vb, lookup as' vb = lookup as vb := by
  revert done
  fun_cases mapNew heap as va perm with
  | case2 | case3 => exact nofun
  | case1 as₁ created =>
    rintro ⟨⟩
    obtain ⟨same, kept, refused⟩ := leafCreate_false created
    exact ⟨wf.of_lookup same kept.ticks, kept, refused, same⟩
  | case4 as₁ created unmapped as₂ alloc =>
    rintro ⟨⟩
    obtain ⟨-, same, kept, -⟩ := leafCreate_true created
    obtain ⟨root, kept₂, j, low, high, refused⟩ := frameAlloc_none alloc
    have same₂ : ∀ vb, lookup as' vb = lookup as vb := fun vb => by
      rw [← same]
      simp [lookup, root]
    have kept' := kept.trans kept₂
    exact ⟨wf.of_lookup same₂ kept'.ticks, kept', ⟨j, kept.ticks.trans low, high, refused⟩, same₂⟩

end Map

section Pin

variable {heap : Heap} {as as' : AddrSpace} {va : Nat} {need : Need}

theorem view_of_lookup (wf : Wf as) (kept : Kept as as') {vb : Nat}
    (same : lookup as' vb = lookup as vb) : view as' vb = view as vb := by
  simp only [view, same]
  cases found : lookup as vb with
  | none => simp only [kept.reservedAt]
  | some pte => simp only [kept.mem pte.frame (wf.old vb pte found)]

theorem view_mapNew {perm : Perm} {f vb : Nat} (wf : Wf as) (kept : Kept as as')
    (maps : MapsAt as as' va perm f) (unmapped : lookup as va = none)
    (reserved : reservedAt as va = some perm) : view as' vb = view as vb := by
  by_cases here : page vb = page va
  · obtain ⟨-, zero, found⟩ := maps.fresh unmapped
    have mapped : lookup as' vb = some ⟨f, perm, true⟩ := (lookup_congr here).trans found
    have before : lookup as vb = none := (lookup_congr here).trans unmapped
    have promised : reservedAt as vb = some perm := (reservedAt_congr here).trans reserved
    simp [view, mapped, before, promised, zero]
  · exact view_of_lookup wf kept (maps.other vb here)

theorem accessible_of_view (same : view as' va = view as va) :
    accessible as' need va = accessible as need va := by
  simp only [accessible, same]

/-- A pinned page is the user's, with the permission asked for, and pinning it
changes nothing anyone can see. -/
structure Pinned (as as' : AddrSpace) (va : Nat) (need : Need) (loc : Loc) : Prop where
  wf : Wf as'
  kept : Kept as as'
  same : ∀ vb, view as' vb = view as vb
  stays : ∀ vb pte, lookup as vb = some pte → lookup as' vb = some pte
  entry : ∃ pte, lookup as' va = some pte ∧ pte.user = true ∧ pte.perm.has need = true ∧
    loc = (pte.frame, offset va)

theorem mapped_pinned {pte : Pte} (wf : Wf as) (found : lookup as va = some pte)
    (user : pte.user = true) (permitted : pte.perm.has need = true) :
    Pinned as as va need (pte.frame, offset va) :=
  ⟨wf, Kept.refl as, fun _ => rfl, fun _ _ h => h, pte, found, user, permitted, rfl⟩

theorem pageDown_page (va : Nat) : page (pageDown va) = page va := by
  simp [page, pageDown]

theorem pageOf_some {loc : Loc} (wf : Wf as) (done : pageOf heap as va need = (some loc, as')) :
    Pinned as as' va need loc ∧ AllGiven heap as as' := by
  revert done
  fun_cases pageOf heap as va need with
  | case1 | case3 | case5 => exact nofun
  | case2 unmapped perm allowed f as₁ mapped =>
    rintro ⟨⟩
    rw [not_or, Bool.not_eq_false] at allowed
    have reserved : reservedAt as va = some perm := by
      cases there : reservedAt as va <;> simp_all [perm]
    obtain ⟨wf', kept, given, maps⟩ := mapNew_some wf mapped
    have down : lookup as (pageDown va) = none :=
      (lookup_congr (pageDown_page va)).trans unmapped
    have found : lookup as' va = some ⟨f, perm, true⟩ :=
      (lookup_congr (pageDown_page va)).symm.trans (maps.fresh down).2.2
    refine ⟨⟨wf', kept, fun vb => ?_, fun vb pte before => ?_, ?_⟩, given⟩
    · apply view_mapNew wf kept maps down
      rw [reservedAt_congr (pageDown_page va), reserved]
    · by_cases here : page vb = page (pageDown va)
      · rw [lookup_congr here, down] at before
        cases before
      · rw [maps.other vb here, before]
    · exact ⟨⟨f, perm, true⟩, found, rfl, allowed.2, rfl⟩
  | case4 pte found permitted =>
    rintro ⟨⟩
    rw [Bool.and_eq_true] at permitted
    exact ⟨mapped_pinned wf found permitted.1 permitted.2, AllGiven.refl _ _⟩

theorem pageOf_none (wf : Wf as) (done : pageOf heap as va need = (none, as')) :
    Wf as' ∧ Kept as as' ∧ (∀ vb, view as' vb = view as vb) ∧
      (∀ vb pte, lookup as vb = some pte → lookup as' vb = some pte) ∧
      (accessible as need va = false ∨ SomeRefused heap as as') := by
  revert done
  fun_cases pageOf heap as va need with
  | case2 | case4 => exact nofun
  | case1 unmapped perm refused =>
    rintro ⟨⟩
    refine ⟨wf, Kept.refl as, fun _ => rfl, fun _ _ h => h, Or.inl ?_⟩
    simp only [accessible, view, unmapped]
    cases reserved : reservedAt as va with
    | none => rfl
    | some given =>
      simp only [perm, reserved, Option.getD_some] at refused
      rcases refused with empty | lacking
      · simp only [empty, Option.map_some, Option.any_some]
        cases need <;> rfl
      · simpa using lacking
  | case3 unmapped perm allowed as₁ mapped =>
    rintro ⟨⟩
    obtain ⟨wf', kept, refused, same⟩ := mapNew_none wf mapped
    exact ⟨wf', kept, fun vb => view_of_lookup wf kept (same vb), fun vb pte found =>
      (same vb).trans found, Or.inr refused⟩
  | case5 pte found refused =>
    rintro ⟨⟩
    refine ⟨wf, Kept.refl as, fun _ => rfl, fun _ _ h => h, Or.inl ?_⟩
    simp only [accessible, view, found]
    cases user : pte.user with
    | false => rfl
    | true => simpa [user] using refused

theorem userPin_eq_pageOf (heap : Heap) (as : AddrSpace) (va : Nat) (need : Need) :
    userPin heap as va need = pageOf heap as va need := by
  simp only [userPin, pageOf]
  cases lookup as va with
  | none => rfl
  | some pte => by_cases permitted : (pte.user && pte.perm.has need) = true <;> simp [permitted]

end Pin

end Espix.Umode.Mm
