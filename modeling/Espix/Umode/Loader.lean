import Espix.Umode.Copy

/-! `load_segments` of `components/espix_proc/umode.c`.

Every header field is the file's, and every sum and difference of the checks wraps
at 32 bits. The image is a window into the kernel's memory: an offset beyond its
size reads what happens to lie there. -/

namespace Espix.Umode.Loader

open Lib.Page Mm Copy

/-- The bytes from the start of the image on; those below `size` are the file's. -/
structure Image where
  size : Nat
  byte : Nat → UInt8

def Image.u16 (img : Image) (o : Nat) : Nat :=
  (img.byte (wrap o)).toNat + 256 * (img.byte (wrap (o + 1))).toNat

def Image.u32 (img : Image) (o : Nat) : Nat := img.u16 o + 65536 * img.u16 (o + 2)

def Image.bytes (img : Image) (o n : Nat) : List UInt8 :=
  (List.range n).map fun i => img.byte (wrap (o + i))

def ehdrSize : Nat := 52
def phdrSize : Nat := 32

/-- `espix_um_is_exec`, which every caller asks first. -/
def isExec (img : Image) : Bool :=
  ehdrSize ≤ img.size && img.bytes 0 4 == [0x7f, 0x45, 0x4c, 0x46] && img.byte 4 == 1 &&
    img.u16 16 == 2 && img.u16 18 == 243

def Image.entry (img : Image) : Nat := img.u32 24
def Image.phoff (img : Image) : Nat := img.u32 28
def Image.phentsize (img : Image) : Nat := img.u16 42
def Image.phnum (img : Image) : Nat := img.u16 44

/-- `um_phdr_t`, without the two fields nothing reads. -/
structure Phdr where
  type : Nat
  offset : Nat
  vaddr : Nat
  filesz : Nat
  memsz : Nat
  flags : Nat
  deriving DecidableEq, Repr

def Image.phdrAt (img : Image) (i : Nat) : Nat := wrap (img.phoff + phdrSize * i)

def Image.phdr (img : Image) (i : Nat) : Phdr :=
  let o := img.phdrAt i
  { type := img.u32 o, offset := img.u32 (o + 4), vaddr := img.u32 (o + 8),
    filesz := img.u32 (o + 16), memsz := img.u32 (o + 20), flags := img.u32 (o + 24) }

def Phdr.loadable (ph : Phdr) : Bool := ph.type == 1 && ph.memsz != 0

def Phdr.perm (ph : Phdr) : Perm := ⟨ph.flags.testBit 2, ph.flags.testBit 1, ph.flags.testBit 0⟩

def Phdr.fileEnd (ph : Phdr) : Nat := pageUp (wrap (ph.vaddr + ph.filesz))

def Phdr.memEnd (ph : Phdr) : Nat := wrap (ph.vaddr + ph.memsz)

inductive LoadError
  | headers
  | outside
  | segments
  | memory
  | entry
  deriving DecidableEq, Repr

def LoadError.text : LoadError → String
  | .headers => "bad program headers"
  | .outside => "a segment outside the user range"
  | .segments => "too many segments"
  | .memory => "out of memory for the image"
  | .entry => "an entry point outside the image"

/-- The address space so far, what has been read of the image as pairs of an offset
and a length, and the end of the last segment. -/
structure LoadState where
  as : AddrSpace
  reads : List (Nat × Nat)
  imageEnd : Nat

def pageLoop (heap : Heap) (img : Image) (ph : Phdr) (stop : Nat) :
    Nat → Nat → LoadState → Bool × LoadState
  | 0, _, st => (true, st)
  | fuel + 1, va, st =>
    if va < stop then
      match mapNew heap st.as va ph.perm with
      | (none, as) => (false, { st with as })
      | (some frame, as) =>
        let lo := max va ph.vaddr
        let hi := min (wrap (va + 4096)) (wrap (ph.vaddr + ph.filesz))
        let src := wrap (ph.offset + (lo - ph.vaddr))
        let st' : LoadState :=
          if lo < hi then
            { st with
              as := writeBytes as (frame, lo - va) (img.bytes src (hi - lo))
              reads := st.reads ++ [(src, hi - lo)] }
          else { st with as }
        pageLoop heap img ph stop fuel (wrap (va + 4096)) st'
    else (true, st)

def Phdr.rejected (ph : Phdr) (size : Nat) : Bool :=
  ph.vaddr < uvaMin || wrap (uvaMax + 4294967296 - ph.vaddr) < ph.memsz ||
    ph.memsz < ph.filesz || size < wrap (ph.offset + ph.filesz)

def loadOne (heap : Heap) (img : Image) (st : LoadState) (ph : Phdr) :
    Option LoadError × LoadState :=
  if !ph.loadable then (none, st)
  else if ph.rejected img.size then (some .outside, st)
  else
    let reserve :=
      if ph.fileEnd < ph.memEnd then regionAdd st.as ph.fileEnd ph.memEnd ph.perm else some st.as
    match reserve with
    | none => (some .segments, st)
    | some as =>
      let st := { st with as, imageEnd := max st.imageEnd ph.memEnd }
      let stop := min ph.memEnd ph.fileEnd
      match pageLoop heap img ph stop ((stop - pageDown ph.vaddr) / 4096 + 1)
        (pageDown ph.vaddr) st with
      | (true, st) => (none, st)
      | (false, st) => (some .memory, st)

def loadAll (heap : Heap) (img : Image) : List Nat → LoadState → Option LoadError × LoadState
  | [], st => (none, st)
  | i :: rest, st =>
    let st := { st with reads := st.reads ++ [(img.phdrAt i, phdrSize)] }
    match loadOne heap img st (img.phdr i) with
    | (none, st) => loadAll heap img rest st
    | (some error, st) => (some error, st)

def loadSegments (heap : Heap) (img : Image) (as : AddrSpace) : Option LoadError × LoadState :=
  let st : LoadState := { as, reads := [(0, ehdrSize)], imageEnd := 0 }
  if img.phentsize ≠ phdrSize ∨ img.size < wrap (img.phoff + img.phnum * phdrSize) then
    (some .headers, st)
  else
    match loadAll heap img (List.range img.phnum) st with
    | (some error, st) => (some error, st)
    | (none, st) =>
      if img.entry < uvaMin ∨ uvaMax ≤ img.entry then (some .entry, st)
      else (none, { st with as := brkInit st.as st.imageEnd })

/-! What a segment puts where. -/

def place (img : Image) (ph : Phdr) (g : Nat → UInt8) (vb : Nat) : UInt8 :=
  if ph.vaddr ≤ vb ∧ vb < ph.vaddr + ph.filesz then img.byte (ph.offset + (vb - ph.vaddr)) else g vb

/-- The numbers of a header that passed its checks without a sum that wrapped. -/
structure Fits (img : Image) (ph : Phdr) : Prop where
  low : uvaMin ≤ ph.vaddr
  high : ph.vaddr + ph.memsz ≤ uvaMax
  file : ph.filesz ≤ ph.memsz
  source : ph.offset + ph.filesz ≤ img.size
  size : img.size < 4294967296

structure LoadInv (img : Image) (st : LoadState) (g : Nat → UInt8) : Prop where
  wf : Wf st.as
  pages : ∀ va pte, lookup st.as va = some pte → pte.user = true ∧ uvaMin ≤ va ∧ va < uvaMax
  reads : ∀ r ∈ st.reads, r.1 + r.2 ≤ img.size
  heap_free : (st.as.regions 0).stop = 0
  bytes : ∀ vb, vb < 4294967296 → viewByte st.as vb = g vb

variable {pte : Pte} {vb : Nat}

section Bytes

variable {heap : Heap} {as as' : AddrSpace} {va : Nat} {perm : Perm} {f : Nat}

theorem viewByte_unmapped (unmapped : lookup as va = none) : viewByte as va = 0 := by
  simp only [viewByte, view, unmapped]
  cases reservedAt as va <;> rfl

theorem viewByte_mapped (found : lookup as va = some pte) (user : pte.user = true) :
    viewByte as va = as.mem pte.frame (offset va) := by
  simp [viewByte, view, found, user]

theorem viewByte_mapNew (wf : Wf as) (users : ∀ va pte, lookup as va = some pte → pte.user = true)
    (done : mapNew heap as va perm = (some f, as')) (vb : Nat) : viewByte as' vb =
    viewByte as vb := by
  obtain ⟨-, kept, -, maps⟩ := mapNew_some wf done
  by_cases here : page vb = page va
  · cases before : lookup as va with
    | none =>
      obtain ⟨-, zero, found⟩ := maps.fresh before
      rw [viewByte_unmapped ((lookup_congr here).trans before),
        viewByte_mapped ((lookup_congr here).trans found) rfl]
      exact zero _
    | some pte =>
      obtain ⟨rfl, found⟩ := maps.again pte before
      rw [viewByte_mapped ((lookup_congr here).trans before) (users va pte before),
        viewByte_mapped ((lookup_congr here).trans found) rfl]
      exact congrFun (kept.mem pte.frame (wf.old va pte before)) _
  · simp only [viewByte, view_of_lookup wf kept (maps.other vb here)]

theorem viewByte_writeBytes {bytes : List UInt8} (wf : Wf as) (low : va < 4294967296)
    (found : lookup as va = some pte) (user : pte.user = true)
    (fits : offset va + bytes.length ≤ 4096) (bound : vb < 4294967296) :
    viewByte (writeBytes as (pte.frame, offset va) bytes) vb =
      if index va vb < bytes.length then bytes.getD (index va vb) 0 else viewByte as vb := by
  simp only [viewByte, view_writeBytes wf low found user fits bound]
  split
  · rename_i inside
    have here := ((index_lt_chunk low bound fits).mp inside).1
    simp [view, (lookup_congr here).trans found, user]
  · rfl

end Bytes

theorem LoadInv.users {img : Image} {st : LoadState} {g : Nat → UInt8} (inv : LoadInv img st g) :
    ∀ va pte, lookup st.as va = some pte → pte.user = true :=
  fun va pte found => (inv.pages va pte found).1

section Pages

variable {heap : Heap} {img : Image} {ph : Phdr} {st : LoadState} {g : Nat → UInt8} {va : Nat}

theorem LoadInv.mapPage {as : AddrSpace} {f : Nat} (inv : LoadInv img st g)
    (aligned : va % 4096 = 0) (low : uvaMin ≤ va) (high : va < uvaMax)
    (done : mapNew heap st.as va ph.perm = (some f, as)) : LoadInv img { st with as } g := by
  obtain ⟨wf, kept, -, maps⟩ := mapNew_some inv.wf done
  refine ⟨wf, ?_, inv.reads, ?_, ?_⟩
  · intro vb pte found
    by_cases here : page vb = page va
    · have inside : uvaMin ≤ vb ∧ vb < uvaMax := by
        simp only [page, uvaMin, uvaMax] at *
        omega
      have user : pte.user = true := by
        cases before : lookup st.as va with
        | none =>
          have now := (maps.fresh before).2.2
          rw [← lookup_congr here, found] at now
          cases now
          rfl
        | some old =>
          have now := (maps.again old before).2
          rw [← lookup_congr here, found] at now
          cases now
          rfl
      exact ⟨user, inside⟩
    · rw [maps.other vb here] at found
      exact inv.pages vb pte found
  · rw [kept.regions]
    exact inv.heap_free
  · intro vb bound
    rw [viewByte_mapNew inv.wf inv.users done]
    exact inv.bytes vb bound

theorem LoadInv.fillPage {lo hi : Nat} (inv : LoadInv img st g) (fits : Fits img ph)
    (aligned : va % 4096 = 0)
    (high : va < uvaMax) (found : lookup st.as va = some pte) (from_lo : lo = max va ph.vaddr)
    (to_hi : hi = min (va + 4096) (ph.vaddr + ph.filesz)) (some_bytes : lo < hi) :
    LoadInv img
      { st with
        as :=
  writeBytes st.as (pte.frame, lo - va) (img.bytes (wrap (ph.offset + (lo - ph.vaddr))) (hi - lo))
        reads := st.reads ++ [(wrap (ph.offset + (lo - ph.vaddr)), hi - lo)] }
      fun vb => if lo ≤ vb ∧ vb < hi then img.byte (ph.offset + (vb - ph.vaddr)) else g vb := by
  obtain ⟨seg_low, seg_high, file, source, size⟩ := fits
  have lo_range : va ≤ lo ∧ lo < va + 4096 ∧ ph.vaddr ≤ lo ∧ hi ≤ va + 4096 ∧
      hi ≤ ph.vaddr + ph.filesz := by omega
  have small : lo < 4294967296 := by
    simp only [uvaMax] at high
    omega
  have src : wrap (ph.offset + (lo - ph.vaddr)) = ph.offset + (lo - ph.vaddr) := by
    simp only [wrap]
    omega
  have place_in : lo - va = offset lo := by
    simp only [offset]
    omega
  have same_page : page lo = page va := by
    simp only [page]
    omega
  have found_lo : lookup st.as lo = some pte := (lookup_congr same_page).trans found
  have length : (img.bytes (ph.offset + (lo - ph.vaddr)) (hi - lo)).length = hi - lo := by
    simp [Image.bytes]
  rw [src, place_in]
  refine ⟨writeBytes_wf inv.wf, inv.pages, ?_, inv.heap_free, ?_⟩
  · intro r member
    rcases List.mem_append.mp member with old | new
    · exact inv.reads r old
    · rw [List.mem_singleton.mp new]
      simp only
      omega
  · intro vb bound
    have fits_page : offset lo + (hi - lo) ≤ 4096 := by
      simp only [offset]
      omega
    rw [viewByte_writeBytes inv.wf small found_lo (inv.users va pte found)
      (by rw [length]; exact fits_page) bound, length]
    have inside : index lo vb < hi - lo ↔ lo ≤ vb ∧ vb < hi := by
      simp only [index, wrap, uvaMax] at *
      omega
    simp only [inside]
    split
    · rename_i range
      have here : index lo vb = vb - lo := by
        simp only [index, wrap]
        omega
      have short : vb - lo < hi - lo := by omega
      have source_at : wrap (ph.offset + (lo - ph.vaddr) + (vb - lo)) =
          ph.offset + (vb - ph.vaddr) := by
        simp only [wrap]
        omega
      simp [here, Image.bytes, List.getD_eq_getElem?_getD, short, source_at]
    · exact inv.bytes vb bound

/-- What the page loop adds to the view from `va` on. -/
def placeFrom (img : Image) (ph : Phdr) (va : Nat) (g : Nat → UInt8) (vb : Nat) : UInt8 :=
  if max va ph.vaddr ≤ vb ∧ vb < ph.vaddr + ph.filesz then img.byte (ph.offset + (vb - ph.vaddr))
  else g vb

theorem placeFrom_split (below : ph.vaddr < va + 4096) :
    placeFrom img ph (va + 4096)
      (fun vb => if max va ph.vaddr ≤ vb ∧ vb < min (va + 4096) (ph.vaddr + ph.filesz) then
        img.byte (ph.offset + (vb - ph.vaddr)) else g vb) = placeFrom img ph va g := by
  funext vb
  simp only [placeFrom]
  by_cases later : max (va + 4096) ph.vaddr ≤ vb ∧ vb < ph.vaddr + ph.filesz
  · have all : max va ph.vaddr ≤ vb ∧ vb < ph.vaddr + ph.filesz := by omega
    rw [if_pos later, if_pos all]
  · rw [if_neg later]
    by_cases all : max va ph.vaddr ≤ vb ∧ vb < ph.vaddr + ph.filesz
    · have now : max va ph.vaddr ≤ vb ∧ vb < min (va + 4096) (ph.vaddr + ph.filesz) := by omega
      rw [if_pos all, if_pos now]
    · have now : ¬ (max va ph.vaddr ≤ vb ∧ vb < min (va + 4096) (ph.vaddr + ph.filesz)) := by omega
      rw [if_neg all, if_neg now]

theorem placeFrom_past {stop : Nat} (covers : ph.vaddr + ph.filesz ≤ stop) (past : stop ≤ va) :
    placeFrom img ph va g = g := by
  funext vb
  have empty : ¬ (max va ph.vaddr ≤ vb ∧ vb < ph.vaddr + ph.filesz) := by omega
  simp only [placeFrom, empty, if_false]

theorem LoadInv.stepPage {as : AddrSpace} {f lo hi : Nat} (inv : LoadInv img st g)
    (fits : Fits img ph)
    (aligned : va % 4096 = 0) (low : uvaMin ≤ va) (high : va < uvaMax)
    (done : mapNew heap st.as va ph.perm = (some f, as)) (from_lo : lo = max va ph.vaddr)
    (to_hi : hi = min (wrap (va + 4096)) (wrap (ph.vaddr + ph.filesz))) {st' : LoadState}
    (filled : st' = if lo < hi then
        { st with
          as :=
  writeBytes as (f, lo - va) (img.bytes (wrap (ph.offset + (lo - ph.vaddr))) (hi - lo))
          reads := st.reads ++ [(wrap (ph.offset + (lo - ph.vaddr)), hi - lo)] }
      else { st with as }) :
    LoadInv img st' (fun vb =>
        if max va ph.vaddr ≤ vb ∧ vb < min (va + 4096) (ph.vaddr + ph.filesz) then
          img.byte (ph.offset + (vb - ph.vaddr)) else g vb) ∧
      st'.as.regions = st.as.regions ∧ st'.as.tstacks = st.as.tstacks ∧
      (lookup st'.as va).isSome = true ∧
      ∀ vb, (lookup st.as vb).isSome = true → (lookup st'.as vb).isSome = true := by
  have mapped := inv.mapPage aligned low high done
  obtain ⟨-, kept, -, maps⟩ := mapNew_some inv.wf done
  have entry : ∃ pte, lookup as va = some pte ∧ pte.frame = f := by
    cases before : lookup st.as va with
    | none => exact ⟨_, (maps.fresh before).2.2, rfl⟩
    | some old => exact ⟨_, (maps.again old before).2, rfl⟩
  obtain ⟨pte, found, rfl⟩ := entry
  have stays : ∀ vb, (lookup st.as vb).isSome = true → (lookup as vb).isSome = true := by
    intro vb present
    by_cases here : page vb = page va
    · rw [lookup_congr here, found]
      rfl
    · rw [maps.other vb here]
      exact present
  have next : wrap (va + 4096) = va + 4096 := by
    simp only [wrap, uvaMax] at *
    omega
  have file : wrap (ph.vaddr + ph.filesz) = ph.vaddr + ph.filesz := by
    obtain ⟨-, seg_high, seg_file, -, -⟩ := fits
    simp only [wrap, uvaMax] at *
    omega
  rw [next, file] at to_hi
  have present : (lookup as va).isSome = true := Option.isSome_iff_exists.mpr ⟨pte, found⟩
  rw [← from_lo, ← to_hi]
  subst filled
  split
  · rename_i some_bytes
    exact ⟨mapped.fillPage fits aligned high found from_lo to_hi some_bytes, kept.regions,
      kept.tstacks, present, stays⟩
  · rename_i no_bytes
    refine ⟨?_, kept.regions, kept.tstacks, present, stays⟩
    have empty : ∀ vb, ¬ (lo ≤ vb ∧ vb < hi) := by
      intro vb
      omega
    simpa only [empty, if_false] using mapped

theorem pageLoop_spec {stop fuel : Nat} {ok : Bool} {st' : LoadState} (inv : LoadInv img st g)
    (fits : Fits img ph) (aligned : va % 4096 = 0) (low : uvaMin ≤ va)
    (below : ph.vaddr < va + 4096)
    (high : stop ≤ uvaMax) (covers : ph.vaddr + ph.filesz ≤ stop) (enough : stop ≤ va + 4096 * fuel)
    (done : pageLoop heap img ph stop fuel va st = (ok, st')) :
    ∃ g', LoadInv img st' g' ∧ st'.as.regions = st.as.regions ∧ st'.as.tstacks = st.as.tstacks ∧
      (∀ vb, (lookup st.as vb).isSome = true → (lookup st'.as vb).isSome = true) ∧
      (ok = true → g' = placeFrom img ph va g ∧
        ∀ vb, va ≤ vb → vb < stop → (lookup st'.as vb).isSome = true) := by
  fun_induction pageLoop heap img ph stop fuel va st generalizing g with
  | case1 | case4 =>
    cases done
    refine ⟨g, inv, rfl, rfl, fun _ h => h, fun _ => ⟨(placeFrom_past covers (by omega)).symm, ?_⟩⟩
    intro vb from_va to_stop
    omega
  | case2 fuel va st more as refused =>
    cases done
    obtain ⟨wf, kept, -, same⟩ := mapNew_none inv.wf refused
    refine ⟨g, ⟨wf, ?_, inv.reads, ?_, ?_⟩, kept.regions, kept.tstacks, ?_, by simp⟩
    · intro vb pte found
      exact inv.pages vb pte ((same vb) ▸ found)
    · rw [kept.regions]
      exact inv.heap_free
    · intro vb bound
      simp only [viewByte, view_of_lookup inv.wf kept (same vb)]
      exact inv.bytes vb bound
    · intro vb present
      rw [same vb]
      exact present
  | case3 fuel va st more f as mapped lo hi _ filled =>
    rename_i ih
    have page_high : va < uvaMax := lt_of_lt_of_le more high
    obtain ⟨inv₁, regions, tstacks, here, stays⟩ :=
      inv.stepPage fits aligned low page_high mapped rfl rfl (show filled = _ from rfl)
    have next : wrap (va + 4096) = va + 4096 := by
      simp only [wrap, uvaMax] at *
      omega
    obtain ⟨g', inv', regions', tstacks', stays', success⟩ :=
      ih inv₁ (by rw [next]; omega) (by rw [next]; omega) (by rw [next]; omega)
        (by rw [next]; omega) done
    refine ⟨g', inv', regions'.trans regions, tstacks'.trans tstacks, fun vb present =>
      stays' vb (stays vb present), ?_⟩
    intro fine
    obtain ⟨placed, present⟩ := success fine
    rw [next, placeFrom_split below] at placed
    refine ⟨placed, fun vb from_va to_stop => ?_⟩
    rcases Nat.lt_or_ge vb (va + 4096) with this_page | later
    · have same : page vb = page va := by
        simp only [page]
        omega
      apply stays'
      rw [lookup_congr same]
      exact here
    · exact present vb (by rw [next]; exact later) to_stop

end Pages

variable {headers : List Nat}

section Segments

variable {heap : Heap} {img : Image} {ph : Phdr} {st st' : LoadState} {g : Nat → UInt8}

def Present (as : AddrSpace) (vb : Nat) : Prop :=
  (lookup as vb).isSome = true ∨ (reservedAt as vb).isSome = true

theorem reservedAt_same {as as' : AddrSpace} (regions : as'.regions = as.regions)
    (tstacks : as'.tstacks = as.tstacks) (vb : Nat) : reservedAt as' vb = reservedAt as vb := by
  simp only [reservedAt, regions, tstacks]

theorem LoadInv.setRegions {as : AddrSpace} (inv : LoadInv img st g)
    (root : as.root = st.as.root) (mem : as.mem = st.as.mem) (ticks : as.ticks = st.as.ticks)
    (heap_free : (as.regions 0).stop = 0) (imageEnd : Nat) :
    LoadInv img { st with as, imageEnd } g := by
  have same : ∀ vb, lookup as vb = lookup st.as vb := fun vb => by simp only [lookup, root]
  refine ⟨inv.wf.of_lookup same (le_of_eq ticks.symm), ?_, inv.reads, heap_free, ?_⟩
  · intro vb pte found
    exact inv.pages vb pte (same vb ▸ found)
  · intro vb bound
    rw [← inv.bytes vb bound]
    cases found : lookup st.as vb with
    | none => rw [viewByte_unmapped found, viewByte_unmapped ((same vb).trans found)]
    | some pte =>
      have user := inv.users vb pte found
      rw [viewByte_mapped found user, viewByte_mapped ((same vb).trans found) user, mem]

/-- No sum over the fields of this header wraps, and it starts in the user range. -/
def Phdr.Sound (ph : Phdr) : Prop :=
  ph.vaddr ≤ uvaMax ∧ ph.offset + ph.filesz < 4294967296
  deriving Decidable

theorem fits_of_accepted (size : img.size < 4294967296) (sound : ph.Sound)
    (accepted : ph.rejected img.size = false) : Fits img ph := by
  obtain ⟨start, source⟩ := sound
  simp only [Phdr.rejected, Bool.or_eq_false_iff, decide_eq_false_iff_not, not_lt] at accepted
  obtain ⟨⟨⟨low, high⟩, file⟩, read⟩ := accepted
  have room : wrap (uvaMax + 4294967296 - ph.vaddr) = uvaMax - ph.vaddr := by
    simp only [wrap, uvaMin, uvaMax] at *
    omega
  have straight : wrap (ph.offset + ph.filesz) = ph.offset + ph.filesz := by
    simp only [wrap]
    omega
  rw [room] at high
  rw [straight] at read
  exact ⟨low, by omega, file, read, size⟩

theorem placeFrom_start : placeFrom img ph (pageDown ph.vaddr) g = place img ph g := by
  have down : max (pageDown ph.vaddr) ph.vaddr = ph.vaddr := by
    simp only [pageDown]
    omega
  funext vb
  simp only [placeFrom, place, down]

theorem Fits.ends (fits : Fits img ph) :
    ph.memEnd = ph.vaddr + ph.memsz ∧ ph.fileEnd = (ph.vaddr + ph.filesz + 4095) / 4096 * 4096 := by
  obtain ⟨-, high, file, -, -⟩ := fits
  constructor
  · simp only [Phdr.memEnd, wrap, uvaMax] at *
    omega
  · simp only [Phdr.fileEnd, pageUp, wrap, uvaMax] at *
    omega

theorem LoadInv.reserve {as : AddrSpace} (inv : LoadInv img st g) (fits : Fits img ph)
    (done : (if ph.fileEnd < ph.memEnd then regionAdd st.as ph.fileEnd ph.memEnd ph.perm
      else some st.as) = some as) (imageEnd : Nat) :
    LoadInv img { st with as, imageEnd } g ∧ (∀ vb, Present st.as vb → Present as vb) ∧
      ∀ vb, ph.fileEnd ≤ vb → vb < ph.memEnd → (reservedAt as vb).isSome = true := by
  obtain ⟨mem_end, file_end⟩ := fits.ends
  split at done
  · obtain ⟨i, not_heap, free, shape⟩ := regionAdd_spec done
    have same : as.root = st.as.root := by rw [shape]
    refine ⟨inv.setRegions same (by rw [shape]) (by rw [shape]) ?_ imageEnd, ?_, ?_⟩
    · rw [shape]
      simp only [Function.update_of_ne (Ne.symm not_heap)]
      exact inv.heap_free
    · rintro vb (mapped | reserved)
      · left
        simpa only [lookup, same] using mapped
      · exact Or.inr (regionAdd_keeps done reserved)
    · intro vb low high
      have seg_high := fits.high
      apply regionAdd_reserves done
      · simp only [pageDown]
        omega
      · simp only [pageUp, wrap, uvaMax] at *
        omega
  · rename_i no_pages
    cases done
    refine ⟨inv.setRegions rfl rfl rfl inv.heap_free imageEnd, fun _ h => h, ?_⟩
    intro vb low high
    omega

theorem loadOne_spec {error : Option LoadError} (inv : LoadInv img st g)
    (size : img.size < 4294967296)
    (sound : ph.loadable = true → ph.rejected img.size = false → ph.Sound)
    (done : loadOne heap img st ph = (error, st')) :
    ∃ g', LoadInv img st' g' ∧ (∀ vb, Present st.as vb → Present st'.as vb) ∧
      (error = none → if ph.loadable then
          Fits img ph ∧ g' = place img ph g ∧ ∀ k < ph.memsz, Present st'.as (ph.vaddr + k)
        else g' = g) := by
  simp only [loadOne] at done
  split at done
  · rename_i skipped
    cases done
    refine ⟨g, inv, fun _ h => h, fun _ => ?_⟩
    simp only [Bool.not_eq_true'] at skipped
    simp [skipped]
  rename_i loads
  simp only [Bool.not_eq_true', Bool.not_eq_false] at loads
  split at done
  · cases done
    exact ⟨g, inv, fun _ h => h, by simp⟩
  rename_i accepted
  have taken : ph.rejected img.size = false := by simpa using accepted
  have fits := fits_of_accepted size (sound loads taken) taken
  obtain ⟨mem_end, file_end⟩ := fits.ends
  have low := fits.low
  have high := fits.high
  have file := fits.file
  split at done
  · cases done
    exact ⟨g, inv, fun _ h => h, by simp⟩
  rename_i as reserve
  obtain ⟨inv₁, present, promised⟩ := inv.reserve fits reserve (max st.imageEnd ph.memEnd)
  generalize loop : pageLoop heap img ph (min ph.memEnd ph.fileEnd) _ _ _ = result at done
  obtain ⟨ok, st₂⟩ := result
  have page_low : uvaMin ≤ pageDown ph.vaddr := by
    simp only [pageDown, uvaMin] at *
    omega
  have page_below : ph.vaddr < pageDown ph.vaddr + 4096 := by
    simp only [pageDown]
    omega
  have enough : min ph.memEnd ph.fileEnd ≤ pageDown ph.vaddr +
      4096 * ((min ph.memEnd ph.fileEnd - pageDown ph.vaddr) / 4096 + 1) := by omega
  obtain ⟨g', inv', regions, tstacks, stays, success⟩ :=
    pageLoop_spec inv₁ fits (pageDown_aligned _) page_low page_below (by omega)
    (by omega) enough loop
  have still : ∀ vb, Present as vb → Present st₂.as vb := by
    rintro vb (mapped | reserved)
    · exact Or.inl (stays vb mapped)
    · exact Or.inr (by rw [reservedAt_same regions tstacks]; exact reserved)
  cases ok with
  | false =>
    cases done
    exact ⟨g', inv', fun vb here => still vb (present vb here), by simp⟩
  | true =>
    cases done
    obtain ⟨placed, mapped⟩ := success rfl
    refine ⟨g', inv', fun vb here => still vb (present vb here), fun _ => ?_⟩
    rw [if_pos loads]
    refine ⟨fits, placed.trans placeFrom_start, fun k inside => ?_⟩
    rcases Nat.lt_or_ge (ph.vaddr + k) (min ph.memEnd ph.fileEnd) with paged | past
    · exact Or.inl (mapped _ (by simp only [pageDown]; omega) paged)
    · exact still _ (Or.inr (promised _ (by omega) (by omega)))

/-- No header that the loader comes to lies outside the image, or passes its checks by a sum that
wraps. -/
def Clear (heap : Heap) (img : Image) : List Nat → LoadState → Prop
  | [], _ => True
  | i :: rest, st =>
    img.phdrAt i + phdrSize ≤ img.size ∧
      ((img.phdr i).loadable = true → (img.phdr i).rejected img.size = false →
        (img.phdr i).Sound) ∧
      ∀ st', loadOne heap img { st with reads := st.reads ++ [(img.phdrAt i, phdrSize)] }
        (img.phdr i) = (none, st') → Clear heap img rest st'

/-- The bytes of the listed segments, one after the other. -/
def loads (img : Image) (headers : List Nat) (g : Nat → UInt8) : Nat → UInt8 :=
  headers.foldl (fun g i => if (img.phdr i).loadable then place img (img.phdr i) g else g) g

theorem loadAll_spec {error : Option LoadError} (inv : LoadInv img st g)
    (size : img.size < 4294967296) (clear : Clear heap img headers st)
    (done : loadAll heap img headers st = (error, st')) :
    ∃ g', LoadInv img st' g' ∧ (∀ vb, Present st.as vb → Present st'.as vb) ∧
      (error = none → g' = loads img headers g ∧
        ∀ i ∈ headers, (img.phdr i).loadable = true → Fits img (img.phdr i) ∧
          ∀ k < (img.phdr i).memsz, Present st'.as ((img.phdr i).vaddr + k)) := by
  induction headers generalizing st g with
  | nil =>
    cases done
    exact ⟨g, inv, fun _ h => h, fun _ => ⟨rfl, by simp⟩⟩
  | cons i rest ih =>
    simp only [loadAll] at done
    have read : LoadInv img { st with reads := st.reads ++ [(img.phdrAt i, phdrSize)] } g := by
      refine ⟨inv.wf, inv.pages, fun r member => ?_, inv.heap_free, inv.bytes⟩
      rcases List.mem_append.mp member with old | new
      · exact inv.reads r old
      · rw [List.mem_singleton.mp new]
        exact clear.1
    generalize one : loadOne heap img _ (img.phdr i) = result at done
    obtain ⟨stopped, st₁⟩ := result
    obtain ⟨g₁, inv₁, stays, success⟩ := loadOne_spec read size clear.2.1 one
    cases stopped with
    | some reason =>
      cases done
      exact ⟨g₁, inv₁, stays, by simp⟩
    | none =>
      obtain ⟨g', inv', stays', success'⟩ := ih inv₁ (clear.2.2 st₁ one) done
      refine ⟨g', inv', fun vb here => stays' vb (stays vb here), fun fine => ?_⟩
      obtain ⟨placed, each⟩ := success' fine
      have head := success rfl
      have step : g₁ = if (img.phdr i).loadable then place img (img.phdr i) g else g := by
        split at head <;> rename_i loadable
        · rw [if_pos loadable]
          exact head.2.1
        · rw [if_neg loadable]
          exact head
      refine ⟨by rw [placed, step]; rfl, fun j member loadable => ?_⟩
      rcases List.mem_cons.mp member with rfl | later
      · rw [if_pos loadable] at head
        exact ⟨head.1, fun k inside => stays' _ (head.2.2 k inside)⟩
      · exact each j later loadable

def Image.content (img : Image) (ph : Phdr) (k : Nat) : UInt8 :=
  if k < ph.filesz then img.byte (ph.offset + k) else 0

/-- Whatever order the segments come in: those with a byte for the address agree on it. -/
theorem loads_agreed {v : UInt8} (agree : ∀ j ∈ headers, (img.phdr j).loadable = true →
      (img.phdr j).vaddr ≤ vb → vb < (img.phdr j).vaddr + (img.phdr j).filesz →
      img.byte ((img.phdr j).offset + (vb - (img.phdr j).vaddr)) = v) :
    loads img headers g vb = v ∨ loads img headers g vb = g vb ∧
      ∀ j ∈ headers, (img.phdr j).loadable = true →
        ¬((img.phdr j).vaddr ≤ vb ∧ vb < (img.phdr j).vaddr + (img.phdr j).filesz) := by
  induction headers generalizing g with
  | nil => exact .inr ⟨rfl, by simp⟩
  | cons j rest ih =>
    rw [loads, List.foldl_cons, ← loads]
    rcases ih fun l member => agree l (List.mem_cons_of_mem j member) with same | ⟨same, outside⟩
    · exact .inl same
    · rw [same]
      by_cases here : (img.phdr j).loadable = true ∧ (img.phdr j).vaddr ≤ vb ∧
          vb < (img.phdr j).vaddr + (img.phdr j).filesz
      · left
        rw [if_pos here.1, place, if_pos here.2]
        exact agree j List.mem_cons_self here.1 here.2.1 here.2.2
      · right
        constructor
        · split
          · rename_i loadable
            rw [place, if_neg fun inside => here ⟨loadable, inside⟩]
          · rfl
        · intro l member loadable
          rcases List.mem_cons.mp member with rfl | later
          · exact fun inside => here ⟨loadable, inside⟩
          · exact outside l later loadable

/-- Where two segments have bytes for one address, they are the same. -/
def Image.Agrees (img : Image) : Prop :=
  ∀ i < img.phnum, ∀ j < img.phnum, (img.phdr i).loadable = true → (img.phdr j).loadable = true →
    ∀ k < (img.phdr i).memsz, ∀ l < (img.phdr j).memsz,
      (img.phdr i).vaddr + k = (img.phdr j).vaddr + l →
        img.content (img.phdr i) k = img.content (img.phdr j) l

theorem loads_segment {i k : Nat} (agrees : img.Agrees)
    (fits : ∀ j < img.phnum, (img.phdr j).loadable = true → Fits img (img.phdr j))
    (bound : i < img.phnum) (loadable : (img.phdr i).loadable = true)
    (inside : k < (img.phdr i).memsz) :
    loads img (List.range img.phnum) (fun _ => 0) ((img.phdr i).vaddr + k) =
      img.content (img.phdr i) k := by
  have agree (j : Nat) (member : j ∈ List.range img.phnum) (other : (img.phdr j).loadable = true)
      (low : (img.phdr j).vaddr ≤ (img.phdr i).vaddr + k)
      (high : (img.phdr i).vaddr + k < (img.phdr j).vaddr + (img.phdr j).filesz) :
      img.byte ((img.phdr j).offset + ((img.phdr i).vaddr + k - (img.phdr j).vaddr)) =
        img.content (img.phdr i) k := by
    have file := (fits j (List.mem_range.mp member) other).file
    rw [agrees i bound j (List.mem_range.mp member) loadable other k inside
      ((img.phdr i).vaddr + k - (img.phdr j).vaddr) (by omega) (by omega),
      Image.content, if_pos (by omega)]
  rcases loads_agreed agree with same | ⟨same, outside⟩
  · exact same
  · have past := outside i (List.mem_range.mpr bound) loadable
    rw [same, Image.content, if_neg (by omega)]

theorem view_of_present {as : AddrSpace} (present : Present as vb)
    (users : ∀ va pte, lookup as va = some pte → pte.user = true) :
    ∃ perm, view as vb = some (perm, viewByte as vb) := by
  cases found : lookup as vb with
  | some pte =>
    have user := users vb pte found
    exact ⟨pte.perm, by simp [viewByte, view, found, user]⟩
  | none =>
    have reserved : (reservedAt as vb).isSome = true := by simpa [Present, found] using present
    obtain ⟨perm, at_vb⟩ := Option.isSome_iff_exists.mp reserved
    exact ⟨perm, by simp [viewByte, view, found, at_vb]⟩

theorem Present.brkInit (present : Present st.as vb) (inv : LoadInv img st g)
    (base : Nat) : Present (brkInit st.as base) vb := by
  rcases present with mapped | reserved
  · exact Or.inl mapped
  · exact Or.inr (reservedAt_update _ ((st.as.regions 0).contains_free inv.heap_free vb) reserved)

theorem viewByte_brkInit (inv : LoadInv img st g) (base vb : Nat) :
    viewByte (brkInit st.as base) vb = viewByte st.as vb := by
  cases found : lookup st.as vb with
  | none =>
    have still : lookup (brkInit st.as base) vb = none := found
    rw [viewByte_unmapped found, viewByte_unmapped still]
  | some pte =>
    have still : lookup (brkInit st.as base) vb = some pte := found
    have user := inv.users vb pte found
    rw [viewByte_mapped found user, viewByte_mapped still user]
    rfl

end Segments

structure Contained (img : Image) (error : Option LoadError) (st : LoadState) : Prop where
  reads : ∀ r ∈ st.reads, r.1 + r.2 ≤ img.size
  pages : ∀ va pte, lookup st.as va = some pte → pte.user = true ∧ uvaMin ≤ va ∧ va < uvaMax
  alone : ∀ va vb p q, lookup st.as va = some p → lookup st.as vb = some q → p.frame = q.frame →
    page va = page vb
  segments : error = none → ∀ i < img.phnum, (img.phdr i).loadable = true →
    ∀ k < (img.phdr i).memsz, ∃ perm, view st.as ((img.phdr i).vaddr + k) =
      some (perm, img.content (img.phdr i) k)

def LoadState.start : LoadState := { as := AddrSpace.new, reads := [(0, ehdrSize)], imageEnd := 0 }

/-- No sum wraps that the loader takes before it refuses the image. -/
structure Straight (heap : Heap) (img : Image) : Prop where
  size : img.size < 4294967296
  headers : img.phentsize = phdrSize → wrap (img.phoff + img.phnum * phdrSize) ≤ img.size →
    Clear heap img (List.range img.phnum) LoadState.start

theorem LoadInv.contained {img : Image} {st : LoadState} {g : Nat → UInt8} (inv : LoadInv img st g)
    (error : LoadError) : Contained img (some error) st :=
  ⟨inv.reads, inv.pages, inv.wf.inj, by simp⟩

theorem LoadInv.start {img : Image} (exec : isExec img = true) :
    LoadInv img LoadState.start fun _ => 0 := by
  have empty : ∀ va, lookup LoadState.start.as va = none := fun _ => rfl
  refine ⟨Wf.of_empty empty, fun va pte found => ?_, ?_, rfl, fun vb _ =>
    viewByte_unmapped (empty vb)⟩
  · rw [empty] at found
    cases found
  · simp only [isExec, Bool.and_eq_true, decide_eq_true_eq] at exec
    simpa [LoadState.start] using exec.1.1.1.1

/-- As long as no sum wraps, only segments that disagree on a byte stand in the way. -/
theorem straight_image_contained {heap : Heap} {img : Image} {error : Option LoadError}
    {st : LoadState} (exec : isExec img = true) (straight : Straight heap img)
    (done : loadSegments heap img AddrSpace.new = (error, st)) :
    Contained img error st ↔ (error = none → img.Agrees) := by
  refine ⟨fun contained fine i bound j bound' loadable loadable' k inside l inside' same => ?_,
    fun agrees => ?_⟩
  · obtain ⟨perm, one⟩ := contained.segments fine i bound loadable k inside
    obtain ⟨perm', other⟩ := contained.segments fine j bound' loadable' l inside'
    rw [same, other] at one
    exact (Prod.mk.inj (Option.some.inj one)).2.symm
  simp only [loadSegments] at done
  split at done
  · cases done
    exact (LoadInv.start exec).contained .headers
  rename_i headers
  simp only [not_or, not_not, not_lt] at headers
  generalize all : loadAll heap img _ _ = result at done
  obtain ⟨stopped, st₁⟩ := result
  obtain ⟨g, inv, -, success⟩ := loadAll_spec (LoadInv.start exec) straight.size
    (straight.headers headers.1 headers.2) all
  cases stopped with
  | some reason =>
    cases done
    exact inv.contained reason
  | none =>
    simp only at done
    split at done
    · cases done
      exact inv.contained .entry
    cases done
    obtain ⟨placed, each⟩ := success rfl
    refine ⟨inv.reads, inv.pages, inv.wf.inj, fun _ i bound loadable k inside => ?_⟩
    have member := List.mem_range.mpr bound
    obtain ⟨fits, present⟩ := each i member loadable
    obtain ⟨perm, seen⟩ := view_of_present ((present k inside).brkInit inv st₁.imageEnd)
      (fun va pte found => inv.users va pte found)
    have bytes := loads_segment (agrees rfl) (fun j m l => (each j (List.mem_range.mpr m) l).1)
      bound loadable inside
    have small : (img.phdr i).vaddr + k < 4294967296 := by
      have high := fits.high
      simp only [uvaMax] at high
      omega
    rw [viewByte_brkInit inv, inv.bytes _ small, placed, bytes] at seen
    exact ⟨perm, seen⟩

def le32 (n : Nat) : List UInt8 :=
  [n, n / 256, n / 65536, n / 16777216].map fun d => UInt8.ofNat (d % 256)

def oneSegment (ph : Phdr) : Image :=
  let file :=
    [0x7f, 0x45, 0x4c, 0x46, 1, 1, 1, 0, 0, 0, 0, 0, 0, 0, 0, 0, 2, 0, 243, 0] ++ le32 1 ++
    le32 0x11000 ++ le32 52 ++ le32 0 ++ le32 0 ++ [52, 0, 32, 0, 1, 0, 0, 0, 0, 0, 0, 0] ++
    le32 ph.type ++ le32 ph.offset ++ le32 ph.vaddr ++ le32 ph.vaddr ++ le32 ph.filesz ++
    le32 ph.memsz ++ le32 ph.flags ++ le32 4096
  { size := file.length, byte := fun i => file.getD i 0xaa }

def plainImage : Image := oneSegment ⟨1, 0, 0x10ff0, 0x20, 0x2000, 5⟩

theorem plainImage_agrees : plainImage.Agrees := by
  intro i one j other _ _ k _ l _ same
  obtain ⟨rfl, rfl⟩ : i = 0 ∧ j = 0 := ⟨Nat.lt_one_iff.mp one, Nat.lt_one_iff.mp other⟩
  rw [Nat.add_left_cancel same]

theorem plain_image_contained :
    (plainImage.phdr 0).loadable = true ∧
      (loadSegments (fun _ => true) plainImage AddrSpace.new).1 = none ∧
      Contained plainImage none (loadSegments (fun _ => true) plainImage AddrSpace.new).2 := by
  have success : (loadSegments (fun _ => true) plainImage AddrSpace.new).1 = none := rfl
  have straight : Straight (fun _ => true) plainImage :=
    ⟨by decide, fun _ _ => ⟨by decide, by decide, fun _ _ => trivial⟩⟩
  exact ⟨by decide, success,
    (straight_image_contained (by decide) straight (Prod.ext success rfl)).mpr fun _ =>
      plainImage_agrees⟩

/-- `p_offset` and `p_filesz` add up to sixteen: the first sixteen bytes the process
sees are those before the image. -/
def wrappedImage : Image := oneSegment ⟨1, 0xfffffff0, 0x10ff0, 0x20, 0x20, 4⟩

theorem wrapped_offset_leaks :
    isExec wrappedImage = true ∧ wrappedImage.size = 84 ∧
      ∃ st, loadSegments (fun _ => true) wrappedImage AddrSpace.new = (none, st) ∧
        (0xfffffff0, 16) ∈ st.reads ∧
        view st.as 0x10ff0 = some (⟨true, false, false⟩, 0xaa) := by
  refine ⟨by decide, by decide, _, rfl, by decide, by decide⟩

end Espix.Umode.Loader
