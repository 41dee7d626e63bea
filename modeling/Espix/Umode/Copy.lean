import Espix.Lib.Scan
import Espix.Umode.Mm

/-! The kernel's access to user memory: `espix_um_copyin`, `espix_um_copyout` and
`espix_um_strin`.

Each walks its range page by page with addresses that wrap at 32 bits. The fuel
of a loop is the length of its range, and every turn moves at least one byte. -/

namespace Espix.Umode.Copy

open Lib.Page Lib Mm

def readBytes (as : AddrSpace) (loc : Loc) (c : Nat) : List UInt8 :=
  (List.range c).map fun i => as.mem loc.1 (loc.2 + i)

def writeBytes (as : AddrSpace) (loc : Loc) (bytes : List UInt8) : AddrSpace :=
  { as with mem := Function.update as.mem loc.1 fun i =>
      if loc.2 ≤ i ∧ i < loc.2 + bytes.length then bytes.getD (i - loc.2) 0 else as.mem loc.1 i }

def copyinLoop (heap : Heap) : Nat → AddrSpace → List UInt8 → Nat → Nat →
    (Bool × List UInt8) × AddrSpace
  | 0, as, dst, _, _ => ((true, dst), as)
  | fuel + 1, as, dst, uva, n =>
    if n = 0 then ((true, dst), as)
    else
      match userPin heap as uva .r with
      | (none, as') => ((false, dst), as')
      | (some loc, as') =>
        let c := chunk uva n
        copyinLoop heap fuel as' (dst ++ readBytes as' loc c) (wrap (uva + c)) (n - c)

def copyin (heap : Heap) (as : AddrSpace) (uva n : Nat) : (Bool × List UInt8) × AddrSpace :=
  copyinLoop heap n as [] uva n

def copyoutLoop (heap : Heap) : Nat → AddrSpace → Nat → List UInt8 → Bool × AddrSpace
  | 0, as, _, _ => (true, as)
  | fuel + 1, as, uva, src =>
    if src = [] then (true, as)
    else
      match userPin heap as uva .w with
      | (none, as') => (false, as')
      | (some loc, as') =>
        let c := chunk uva src.length
        copyoutLoop heap fuel (writeBytes as' loc (src.take c)) (wrap (uva + c)) (src.drop c)

def copyout (heap : Heap) (as : AddrSpace) (uva : Nat) (src : List UInt8) : Bool × AddrSpace :=
  copyoutLoop heap src.length as uva src

inductive StrResult
  | text (bytes : List UInt8)
  | efault
  | enametoolong
  deriving DecidableEq, Repr

def strinLoop (heap : Heap) : Nat → AddrSpace → List UInt8 → Nat → Nat → StrResult × AddrSpace
  | 0, as, _, _, _ => (.enametoolong, as)
  | fuel + 1, as, dst, uva, size =>
    if size = 0 then (.enametoolong, as)
    else
      match userPin heap as uva .r with
      | (none, as') => (.efault, as')
      | (some loc, as') =>
        let c := chunk uva size
        let bytes := readBytes as' loc c
        if 0 ∈ bytes then (.text (dst ++ bytes.takeWhile (· != 0)), as')
        else strinLoop heap fuel as' (dst ++ bytes) (wrap (uva + c)) (size - c)

def strin (heap : Heap) (as : AddrSpace) (uva size : Nat) : StrResult × AddrSpace :=
  strinLoop heap size as [] uva size

def viewByte (as : AddrSpace) (va : Nat) : UInt8 := ((view as va).map Prod.snd).getD 0

def bytesAt (as : AddrSpace) (uva n : Nat) : List UInt8 :=
  (List.range n).map fun k => viewByte as (wrap (uva + k))

/-- The address is mapped for the user with the permission, and this is its frame. -/
def MappedAt (as : AddrSpace) (need : Need) (va : Nat) (loc : Loc) : Prop :=
  ∃ pte, lookup as va = some pte ∧ pte.user = true ∧ pte.perm.has need = true ∧
    loc = (pte.frame, offset va)

section Bytes

variable {as as' : AddrSpace} {va uva n : Nat} {need : Need} {loc : Loc}

theorem MappedAt.accessible (mapped : MappedAt as need va loc) : accessible as need va = true := by
  obtain ⟨pte, found, user, permitted, -⟩ := mapped
  simp [Mm.accessible, view, found, user, permitted]

theorem MappedAt.viewByte (mapped : MappedAt as need va loc) :
    viewByte as va = as.mem loc.1 loc.2 := by
  obtain ⟨pte, found, user, -, rfl⟩ := mapped
  simp [Copy.viewByte, view, found, user]

theorem bytesAt_congr (same : ∀ vb, view as' vb = view as vb) :
    bytesAt as' uva n = bytesAt as uva n := by
  simp only [bytesAt, Copy.viewByte, same]

theorem bytesAt_length : (bytesAt as uva n).length = n := by simp [bytesAt]

theorem bytesAt_add (as : AddrSpace) (uva c m : Nat) :
    bytesAt as uva (c + m) = bytesAt as uva c ++ bytesAt as (wrap (uva + c)) m := by
  simp only [bytesAt, List.range_add, List.map_append, List.map_map]
  congr 1
  apply List.map_congr_left
  intro k _
  simp only [Function.comp, wrap_add_wrap]

theorem MappedAt.chunk_entry (bound : uva < 4294967296)
    (mapped : MappedAt as need uva loc) {k : Nat}
    (inside : k < chunk uva n) : MappedAt as need (wrap (uva + k)) (loc.1, loc.2 + k) := by
  obtain ⟨pte, found, user, permitted, rfl⟩ := mapped
  obtain ⟨same, page_same, offset_same⟩ := chunk_inside bound inside
  refine ⟨pte, ?_, user, permitted, ?_⟩
  · rw [same, lookup_congr page_same, found]
  · rw [same, offset_same]

theorem readBytes_chunk (bound : uva < 4294967296) (mapped : MappedAt as need uva loc) :
    readBytes as loc (chunk uva n) = bytesAt as uva (chunk uva n) := by
  simp only [readBytes, bytesAt]
  apply List.map_congr_left
  intro k member
  rw [(mapped.chunk_entry bound (List.mem_range.mp member)).viewByte]

end Bytes

/-- What the walk of a range has done to the address space: pages were mapped that
were reserved, and nothing else. -/
structure Walked (as as' : AddrSpace) : Prop where
  wf : Wf as'
  kept : Kept as as'
  same : ∀ vb, view as' vb = view as vb
  stays : ∀ vb pte, lookup as vb = some pte → lookup as' vb = some pte

section Loops

variable {heap : Heap} {as as' as'' : AddrSpace} {fuel uva n : Nat}

theorem Walked.refl (wf : Wf as) : Walked as as :=
  ⟨wf, Kept.refl as, fun _ => rfl, fun _ _ h => h⟩

theorem Walked.trans (first : Walked as as') (second : Walked as' as'') : Walked as as'' where
  wf := second.wf
  kept := first.kept.trans second.kept
  same := fun vb => (second.same vb).trans (first.same vb)
  stays := fun vb pte found => second.stays vb pte (first.stays vb pte found)

theorem MappedAt.mono {need : Need} {va : Nat} {loc : Loc} (mapped : MappedAt as need va loc)
    (stays : ∀ vb pte, lookup as vb = some pte → lookup as' vb = some pte) :
    MappedAt as' need va loc := by
  obtain ⟨pte, found, rest⟩ := mapped
  exact ⟨pte, stays va pte found, rest⟩

theorem Walked.accessible (walked : Walked as as') (need : Need) (va : Nat) :
    accessible as' need va = accessible as need va :=
  accessible_of_view (walked.same va)

section

variable {need : Need}

theorem userPin_walked {loc : Loc} (wf : Wf as)
    (done : userPin heap as uva need = (some loc, as')) :
    Walked as as' ∧ AllGiven heap as as' ∧ MappedAt as' need uva loc := by
  rw [userPin_eq_pageOf] at done
  obtain ⟨pinned, given⟩ := pageOf_some wf done
  exact ⟨⟨pinned.wf, pinned.kept, pinned.same, pinned.stays⟩, given, pinned.entry⟩

theorem userPin_refused (wf : Wf as) (done : userPin heap as uva need = (none, as')) :
    Walked as as' ∧ (accessible as need uva = false ∨ SomeRefused heap as as') := by
  rw [userPin_eq_pageOf] at done
  obtain ⟨wf', kept, same, stays, why⟩ := pageOf_none wf done
  exact ⟨⟨wf', kept, same, stays⟩, why⟩

theorem inaccessible_next (same : ∀ va, accessible as' need va = accessible as need va)
    (inner : ∃ k < n - chunk uva n,
      accessible as' need (wrap (wrap (uva + chunk uva n) + k)) = false) :
    ∃ k < n, accessible as need (wrap (uva + k)) = false := by
  obtain ⟨k, inside, closed⟩ := inner
  rw [wrap_add_wrap, same] at closed
  exact ⟨chunk uva n + k, by omega, closed⟩

theorem inaccessible_first (bound : uva < 4294967296) (some_left : 0 < n)
    (closed : accessible as need uva = false) :
    ∃ k < n, accessible as need (wrap (uva + k)) = false := by
  refine ⟨0, some_left, ?_⟩
  rw [Nat.add_zero, show wrap uva = uva from Nat.mod_eq_of_lt bound, closed]

theorem forall_split {P : Nat → Prop} {uva c m : Nat} (first : ∀ k < c, P (wrap (uva + k)))
    (rest : ∀ k < m, P (wrap (wrap (uva + c) + k))) : ∀ k < c + m, P (wrap (uva + k)) := by
  intro k inside
  rcases Nat.lt_or_ge k c with early | late
  · exact first k early
  · have later := rest (k - c) (by omega)
    rwa [wrap_add_wrap, Nat.add_sub_cancel' late] at later

theorem mapped_split {m : Nat} {loc : Loc} (bound : uva < 4294967296)
    (first : MappedAt as need uva loc)
    (rest : ∀ k < m, ∃ loc, MappedAt as need (wrap (wrap (uva + chunk uva n) + k)) loc) :
    ∀ k < chunk uva n + m, ∃ loc, MappedAt as need (wrap (uva + k)) loc :=
  forall_split (P := fun va => ∃ loc, MappedAt as need va loc) (fun _ early =>
    ⟨_, first.chunk_entry bound early⟩) rest

end

theorem copyinLoop_spec {dst out : List UInt8} {ok : Bool} (wf : Wf as) (bound : uva < 4294967296)
    (enough : n ≤ fuel) (done : copyinLoop heap fuel as dst uva n = ((ok, out), as')) :
    Walked as as' ∧ ∃ m, m ≤ n ∧ out = dst ++ bytesAt as uva m ∧
      (∀ k < m, ∃ loc, MappedAt as' .r (wrap (uva + k)) loc) ∧
      (ok = true → m = n ∧ AllGiven heap as as') ∧
      (ok = false → (∃ k < n, accessible as .r (wrap (uva + k)) = false) ∨
        SomeRefused heap as as') := by
  fun_induction copyinLoop heap fuel as dst uva n with
  | case1 | case2 =>
    cases done
    exact ⟨Walked.refl wf, 0, Nat.zero_le _, by simp [bytesAt], by
      simp, fun _ => ⟨by omega, AllGiven.refl _ _⟩, by simp⟩
  | case3 fuel as dst uva n left as₁ pin =>
    cases done
    obtain ⟨walked, why⟩ := userPin_refused wf pin
    refine ⟨walked, 0, Nat.zero_le n, by simp [bytesAt], by simp, by simp, fun _ => ?_⟩
    exact why.imp_left (inaccessible_first bound (Nat.pos_of_ne_zero left))
  | case4 fuel as dst uva n left loc as₁ pin c ih =>
    obtain ⟨walked, given, mapped⟩ := userPin_walked wf pin
    have step := chunk_pos uva (Nat.pos_of_ne_zero left)
    have most := chunk_le uva n
    obtain ⟨walked', m, short, text, pages, success, failure⟩ :=
      ih walked.wf (wrap_lt _) (by omega) done
    refine ⟨walked.trans walked', chunk uva n + m, by omega, ?_, ?_, ?_, ?_⟩
    · rw [text, readBytes_chunk bound mapped, List.append_assoc, ← bytesAt_add,
        bytesAt_congr walked.same]
    · exact mapped_split bound (mapped.mono walked'.stays) pages
    · intro fine
      obtain ⟨all, given'⟩ := success fine
      exact ⟨by omega, given.trans given'⟩
    · intro failed
      rcases failure failed with closed | refused
      · exact Or.inl (inaccessible_next (walked.accessible .r) closed)
      · exact Or.inr (SomeRefused.after walked.kept refused)

end Loops

section Write

variable {heap : Heap} {as as' : AddrSpace} {fuel uva : Nat} {loc : Loc} {bytes src : List UInt8}

theorem writeBytes_lookup (vb : Nat) : lookup (writeBytes as loc bytes) vb = lookup as vb := rfl

theorem writeBytes_reservedAt (vb : Nat) :
    reservedAt (writeBytes as loc bytes) vb = reservedAt as vb := rfl

theorem writeBytes_wf (wf : Wf as) : Wf (writeBytes as loc bytes) :=
  wf.of_lookup (fun _ => rfl) le_rfl

theorem view_writeBytes {pte : Pte} (wf : Wf as) (start : uva < 4294967296)
    (found : lookup as uva = some pte) (user : pte.user = true)
    (fits : offset uva + bytes.length ≤ 4096) {vb : Nat} (bound : vb < 4294967296) :
    view (writeBytes as (pte.frame, offset uva) bytes) vb =
      if index uva vb < bytes.length then
        (view as vb).map fun v => (v.1, bytes.getD (index uva vb) 0)
      else view as vb := by
  simp only [index_lt_chunk start bound fits, view, writeBytes_lookup, writeBytes_reservedAt]
  cases there : lookup as vb with
  | none =>
    have elsewhere : page vb ≠ page uva := by
      intro same
      rw [lookup_congr same, found] at there
      cases there
    simp [elsewhere]
  | some q =>
    by_cases same : page vb = page uva
    · have here : q = pte := Option.some.inj (there.symm.trans ((lookup_congr same).trans found))
      subst here
      by_cases inside : offset uva ≤ offset vb ∧ offset vb < offset uva + bytes.length
      · simp [writeBytes, user, same, inside, index_eq_offset same inside.1]
      · simp only [writeBytes, user, same, inside, true_and, if_true, if_false,
          Function.update_self]
    · have other : q.frame ≠ pte.frame := fun frames =>
        same (wf.inj vb uva q pte there found frames)
      simp [writeBytes, same, other]

theorem writeBytes_accessible (need : Need) (vb : Nat) :
    accessible (writeBytes as loc bytes) need vb = accessible as need vb := by
  simp only [accessible, view, writeBytes_lookup, writeBytes_reservedAt]
  cases lookup as vb with
  | none => rfl
  | some pte => by_cases user : pte.user = true <;> simp [user]

theorem writeBytes_changes {f o : Nat} (changed : (writeBytes as loc bytes).mem f o ≠ as.mem f o) :
    f = loc.1 ∧ loc.2 ≤ o ∧ o < loc.2 + bytes.length := by
  by_cases frame : f = loc.1
  · subst frame
    refine ⟨rfl, ?_⟩
    by_contra outside
    simp [writeBytes, outside] at changed
  · simp [writeBytes, frame] at changed

/-- The view after the first `m` bytes of a text have been written from `uva` on. -/
def Written (as as' : AddrSpace) (uva : Nat) (src : List UInt8) (m : Nat) : Prop :=
  ∀ vb, vb < 4294967296 →
    view as' vb = if index uva vb < m then
    (view as vb).map fun v => (v.1, src.getD (index uva vb) 0)
      else view as vb

theorem Written.accessible {m : Nat} (written : Written as as' uva src m) (need : Need) {vb : Nat}
    (bound : vb < 4294967296) : accessible as' need vb = accessible as need vb := by
  simp only [Mm.accessible, written vb bound]
  split
  · cases view as vb <;> rfl
  · rfl

theorem written_zero (uva : Nat) (src : List UInt8) (same : ∀ vb, view as' vb = view as vb) :
    Written as as' uva src 0 := by
  intro vb _
  simp [same]

theorem Written.append {as₁ : AddrSpace} {c m : Nat} (start : uva < 4294967296)
    (first : Written as as₁ uva (src.take c) c)
    (rest : Written as₁ as' (wrap (uva + c)) (src.drop c) m) (short : c + m ≤ 4294967296) :
    Written as as' uva src (c + m) := by
  intro vb bound
  obtain ⟨later, wrapped⟩ := index_next start bound (c := c) (by omega)
  rw [rest vb bound, first vb bound]
  rcases Nat.lt_or_ge (index uva vb) c with early | late
  · have beyond := wrapped early
    have notLater : ¬ index (wrap (uva + c)) vb < m := by omega
    have inside : index uva vb < c + m := by omega
    simp only [notLater, early, inside, if_true, if_false]
    congr 1
    funext v
    simp [List.getD_eq_getElem?_getD, early]
  · rw [later late]
    have notEarly : ¬ index uva vb < c := Nat.not_lt.mpr late
    simp only [notEarly, if_false]
    by_cases inside : index uva vb < c + m
    · have inside' : index uva vb - c < m := by omega
      simp [inside, inside', List.getD_eq_getElem?_getD, List.getElem?_drop,
        Nat.add_sub_cancel' late]
    · have outside' : ¬ index uva vb - c < m := by omega
      simp only [inside, outside', if_false]

theorem copyoutLoop_spec {ok : Bool} (wf : Wf as) (bound : uva < 4294967296)
    (enough : src.length ≤ fuel) (short : src.length ≤ 4294967296)
    (done : copyoutLoop heap fuel as uva src = (ok, as')) :
    Wf as' ∧ as.ticks ≤ as'.ticks ∧
      (∀ vb pte, lookup as vb = some pte → lookup as' vb = some pte) ∧
      ∃ m, m ≤ src.length ∧ Written as as' uva src m ∧
        (∀ k < m, ∃ loc, MappedAt as' .w (wrap (uva + k)) loc) ∧
        (∀ f o, f < as.ticks → as'.mem f o ≠ as.mem f o →
          ∃ k < m, MappedAt as' .w (wrap (uva + k)) (f, o)) ∧
        (ok = true → m = src.length ∧ AllGiven heap as as') ∧
        (ok = false → (∃ k < src.length, accessible as .w (wrap (uva + k)) = false) ∨
          SomeRefused heap as as') := by
  fun_induction copyoutLoop heap fuel as uva src with
  | case1 | case2 =>
    cases done
    exact ⟨wf, le_rfl, fun _ _ h => h, 0, Nat.zero_le _, written_zero _ _ fun _ => rfl, by
      simp, by simp,
      fun _ => ⟨by simp_all, AllGiven.refl _ _⟩, by simp⟩
  | case3 fuel as uva src left as₁ pin =>
    cases done
    obtain ⟨walked, why⟩ := userPin_refused wf pin
    refine ⟨walked.wf, walked.kept.ticks, walked.stays, 0, Nat.zero_le _,
      written_zero uva src walked.same, by simp, ?_, by simp, fun _ => ?_⟩
    · intro f o old changed
      exact absurd (congrFun (walked.kept.mem f old) o) changed
    · exact why.imp_left (inaccessible_first bound (List.length_pos_iff.mpr left))
  | case4 fuel as uva src left loc as₁ pin c ih =>
    obtain ⟨walked, given, mapped⟩ := userPin_walked wf pin
    have step : 0 < c := chunk_pos uva (List.length_pos_iff.mpr left)
    have most : c ≤ src.length := chunk_le uva src.length
    have fits : offset uva + c ≤ 4096 := chunk_fits uva src.length
    have taken : (src.take c).length = c := by simp [most]
    obtain ⟨wf', ticks, stays, m, inside, written, pages, changes, success, failure⟩ :=
      ih (writeBytes_wf walked.wf) (wrap_lt _) (by simp; omega) (by simp; omega) done
    have first : Written as (writeBytes as₁ loc (src.take c)) uva (src.take c) c := by
      intro vb low
      obtain ⟨pte, found, user, -, rfl⟩ := mapped
      rw [view_writeBytes walked.wf bound found user (by omega) low, taken, walked.same]
    have left_over : (src.drop c).length = src.length - c := by simp
    refine ⟨wf', walked.kept.ticks.trans ticks,
      fun vb pte found => stays vb pte (walked.stays vb pte found),
      c + m, by omega, ?_, ?_, ?_, ?_, ?_⟩
    · exact first.append bound written (by omega)
    · exact mapped_split bound (mapped.mono stays) pages
    · intro f o old changed
      by_cases later : as'.mem f o = (writeBytes as₁ loc (src.take c)).mem f o
      · rw [later, ← walked.kept.mem f old] at changed
        obtain ⟨rfl, from_start, to_end⟩ := writeBytes_changes changed
        rw [taken] at to_end
        refine ⟨o - loc.2, by omega, ?_⟩
        have entry := mapped.chunk_entry bound (n := src.length) (k := o - loc.2) (by omega)
        rw [Nat.add_sub_cancel' from_start] at entry
        exact entry.mono stays
      · obtain ⟨k, low, entry⟩ := changes f o (lt_of_lt_of_le old walked.kept.ticks) later
        rw [wrap_add_wrap] at entry
        exact ⟨c + k, by omega, entry⟩
    · intro fine
      obtain ⟨all, given'⟩ := success fine
      exact ⟨by omega, given.trans given'⟩
    · intro failed
      rcases failure failed with closed | refused
      · rw [left_over] at closed
        refine Or.inl (inaccessible_next (fun va => ?_) closed)
        rw [writeBytes_accessible, walked.accessible]
      · exact Or.inr (SomeRefused.after walked.kept refused)

end Write

section Strings

variable {heap : Heap} {as as' : AddrSpace} {fuel uva size : Nat} {dst : List UInt8}

/-- The string at an address: what a call that read it returns, by its outcome. -/
def StrOutcome (heap : Heap) (as as' : AddrSpace) (dst : List UInt8) (uva size : Nat) :
    StrResult → Prop
  | .text out => ∃ m < size, out = dst ++ bytesAt as uva m ∧
      (∀ k < m, viewByte as (wrap (uva + k)) ≠ 0) ∧ viewByte as (wrap (uva + m)) = 0 ∧
      (∀ k < m + 1, ∃ loc, MappedAt as' .r (wrap (uva + k)) loc) ∧ AllGiven heap as as'
  | .enametoolong => (∀ k < size, viewByte as (wrap (uva + k)) ≠ 0) ∧
      (∀ k < size, ∃ loc, MappedAt as' .r (wrap (uva + k)) loc) ∧ AllGiven heap as as'
  | .efault => (∃ k < size, accessible as .r (wrap (uva + k)) = false ∧
      ∀ j < k, viewByte as (wrap (uva + j)) ≠ 0) ∨ SomeRefused heap as as'

theorem strinLoop_spec {result : StrResult} (wf : Wf as) (bound : uva < 4294967296)
    (enough : size ≤ fuel) (done : strinLoop heap fuel as dst uva size = (result, as')) :
    Walked as as' ∧ StrOutcome heap as as' dst uva size result := by
  fun_induction strinLoop heap fuel as dst uva size with
  | case1 | case2 =>
    cases done
    exact ⟨Walked.refl wf, by grind, by grind, AllGiven.refl _ _⟩
  | case3 fuel as dst uva size left as₁ pin =>
    cases done
    obtain ⟨walked, why⟩ := userPin_refused wf pin
    refine ⟨walked, why.imp_left fun closed => ⟨0, Nat.pos_of_ne_zero left, ?_, by simp⟩⟩
    rw [Nat.add_zero, show wrap uva = uva from Nat.mod_eq_of_lt bound, closed]
  | case4 fuel as dst uva size left loc as₁ pin c bytes ends =>
    obtain ⟨walked, given, mapped⟩ := userPin_walked wf pin
    have most := chunk_le uva size
    simp only [bytes, c, readBytes_chunk bound mapped, bytesAt_congr walked.same] at done ends
    cases done
    have stop : ∃ m, m < chunk uva size ∧ (viewByte as (wrap (uva + m)) != 0) = false := by
      obtain ⟨m, inside, zero⟩ := List.mem_map.mp ends
      exact ⟨m, List.mem_range.mp inside, by simp [zero]⟩
    obtain ⟨m, inside, text, zero, before⟩ :=
      Scan.takeWhile_map_range (p := (· != 0)) (g := fun k => viewByte as (wrap (uva + k))) stop
    refine ⟨walked, m, by omega, ?_, ?_, by simpa using zero, ?_, given⟩
    · simp only [bytesAt, text]
    · intro k early
      simpa using before k early
    · intro k early
      exact ⟨_, mapped.chunk_entry bound (n := size) (by omega)⟩
  | case5 fuel as dst uva size left loc as₁ pin c bytes goes_on ih =>
    obtain ⟨walked, given, mapped⟩ := userPin_walked wf pin
    have step := chunk_pos uva (Nat.pos_of_ne_zero left)
    have most := chunk_le uva size
    have read : bytes = bytesAt as uva (chunk uva size) := by
      rw [← bytesAt_congr walked.same, ← readBytes_chunk bound mapped]
    have nonzero : ∀ k < chunk uva size, viewByte as (wrap (uva + k)) ≠ 0 := by
      intro k inside zero
      exact goes_on (read ▸ List.mem_map.mpr ⟨k, List.mem_range.mpr inside, zero⟩)
    obtain ⟨walked', outcome⟩ := ih walked.wf (wrap_lt _) (by omega) done
    have later : ∀ vb, viewByte as₁ vb = viewByte as vb := fun vb => by
      simp only [viewByte, walked.same]
    have split {m : Nat} := forall_split (P := (viewByte as · ≠ 0)) (m := m) nonzero
    refine ⟨walked.trans walked', ?_⟩
    cases result with
    | text out =>
      obtain ⟨m, short, text, rest, zero, pages, given'⟩ := outcome
      simp only [later] at rest zero
      refine ⟨chunk uva size + m, by omega, ?_, split rest, ?_, ?_,
        given.trans given'⟩
      · rw [text, read, List.append_assoc, bytesAt_congr walked.same, ← bytesAt_add]
      · rw [← zero, wrap_add_wrap]
      · exact mapped_split bound (mapped.mono walked'.stays) pages
    | enametoolong =>
      obtain ⟨rest, pages, given'⟩ := outcome
      simp only [later] at rest
      have all : size = chunk uva size + (size - chunk uva size) := by omega
      refine ⟨?_, ?_, given.trans given'⟩
      · rw [all]
        exact split rest
      · rw [all]
        exact mapped_split bound (mapped.mono walked'.stays) pages
    | efault =>
      rcases outcome with ⟨k, inside, closed, rest⟩ | refused
      · simp only [later] at rest
        rw [wrap_add_wrap, walked.accessible] at closed
        exact Or.inl ⟨chunk uva size + k, by omega, closed, split rest⟩
      · exact Or.inr (SomeRefused.after walked.kept refused)

end Strings

section Contracts

variable {heap : Heap} {as : AddrSpace} {uva n : Nat}

theorem copyinLoop_mapped {fuel : Nat} {dst : List UInt8} (bound : uva < 4294967296)
    (enough : n ≤ fuel) (mapped : ∀ k < n, ∃ loc, MappedAt as .r (wrap (uva + k)) loc) :
    copyinLoop heap fuel as dst uva n = ((true, dst ++ bytesAt as uva n), as) := by
  induction fuel generalizing dst uva n with
  | zero =>
    obtain rfl : n = 0 := Nat.le_zero.mp enough
    simp [copyinLoop, bytesAt]
  | succ fuel ih =>
    by_cases nothing : n = 0
    · subst nothing
      simp [copyinLoop, bytesAt]
    · have step := chunk_pos uva (Nat.pos_of_ne_zero nothing)
      have most := chunk_le uva n
      obtain ⟨loc, first⟩ := mapped 0 (Nat.pos_of_ne_zero nothing)
      rw [Nat.add_zero, show wrap uva = uva from Nat.mod_eq_of_lt bound] at first
      have pin : userPin heap as uva .r = (some loc, as) := by
        obtain ⟨pte, found, user, permitted, rfl⟩ := first
        simp [userPin, found, user, permitted]
      have rest : ∀ k < n - chunk uva n,
          ∃ loc, MappedAt as .r (wrap (wrap (uva + chunk uva n) + k)) loc := by
        intro k inside
        rw [wrap_add_wrap]
        exact mapped (chunk uva n + k) (by omega)
      simp only [copyinLoop, nothing, if_false, pin]
      rw [ih (wrap_lt _) (by omega) rest, readBytes_chunk bound first, List.append_assoc,
        ← bytesAt_add, Nat.add_sub_cancel' most]

def UserOnly (as : AddrSpace) : Prop :=
  ∀ va, va < 4294967296 → (view as va).isSome = true → uvaMin ≤ va ∧ va < stackTop

/-- A byte the call may not touch: neither mapped for the user with the permission,
nor unmapped and reserved with it. -/
def Closed (as : AddrSpace) (need : Need) (uva n : Nat) : Prop :=
  ∃ k < n, accessible as need (wrap (uva + k)) = false

theorem UserOnly.closed (only : UserOnly as) (need : Need) (bound : uva < 4294967296)
    (leaves : 4294967296 < uva + n ∨
      ∃ k < n, ¬ (uvaMin ≤ wrap (uva + k) ∧ wrap (uva + k) < stackTop)) : Closed as need uva n := by
  have outside : ∀ k, ¬ (uvaMin ≤ wrap (uva + k) ∧ wrap (uva + k) < stackTop) →
      accessible as need (wrap (uva + k)) = false := by
    intro k out
    cases there : view as (wrap (uva + k)) with
    | none => simp [accessible, there]
    | some v => exact absurd (only _ (wrap_lt _) (by simp [there])) out
  rcases leaves with wraps | ⟨k, inside, out⟩
  · refine ⟨4294967296 - uva, by omega, outside _ ?_⟩
    rw [Nat.add_sub_cancel' bound.le]
    decide
  · exact ⟨k, inside, outside k out⟩

structure CopyinContract (heap : Heap) (as : AddrSpace) (uva n : Nat) : Prop where
  unchanged : ∀ vb, view (copyin heap as uva n).2 vb = view as vb
  own_pages : ∀ k byte, (copyin heap as uva n).1.2[k]? = some byte →
    ∃ loc, MappedAt (copyin heap as uva n).2 .r (wrap (uva + k)) loc ∧
      byte = (copyin heap as uva n).2.mem loc.1 loc.2
  bytes : (copyin heap as uva n).1.1 = true → (copyin heap as uva n).1.2 = bytesAt as uva n
  fails_iff : (copyin heap as uva n).1.1 = false ↔
    Closed as .r uva n ∨ SomeRefused heap as (copyin heap as uva n).2

theorem copyin_contract (wf : Wf as) (bound : uva < 4294967296) (heap : Heap) (n : Nat) :
    CopyinContract heap as uva n := by
  obtain ⟨⟨⟨ok, out⟩, as'⟩, call⟩ : ∃ r, copyin heap as uva n = r := ⟨_, rfl⟩
  obtain ⟨walked, m, short, text, pages, success, failure⟩ :=
    copyinLoop_spec wf bound (le_refl n) call
  refine ⟨?_, ?_, ?_, ?_⟩ <;> simp only [call]
  · exact walked.same
  · intro k byte copied
    rw [text, ← bytesAt_congr walked.same] at copied
    obtain ⟨inside, value⟩ := List.getElem?_eq_some_iff.mp copied
    simp only [List.nil_append, bytesAt_length] at inside
    obtain ⟨loc, mapped⟩ := pages k inside
    refine ⟨loc, mapped, ?_⟩
    rw [← value, ← mapped.viewByte]
    simp [bytesAt]
  · intro fine
    rw [text, (success fine).1, List.nil_append]
  · refine ⟨failure, fun why => ?_⟩
    by_contra fine
    obtain ⟨rfl, given⟩ := success (by simpa using fine)
    rcases why with ⟨k, inside, closed⟩ | refused
    · obtain ⟨loc, mapped⟩ := pages k inside
      rw [← walked.accessible, mapped.accessible] at closed
      cases closed
    · exact given.not_refused refused

structure CopyoutContract (heap : Heap) (as : AddrSpace) (uva : Nat) (src : List UInt8) : Prop where
  own_pages : ∀ f o, f < as.ticks → (copyout heap as uva src).2.mem f o ≠ as.mem f o →
    ∃ k < src.length, MappedAt (copyout heap as uva src).2 .w (wrap (uva + k)) (f, o)
  outside : ∀ vb, vb < 4294967296 → (∀ k < src.length, vb ≠ wrap (uva + k)) →
    view (copyout heap as uva src).2 vb = view as vb
  inside : (copyout heap as uva src).1 = true → ∀ k < src.length,
    view (copyout heap as uva src).2 (wrap (uva + k)) =
      (view as (wrap (uva + k))).map fun v => (v.1, src.getD k 0)
  round_trip : (copyout heap as uva src).1 = true → ¬ Closed as .r uva src.length →
    ∀ heap', copyin heap' (copyout heap as uva src).2 uva src.length =
      ((true, src), (copyout heap as uva src).2)
  fails_iff : (copyout heap as uva src).1 = false ↔
    Closed as .w uva src.length ∨ SomeRefused heap as (copyout heap as uva src).2

theorem copyout_contract (wf : Wf as) (bound : uva < 4294967296) (heap : Heap) {src : List UInt8}
    (short : src.length ≤ 4294967296) : CopyoutContract heap as uva src := by
  obtain ⟨⟨ok, as'⟩, call⟩ : ∃ r, copyout heap as uva src = r := ⟨_, rfl⟩
  obtain ⟨wf', ticks, stays, m, most, written, pages, changes, success, failure⟩ :=
    copyoutLoop_spec wf bound (le_refl src.length) short call
  have inside : ok = true → ∀ k < src.length, view as' (wrap (uva + k)) =
      (view as (wrap (uva + k))).map fun v => (v.1, src.getD k 0) := by
    intro fine k low
    obtain ⟨rfl, -⟩ := success fine
    rw [written _ (wrap_lt _), index_wrap bound (lt_of_lt_of_le low short), if_pos low]
  refine ⟨?_, ?_, ?_, ?_, ?_⟩ <;> simp only [call]
  · intro f o old changed
    obtain ⟨k, low, mapped⟩ := changes f o old changed
    exact ⟨k, by omega, mapped⟩
  · intro vb small out
    rw [written vb small, if_neg]
    intro inside
    exact out (index uva vb) (by omega) (wrap_index bound small).symm
  · exact inside
  · intro fine readable heap'
    have mapped : ∀ k < src.length, ∃ loc, MappedAt as' .r (wrap (uva + k)) loc := by
      intro k low
      obtain ⟨rfl, -⟩ := success fine
      obtain ⟨loc, pte, found, user, -, place⟩ := pages k low
      refine ⟨loc, pte, found, user, ?_, place⟩
      have open_before : accessible as .r (wrap (uva + k)) = true := by
        by_contra closed
        exact readable ⟨k, low, by simpa using closed⟩
      rw [← written.accessible .r (wrap_lt _)] at open_before
      simpa [accessible, view, found, user] using open_before
    rw [copyin, copyinLoop_mapped bound le_rfl mapped, List.nil_append]
    congr 2
    apply List.ext_getElem
    · simp [bytesAt]
    · intro k low high
      have value := inside fine k high
      have here : (view as (wrap (uva + k))).isSome = true := by
        obtain ⟨rfl, -⟩ := success fine
        obtain ⟨loc, entry⟩ := pages k high
        have seen := entry.accessible
        rw [written.accessible .w (wrap_lt _)] at seen
        cases there : view as (wrap (uva + k)) with
        | none => simp [accessible, there] at seen
        | some v => rfl
      obtain ⟨v, there⟩ := Option.isSome_iff_exists.mp here
      simp [bytesAt, viewByte, value, there, high]
  · refine ⟨failure, fun why => ?_⟩
    by_contra fine
    obtain ⟨rfl, given⟩ := success (by simpa using fine)
    rcases why with ⟨k, low, closed⟩ | refused
    · obtain ⟨loc, mapped⟩ := pages k low
      rw [← written.accessible .w (wrap_lt _), mapped.accessible] at closed
      cases closed
    · exact given.not_refused refused

structure StrinContract (heap : Heap) (as : AddrSpace) (uva size : Nat) : Prop where
  unchanged : ∀ vb, view (strin heap as uva size).2 vb = view as vb
  text : ∀ out, (strin heap as uva size).1 = .text out →
    ∃ m < size, out = bytesAt as uva m ∧ 0 ∉ out ∧ viewByte as (wrap (uva + m)) = 0 ∧
      ∀ k < m + 1, ∃ loc, MappedAt (strin heap as uva size).2 .r (wrap (uva + k)) loc
  too_long : (strin heap as uva size).1 = .enametoolong →
    0 ∉ bytesAt as uva size ∧
      ∀ k < size, ∃ loc, MappedAt (strin heap as uva size).2 .r (wrap (uva + k)) loc
  fails_iff : (strin heap as uva size).1 = .efault ↔
    (∃ k < size, accessible as .r (wrap (uva + k)) = false ∧
      ∀ j < k, viewByte as (wrap (uva + j)) ≠ 0) ∨ SomeRefused heap as (strin heap as uva size).2

theorem zero_not_mem_bytesAt {m : Nat} :
    0 ∉ bytesAt as uva m ↔ ∀ k < m, viewByte as (wrap (uva + k)) ≠ 0 := by
  simp [bytesAt]

theorem strin_contract (wf : Wf as) (bound : uva < 4294967296) (heap : Heap) (size : Nat) :
    StrinContract heap as uva size := by
  obtain ⟨⟨result, as'⟩, call⟩ : ∃ r, strin heap as uva size = r := ⟨_, rfl⟩
  obtain ⟨walked, outcome⟩ := strinLoop_spec wf bound (le_refl size) call
  refine ⟨?_, ?_, ?_, ?_⟩ <;> simp only [call]
  · exact walked.same
  · rintro out rfl
    obtain ⟨m, short, text, nonzero, zero, pages, -⟩ := outcome
    rw [List.nil_append] at text
    exact ⟨m, short, text, by rw [text]; exact zero_not_mem_bytesAt.mpr nonzero, zero, pages⟩
  · rintro rfl
    obtain ⟨nonzero, pages, -⟩ := outcome
    exact ⟨zero_not_mem_bytesAt.mpr nonzero, pages⟩
  · have given_open : ∀ k, (∃ loc, MappedAt as' .r (wrap (uva + k)) loc) →
        accessible as .r (wrap (uva + k)) = true := by
      rintro k ⟨loc, mapped⟩
      rw [← walked.accessible]
      exact mapped.accessible
    cases result with
    | efault => exact iff_of_true rfl outcome
    | text out =>
      obtain ⟨m, short, -, nonzero, zero, pages, given⟩ := outcome
      apply iff_of_false (by simp)
      rintro (⟨k, inside, closed, before⟩ | refused)
      · rcases Nat.lt_or_ge m k with past | near
        · exact before m past zero
        · rw [given_open k (pages k (by omega))] at closed
          cases closed
      · exact given.not_refused refused
    | enametoolong =>
      obtain ⟨-, pages, given⟩ := outcome
      apply iff_of_false (by simp)
      rintro (⟨k, inside, closed, -⟩ | refused)
      · rw [given_open k (pages k inside)] at closed
        cases closed
      · exact given.not_refused refused

end Contracts

/-- System calls touch only the caller's own pages: each copy reads or writes frames
mapped for the user with the permission it needs, shows no change outside its
range, and fails exactly when a byte is closed to it or the heap refuses a page. -/
theorem user_copies_confined (heap : Heap) (as : AddrSpace) (wf : Wf as) (uva n : Nat)
    (bound : uva < 4294967296) (src : List UInt8) (short : src.length ≤ 4294967296) :
    CopyinContract heap as uva n ∧ CopyoutContract heap as uva src ∧ StrinContract heap as uva n ∧
      (UserOnly as → ∀ need, (4294967296 < uva + n ∨
        ∃ k < n, ¬ (uvaMin ≤ wrap (uva + k) ∧ wrap (uva + k) < stackTop)) →
          Closed as need uva n) :=
  ⟨copyin_contract wf bound heap n, copyout_contract wf bound heap short,
    strin_contract wf bound heap n, fun only need leaves => only.closed need bound leaves⟩

def reservedSpace : AddrSpace :=
  { AddrSpace.new with
    regions := Function.update (fun _ => Region.empty) ⟨1, by
      decide⟩ (regionOf 0x10000 0x12000 Perm.rw) }

theorem reservedSpace_wf : Wf reservedSpace := Wf.of_empty fun _ => rfl

theorem copy_across_reserved_pages :
    (copyout (fun _ => true) reservedSpace 0x10ffe [1, 2, 3]).1 = true ∧
      CopyoutContract (fun _ => true) reservedSpace 0x10ffe [1, 2, 3] :=
  ⟨by decide, (user_copies_confined (fun _ => true) reservedSpace reservedSpace_wf 0x10ffe 3
    (by decide) [1, 2, 3] (by decide)).2.1⟩

/-- A reserved byte is refused when the heap has no frame for its page, and a page
mapped without the permission is refused in a region that has it. -/
theorem reserved_byte_refused :
    accessible reservedSpace .r 0x10000 = true ∧
      (copyin (fun _ => false) reservedSpace 0x10000 1).1.1 = false ∧
      reservedAt (mapNew (fun _ => true) reservedSpace 0x10000 ⟨true, false, false⟩).2 0x10000 =
        some Perm.rw ∧
      (copyout (fun _ => true) (mapNew (fun _ => true) reservedSpace 0x10000 ⟨true, false, false⟩).2
        0x10000 [7]).1 = false := by
  decide

end Espix.Umode.Copy
