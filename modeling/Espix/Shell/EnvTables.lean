import Espix.Shell.EnvHeap

/-! The operations of `env.c` on the heap of tables and strings. -/

namespace Espix.Shell.EnvTables

open Env EnvHeap Lib.Run

section Operations

variable {a t f : Nat} {s : State} {tb : Table} {fr : Frame}

theorem acts_waste (a : Nat) (s : State) :
    Acts a s (freeStrs { s with nextStr := s.nextStr + 1 } [s.nextStr]) := by
  refine acts_of_change (fun _ => False) [s.nextStr] rfl rfl rfl rfl (fun _ _ => rfl) (fun _ => rfl)
    (fun _ => rfl) (fun _ _ => rfl) (Nat.le_succ _) (fun _ impossible =>
      impossible.elim) fun strings => ?_
  refine ⟨fun _ _ => rfl, Nat.le_succ _, fun _ _ impossible => impossible.elim,
    fun _ _ _ impossible => impossible.elim, rfl, by simp, ?_⟩
  intro id member
  rw [List.mem_singleton.mp member]
  exact ⟨.inl ⟨le_rfl, Nat.lt_succ_self _⟩, fun _ impossible => impossible.elim⟩

section

variable (env : envOf s a = some t) (used : s.tables t = some tb)

include env used

theorem acts_setIn (name value : Text)
    (exported : Bool) (mem : Mem) : Acts a s (setIn name value exported mem s t tb) := by
  fun_cases setIn name value exported mem s t tb with
  | case1 | case2 => exact Acts.refl a s
  | case3 _ copy made i found e held =>
    have here : slotAt s t i = some e := by rw [slotAt_eq used, held]
    refine acts_slot _ _ _ _ env used (Nat.le_succ _) fun strings => ?_
    obtain ⟨name_old, value_old⟩ := strings.slot_bound here
    refine ⟨?_, by simp, ?_⟩
    · intro entry same
      cases same
      refine ⟨by dsimp only [copy]; omega, ?_⟩
      intro id member
      simp only [List.mem_cons, List.not_mem_nil, or_false] at member
      rcases member with rfl | rfl
      · exact .inr ⟨.name t i, .inl rfl, by simp [holds, here]⟩
      · exact .inl ⟨le_rfl, Nat.lt_succ_self _⟩
    · intro id member
      rw [List.mem_singleton.mp member]
      refine ⟨.inr ⟨.value t i, .inr rfl, by simp [holds, here]⟩, ?_⟩
      intro entry same
      cases same
      exact ⟨(strings.name_ne_value here).symm, by dsimp only [copy]; omega⟩
  | case4 | case5 => exact acts_waste a s
  | case6 _ _ _ i =>
    have plain := acts_slot (k := i) (s.nextStr + 2) (tb.count + 1)
      (some ⟨⟨s.nextStr + 1, name⟩, ⟨s.nextStr, value⟩, exported⟩) [] env used
      (Nat.le_add_right s.nextStr 2) fun strings => ?_
    · simpa using plain
    · refine ⟨?_, by simp, by simp⟩
      intro entry same
      cases same
      refine ⟨by simp, ?_⟩
      intro id member
      simp only [List.mem_cons, List.not_mem_nil, or_false] at member
      rcases member with rfl | rfl
      · exact .inl ⟨by omega, by omega⟩
      · exact .inl ⟨by omega, by omega⟩

theorem acts_unsetIn (name : Text) : Acts a s (unsetIn name s t tb) := by
  fun_cases unsetIn name s t tb with
  | case1 | case2 => exact Acts.refl a s
  | case3 i found e held =>
    have here : slotAt s t i = some e := by rw [slotAt_eq used, held]
    refine acts_slot _ _ _ _ env used le_rfl fun strings => ?_
    refine ⟨(fun entry same => by cases same), ?_, ?_⟩
    · simpa using strings.name_ne_value here
    · exact fun id member => ⟨.inr (source_slot here member), fun entry same => by cases same⟩

theorem acts_exportIn (name : Text) (exported : Bool) :
    Acts a s (exportIn name exported s t tb) := by
  fun_cases exportIn name exported s t tb with
  | case1 | case2 => exact Acts.refl a s
  | case3 i found e held =>
    have here : slotAt s t i = some e := by rw [slotAt_eq used, held]
    have plain :=
      acts_slot (k := i) s.nextStr tb.count (some { e with exported }) [] env used le_rfl
      fun strings => ?_
    · simpa using plain
    · have different := strings.name_ne_value here
      refine ⟨?_, by simp, by simp⟩
      intro entry same
      cases same
      exact ⟨different, fun id member => .inr (source_slot here member)⟩

end

theorem frames_withTable {op : State → Nat → Table → State}
    (same : ∀ s t tb, (op s t tb).frames = s.frames)
    (s : State) (a : Nat) : (withTable s a op).frames = s.frames := by
  fun_cases withTable s a op with
  | case3 t _ tb => exact same s t tb
  | _ => rfl

theorem frames_exportIn (s : State) (a : Nat) (name : Text) (exported : Bool) :
    (withTable s a (exportIn name exported)).frames = s.frames :=
  frames_withTable (fun s t tb => by fun_cases exportIn name exported s t tb <;> rfl) s a

theorem frames_envUnset (s : State) (a : Nat) (name : Text) :
    (envUnset s a name).frames = s.frames :=
  frames_withTable (fun s t tb => by fun_cases unsetIn name s t tb <;> rfl) s a

theorem acts_withTable (op : State → Nat → Table → State)
    (acts : ∀ t tb, envOf s a = some t → s.tables t = some tb → Acts a s (op s t tb)) :
    Acts a s (withTable s a op) := by
  fun_cases withTable s a op with
  | case1 => exact Acts.refl a s
  | case2 t env gone =>
    have same : ∀ p, holds { s with fault := true } p = holds s p := fun p => by cases p <;> rfl
    exact { Acts.refl a s with
      fault := fun live => absurd gone (live t env)
      held := fun _ p id own held => .inr ⟨p, own, same p ▸ held⟩
      strings :=
        fun before => before.fewer (fun _ _ _ slot => slot) (fun _ _ _ saved => saved) rfl rfl }
  | case3 t env tb used => exact acts t tb env used

theorem acts_envUnset (a : Nat) (s : State) (name : Text) : Acts a s (envUnset s a name) :=
  acts_withTable _ fun _ _ env used => acts_unsetIn env used name

theorem change_move {e : Option Entry} {sv : Option Saved} {k i count m x y : Nat} (one two : Place)
    (used : s.tables t = some tb) (running : s.frames f = some fr) (different : x ≠ y)
    (source : ∀ id, id = x ∨ id = y → ∃ p, (slotPlace t k p ∨ savedPlace f i p) ∧
      holds s p = some id)
    (after : ∀ p id, (slotPlace t k p ∨ savedPlace f i p) →
      holds (setSaved (setSlot s t tb k e count) f fr i sv m) p = some id → p = one ∧
      id = x ∨ p = two ∧ id = y) :
    Change s (setSaved (setSlot s t tb k e count) f fr i sv m)
    (fun p => slotPlace t k p ∨ savedPlace f i p) [] := by
  refine ⟨?_, le_rfl, ?_, ?_, by simp [setSaved, setSlot, setTable], by simp, by simp⟩
  · intro p outside
    simp only [slotPlace, savedPlace, not_or] at outside
    rw [holds_move used running, if_neg outside.1.1, if_neg outside.1.2, if_neg outside.2.1,
      if_neg outside.2.2]
  · intro p id moves held
    exact .inr (source id ((after p id moves held).imp And.right And.right))
  · intro p q id first second held also
    rcases after p id first held with ⟨rfl, same⟩ | ⟨rfl, same⟩ <;>
      rcases after q id second also with ⟨rfl, equal⟩ | ⟨rfl, equal⟩
    · rfl
    · exact absurd (same.symm.trans equal) different
    · exact absurd (equal.symm.trans same) different
    · rfl

section

variable (running : s.frames f = some fr) (own : fr.session = a)

include running own

theorem acts_detach (env : envOf s a = some t) (used : s.tables t = some tb) {i : Nat} {e : Entry}
    (held : tb.v i = some e) : Acts a s (detach f fr s t tb i e) := by
  have here : slotAt s t i = some e := by rw [slotAt_eq used, held]
  refine acts_move env used running own fun strings => ?_
  refine change_move (.savedName f fr.n) (.savedValue f fr.n) used running
    (strings.name_ne_value here) ?_ ?_
  · rintro id (rfl | rfl)
    · exact ⟨.name t i, .inl (.inl rfl), by simp [holds, here]⟩
    · exact ⟨.value t i, .inl (.inr rfl), by simp [holds, here]⟩
  · intro p id moves held
    rw [holds_move used running] at held
    rcases moves with (rfl | rfl) | (rfl | rfl) <;> simp at held
    · exact .inl ⟨rfl, held.symm⟩
    · exact .inr ⟨rfl, held.symm⟩

theorem acts_dropSaved (i m : Nat) : Acts a s (setSaved s f fr i none m) := by
  have plain := acts_saved (i := i) s.nextStr m none [] running own le_rfl
    fun _ => ⟨(fun entry same => by cases same), by simp, by simp⟩
  simpa using plain

theorem acts_attachIn (env : envOf s a = some t) (used : s.tables t = some tb)
    {i : Nat} {sv : Saved} {value : Str}
    (held : fr.saved i = some sv) (valued : sv.value = some value) (exported : Bool) :
    Acts a s (attachIn f fr i sv.name value exported s t tb) := by
  have here : savedAt s f i = some sv := by rw [savedAt_eq running, held]
  have name_held : holds s (.savedName f i) = some sv.name.id := by simp [holds, here]
  have value_held : holds s (.savedValue f i) = some value.id := by simp [holds, here, valued]
  fun_cases attachIn f fr i sv.name value exported s t tb with
  | case1 => exact acts_dropSaved running own i fr.n
  | case2 k free =>
    refine acts_move env used running own fun strings => ?_
    have different : sv.name.id ≠ value.id := by
      intro same
      exact Place.noConfusion (strings.unique _ _ _ name_held (same ▸ value_held))
    refine change_move (.name t k) (.value t k) used running different ?_ ?_
    · rintro id (rfl | rfl)
      · exact ⟨.savedName f i, .inr (.inl rfl), name_held⟩
      · exact ⟨.savedValue f i, .inr (.inr rfl), value_held⟩
    · intro p id moves held
      rw [holds_move used running] at held
      rcases moves with (rfl | rfl) | (rfl | rfl) <;> simp at held
      · exact .inl ⟨rfl, held.symm⟩
      · exact .inr ⟨rfl, held.symm⟩

theorem acts_remember (name : Text) : Acts a s (remember f fr s name) := by
  have plain := acts_saved (i := fr.n) (s.nextStr + 1) (fr.n + 1)
    (some ⟨⟨s.nextStr, name⟩, none, false, false⟩) [] running own (Nat.le_succ _) fun _ => ?_
  · simpa [remember] using plain
  · refine ⟨?_, by simp, by simp⟩
    intro entry same
    cases same
    exact ⟨rfl, le_rfl, Nat.lt_succ_self _⟩

theorem acts_forget {i : Nat} {sv : Saved}
    (held : fr.saved i = some sv) (m : Nat) {ids : List Nat}
    (some_of : ids.Sublist (savedStrs sv)) :
    Acts a s (setSaved (freeStrs s ids) f fr i none m) := by
  have here : savedAt s f i = some sv := by rw [savedAt_eq running, held]
  have name_held : holds s (.savedName f i) = some sv.name.id := by simp [holds, here]
  refine acts_saved s.nextStr m none ids running own le_rfl fun strings =>
    ⟨(fun entry same => by cases same), ?_, ?_⟩
  · refine List.Nodup.sublist some_of ?_
    unfold savedStrs
    cases valued : sv.value with
    | none => simp
    | some value =>
      have value_held : holds s (.savedValue f i) = some value.id := by simp [holds, here, valued]
      have different : sv.name.id ≠ value.id := fun same =>
        Place.noConfusion (strings.unique _ _ _ name_held (same ▸ value_held))
      simpa using different
  · intro id member
    refine ⟨?_, (fun entry same => by cases same)⟩
    have among := some_of.subset member
    unfold savedStrs at among
    rcases List.mem_cons.mp among with rfl | value
    · exact ⟨.savedName f i, .inl rfl, name_held⟩
    · refine ⟨.savedValue f i, .inr rfl, ?_⟩
      simpa [holds, here] using value

theorem acts_shadow {u : State} {name : Text} {mem : Mem}
    (stored : shadow s a f fr name mem = some u) : Acts a s u := by
  have new : ∀ v, (if mem.saved then some (remember f fr s name) else none) = some v →
      Acts a s v := by
    intro v made
    obtain ⟨-, ⟨⟩⟩ := Option.ite_none_right_eq_some.mp made
    exact acts_remember running own name
  revert stored
  fun_cases shadow s a f fr name mem with
  | case1 | case3 => exact new u
  | case2 t env gone =>
    rintro ⟨⟩
    have faulted := acts_withTable (s := s) (a := a) (fun s _ _ => s) fun _ _ _ _ => Acts.refl a s
    simpa [withTable, env, gone] using faulted
  | case4 t env tb used =>
    intro stored
    obtain ⟨e, held, rfl⟩ := Option.map_eq_some_iff.mp stored
    exact acts_detach running own env used held

theorem acts_scopeKeep (name : Text) : Acts a s (scopeKeep s a f fr name) := by
  fun_cases scopeKeep s a f fr name with
  | case1 | case2 => exact Acts.refl a s
  | case3 i _ sv held =>
    have flags : Acts a s (withTable s a (exportIn name (sv.existed && sv.exported))) :=
      acts_withTable _ fun _ _ env used => acts_exportIn env used name _
    have still : (withTable s a (exportIn name (sv.existed && sv.exported))).frames f =
        some fr := by
      rw [frames_exportIn, running]
    exact flags.trans (acts_forget still own held fr.n (List.Sublist.refl _))

theorem acts_undo (i : Nat) : Acts a s (undo a f s i) := by
  unfold undo
  rw [running]
  dsimp only
  split
  · exact Acts.refl a s
  · rename_i sv held
    have unset := acts_envUnset a s sv.name.text
    have still : (envUnset s a sv.name.text).frames f = some fr := by rw [frames_envUnset, running]
    split
    · rename_i value _ valued
      split
      · exact unset.trans (acts_dropSaved still own i fr.n)
      · exact unset.trans (acts_withTable _ fun _ _ env used =>
          acts_attachIn still own env used held valued sv.exported)
    · refine unset.trans (acts_forget still own held fr.n ?_)
      exact (List.nil_sublist _).cons_cons _

end

theorem acts_undo_all (own : (s.frames f).map (·.session) = some a) (places : List Nat) :
    Acts a s (places.foldl (undo a f) s) := by
  induction places generalizing s with
  | nil => exact Acts.refl a s
  | cons i places ih =>
    obtain ⟨fr, running, session⟩ := Option.map_eq_some_iff.mp own
    have first := acts_undo running session i
    exact first.trans (ih (by rw [first.lines f, own]))

end Operations

end Espix.Shell.EnvTables
