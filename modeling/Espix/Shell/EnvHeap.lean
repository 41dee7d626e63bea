import Espix.Shell.Env

/-! The strings of the variable tables: each is held in one place, and freed once.

An operation of a session moves strings between the table of the session and the scopes of its
lines, makes new ones, and frees what it takes out. -/

namespace Espix.Shell.EnvHeap

open Env

inductive Place
  | name (t k : Nat)
  | value (t k : Nat)
  | savedName (f i : Nat)
  | savedValue (f i : Nat)
  deriving DecidableEq

def holds (s : State) : Place → Option Nat
  | .name t k => (slotAt s t k).map (·.name.id)
  | .value t k => (slotAt s t k).map (·.value.id)
  | .savedName f i => (savedAt s f i).map (·.name.id)
  | .savedValue f i => (savedAt s f i).bind fun sv => sv.value.map (·.id)

def mine (s : State) (a : Nat) : Place → Prop
  | .name t _ => envOf s a = some t
  | .value t _ => envOf s a = some t
  | .savedName f _ => (s.frames f).map (·.session) = some a
  | .savedValue f _ => (s.frames f).map (·.session) = some a

structure Strings (s : State) : Prop where
  unique : ∀ p q id, holds s p = some id → holds s q = some id → p = q
  bound : ∀ p id, holds s p = some id → id < s.nextStr
  freed_bound : ∀ id ∈ s.freedStrs, id < s.nextStr
  freed_once : s.freedStrs.Nodup
  gone : ∀ p id, holds s p = some id → id ∉ s.freedStrs

def Source (s u : State) (places : Place → Prop) (id : Nat) : Prop :=
  (s.nextStr ≤ id ∧ id < u.nextStr) ∨ ∃ q, places q ∧ holds s q = some id

/-- Some places change; what they hold then and what is freed has a source. -/
structure Change (s u : State) (places : Place → Prop) (new : List Nat) : Prop where
  same : ∀ p, ¬ places p → holds u p = holds s p
  grow : s.nextStr ≤ u.nextStr
  source : ∀ p id, places p → holds u p = some id → Source s u places id
  apart : ∀ p q id, places p → places q → holds u p = some id → holds u q = some id → p = q
  freed : u.freedStrs = s.freedStrs ++ new
  nodup : new.Nodup
  released : ∀ id ∈ new, Source s u places id ∧ ∀ p, places p → holds u p ≠ some id

theorem Strings.change {s u : State} {places : Place → Prop} {new : List Nat} (strings : Strings s)
    (change : Change s u places new) : Strings u := by
  -- A string with a source is in no place that stays, and was not freed before.
  have elsewhere : ∀ id, Source s u places id → ∀ p, ¬ places p → holds s p ≠ some id := by
    intro id source p stays held
    rcases source with ⟨fresh, _⟩ | ⟨q, changes, also⟩
    · exact absurd (strings.bound p id held) (Nat.not_lt.mpr fresh)
    · exact stays (strings.unique p q id held also ▸ changes)
  have unfreed : ∀ id, Source s u places id → id ∉ s.freedStrs := by
    intro id source member
    rcases source with ⟨fresh, _⟩ | ⟨q, _, also⟩
    · exact absurd (strings.freed_bound id member) (Nat.not_lt.mpr fresh)
    · exact strings.gone q id also member
  have below : ∀ id, Source s u places id → id < u.nextStr := by
    intro id source
    rcases source with ⟨_, less⟩ | ⟨q, _, also⟩
    · exact less
    · exact (strings.bound q id also).trans_le change.grow
  refine ⟨?_, ?_, ?_, ?_, ?_⟩
  · intro p q id first second
    by_cases moves : places p <;> by_cases also : places q
    · exact change.apart p q id moves also first second
    · rw [change.same q also] at second
      exact absurd second (elsewhere id (change.source p id moves first) q also)
    · rw [change.same p moves] at first
      exact absurd first (elsewhere id (change.source q id also second) p moves)
    · rw [change.same p moves] at first
      rw [change.same q also] at second
      exact strings.unique p q id first second
  · intro p id held
    by_cases moves : places p
    · exact below id (change.source p id moves held)
    · rw [change.same p moves] at held
      exact (strings.bound p id held).trans_le change.grow
  · intro id member
    rw [change.freed] at member
    rcases List.mem_append.mp member with old | fresh
    · exact (strings.freed_bound id old).trans_le change.grow
    · exact below id (change.released id fresh).1
  · rw [change.freed]
    refine List.Nodup.append strings.freed_once change.nodup ?_
    intro id old fresh
    exact unfreed id (change.released id fresh).1 old
  · intro p id held member
    rw [change.freed] at member
    by_cases moves : places p
    · rcases List.mem_append.mp member with old | fresh
      · exact unfreed id (change.source p id moves held) old
      · exact (change.released id fresh).2 p moves held
    · rw [change.same p moves] at held
      rcases List.mem_append.mp member with old | fresh
      · exact strings.gone p id held old
      · exact elsewhere id (change.released id fresh).1 p moves held

theorem Strings.fewer {s u : State} (strings : Strings s)
    (slots : ∀ t k e, slotAt u t k = some e → slotAt s t k = some e)
    (scopes : ∀ f i sv, savedAt u f i = some sv → savedAt s f i = some sv)
    (next : u.nextStr = s.nextStr)
    (freed : u.freedStrs = s.freedStrs) : Strings u := by
  have fewer (p : Place) (id : Nat) (held : holds u p = some id) : holds s p = some id := by
    cases p with
    | name t k | value t k =>
      obtain ⟨e, slot, same⟩ := Option.map_eq_some_iff.mp held
      exact Option.map_eq_some_iff.mpr ⟨e, slots t k e slot, same⟩
    | savedName f i =>
      obtain ⟨sv, saved, same⟩ := Option.map_eq_some_iff.mp held
      exact Option.map_eq_some_iff.mpr ⟨sv, scopes f i sv saved, same⟩
    | savedValue f i =>
      obtain ⟨sv, saved, same⟩ := Option.bind_eq_some_iff.mp held
      exact Option.bind_eq_some_iff.mpr ⟨sv, scopes f i sv saved, same⟩
  refine ⟨fun p q id first second => strings.unique p q id (fewer p id first) (fewer q id second),
    ?_, ?_, ?_, ?_⟩
  · rw [next]
    exact fun p id held => strings.bound p id (fewer p id held)
  · rw [next, freed]
    exact strings.freed_bound
  · rw [freed]
    exact strings.freed_once
  · rw [freed]
    exact fun p id held => strings.gone p id (fewer p id held)

/-- What an operation of a session does to the tables, the scopes and the strings. -/
structure Acts (a : Nat) (s u : State) : Prop where
  sessions : u.sessions = s.sessions
  nextTable : u.nextTable = s.nextTable
  freedTables : u.freedTables = s.freedTables
  fault : (∀ t, envOf s a = some t → s.tables t ≠ none) → u.fault = s.fault
  tables : ∀ t, envOf s a ≠ some t → u.tables t = s.tables t
  there : ∀ t, (u.tables t).isSome = (s.tables t).isSome
  lines : ∀ f, (u.frames f).map (·.session) = (s.frames f).map (·.session)
  frames : ∀ f, (s.frames f).map (·.session) ≠ some a → u.frames f = s.frames f
  grow : s.nextStr ≤ u.nextStr
  held : Strings s → ∀ p id, mine s a p → holds u p = some id →
    s.nextStr ≤ id ∨ ∃ q, mine s a q ∧ holds s q = some id
  strings : Strings s → Strings u
  freed : Strings s → ∃ new, u.freedStrs = s.freedStrs ++ new ∧
    ∀ id ∈ new, s.nextStr ≤ id ∨ ∃ q, mine s a q ∧ holds s q = some id

section Acts

variable {a : Nat} {s u v : State}

theorem Acts.refl (a : Nat) (s : State) : Acts a s s where
  sessions := rfl
  nextTable := rfl
  freedTables := rfl
  fault _ := rfl
  tables _ _ := rfl
  there _ := rfl
  lines _ := rfl
  frames _ _ := rfl
  grow := le_rfl
  held _ p _ mine held := .inr ⟨p, mine, held⟩
  strings := id
  freed _ := ⟨[], by simp, by simp⟩

theorem Acts.envOf (acts : Acts a s u) (b : Nat) : Env.envOf u b = Env.envOf s b := by
  rw [Env.envOf, Env.envOf, acts.sessions]

theorem Acts.mine (acts : Acts a s u) (b : Nat) (p : Place) : EnvHeap.mine u b p ↔
    EnvHeap.mine s b p := by
  cases p <;> simp only [EnvHeap.mine, acts.envOf b, acts.lines]

theorem Acts.trans (first : Acts a s u) (second : Acts a u v) : Acts a s v where
  sessions := second.sessions.trans first.sessions
  nextTable := second.nextTable.trans first.nextTable
  freedTables := second.freedTables.trans first.freedTables
  fault live := by
    rw [second.fault, first.fault live]
    intro t here gone
    rw [first.envOf a] at here
    have still := first.there t
    rw [gone] at still
    exact live t here (by simpa using still.symm)
  tables t other := by
    rw [second.tables t (by rw [first.envOf a]; exact other), first.tables t other]
  there t := (second.there t).trans (first.there t)
  lines f := (second.lines f).trans (first.lines f)
  frames f other := by
    rw [second.frames f (by rw [first.lines f]; exact other), first.frames f other]
  grow := first.grow.trans second.grow
  held strings p id own held := by
    rcases second.held (first.strings strings) p id ((first.mine a p).mpr own) held with fresh | ⟨q,
      also, earlier⟩
    · exact .inl (first.grow.trans fresh)
    · exact first.held strings q id ((first.mine a q).mp also) earlier
  strings before := second.strings (first.strings before)
  freed strings := by
    obtain ⟨new, wrote, old⟩ := first.freed strings
    obtain ⟨more, wrote_more, late⟩ := second.freed (first.strings strings)
    refine ⟨new ++ more, by rw [wrote_more, wrote, List.append_assoc], ?_⟩
    intro id member
    rcases List.mem_append.mp member with early | later
    · exact old id early
    · rcases late id later with fresh | ⟨q, also, held⟩
      · exact .inl (first.grow.trans fresh)
      · exact first.held strings q id ((first.mine a q).mp also) held

theorem acts_of_change (places : Place → Prop) (new : List Nat) (sessions : u.sessions = s.sessions)
    (nextTable : u.nextTable = s.nextTable) (freedTables : u.freedTables = s.freedTables)
    (fault : u.fault = s.fault) (tables : ∀ t, envOf s a ≠ some t → u.tables t = s.tables t)
    (there : ∀ t, (u.tables t).isSome = (s.tables t).isSome)
    (lines : ∀ f, (u.frames f).map (·.session) = (s.frames f).map (·.session))
    (frames : ∀ f, (s.frames f).map (·.session) ≠ some a → u.frames f = s.frames f)
    (grow : s.nextStr ≤ u.nextStr) (own : ∀ p, places p → mine s a p)
    (change : Strings s → Change s u places new) : Acts a s u where
  sessions := sessions
  nextTable := nextTable
  freedTables := freedTables
  fault _ := fault
  tables := tables
  there := there
  lines := lines
  frames := frames
  grow := grow
  held strings p id mine held := by
    have changed := change strings
    by_cases moves : places p
    · rcases changed.source p id moves held with ⟨fresh, _⟩ | ⟨q, also, earlier⟩
      · exact .inl fresh
      · exact .inr ⟨q, own q also, earlier⟩
    · rw [changed.same p moves] at held
      exact .inr ⟨p, mine, held⟩
  strings before := before.change (change before)
  freed strings := by
    refine ⟨new, (change strings).freed, fun id member => ?_⟩
    rcases ((change strings).released id member).1 with ⟨fresh, _⟩ | ⟨q, also, earlier⟩
    · exact .inl fresh
    · exact .inr ⟨q, own q also, earlier⟩

end Acts

section Places

variable {a t k f i : Nat} {s : State} {tb : Table} {fr : Frame}

theorem slotAt_eq (used : s.tables t = some tb) (k : Nat) : slotAt s t k = tb.v k := by
  simp [slotAt, used]

theorem savedAt_eq (running : s.frames f = some fr) (i : Nat) : savedAt s f i = fr.saved i := by
  simp [savedAt, running]

theorem slotAt_setSlot (used : s.tables t = some tb) (e : Option Entry) (count t' k' : Nat) :
    slotAt (setSlot s t tb k e count) t' k' = if t' = t ∧ k' = k then e else slotAt s t' k' := by
  by_cases table : t' = t
  · subst table
    by_cases place : k' = k
    · simp [slotAt, setSlot, setTable, place]
    · simp [slotAt, setSlot, setTable, place, used]
  · simp [slotAt, setSlot, setTable, table]

theorem savedAt_setSaved (running : s.frames f = some fr) (sv : Option Saved) (n f' i' : Nat) :
    savedAt (setSaved s f fr i sv n) f' i' = if f' = f ∧ i' = i then sv else savedAt s f' i' := by
  by_cases line : f' = f
  · subst line
    by_cases place : i' = i
    · simp [savedAt, setSaved, place]
    · simp [savedAt, setSaved, place, running]
  · simp [savedAt, setSaved, line]

theorem holds_setSlot (used : s.tables t = some tb) (e : Option Entry) (count : Nat) (p : Place) :
    holds (setSlot s t tb k e count) p =
      if p = .name t k then e.map (·.name.id) else if p = .value t k then
      e.map (·.value.id) else holds s p := by
  cases p with
  | name t' k' =>
    simp only [holds, slotAt_setSlot used, Place.name.injEq, reduceCtorEq, if_false]
    split <;> rfl
  | value t' k' =>
    simp only [holds, slotAt_setSlot used, Place.value.injEq, reduceCtorEq, if_false]
    split <;> rfl
  | savedName f i | savedValue f i => rfl

theorem holds_setSaved (running : s.frames f = some fr) (sv : Option Saved) (n : Nat) (p : Place) :
    holds (setSaved s f fr i sv n) p =
      if p = .savedName f i then sv.map (·.name.id)
      else if p = .savedValue f i then sv.bind fun x => x.value.map (·.id)
      else holds s p := by
  cases p with
  | name t k | value t k => rfl
  | savedName f' i' =>
    simp only [holds, savedAt_setSaved running, Place.savedName.injEq, reduceCtorEq, if_false]
    split <;> rfl
  | savedValue f' i' =>
    simp only [holds, savedAt_setSaved running, Place.savedValue.injEq, reduceCtorEq, if_false]
    split <;> rfl

def slotPlace (t k : Nat) (p : Place) : Prop := p = .name t k ∨ p = .value t k

def savedPlace (f i : Nat) (p : Place) : Prop := p = .savedName f i ∨ p = .savedValue f i

theorem mine_slot (env : envOf s a = some t) (k : Nat) {p : Place} (here : slotPlace t k p) :
    mine s a p := by
  rcases here with rfl | rfl <;> exact env

theorem mine_saved (running : s.frames f = some fr) (own : fr.session = a) (i : Nat) {p : Place}
    (here : savedPlace f i p) : mine s a p := by
  rcases here with rfl | rfl <;> simp [mine, running, own]

theorem Strings.name_ne_value (strings : Strings s) {e : Entry} (held : slotAt s t k = some e) :
    e.name.id ≠ e.value.id := by
  intro same
  have first : holds s (.name t k) = some e.name.id := by simp [holds, held]
  have second : holds s (.value t k) = some e.name.id := by simp [holds, held, same]
  exact Place.noConfusion (strings.unique _ _ _ first second)

theorem Strings.slot_bound (strings : Strings s) {e : Entry} (held : slotAt s t k = some e) :
    e.name.id < s.nextStr ∧ e.value.id < s.nextStr :=
  ⟨strings.bound (.name t k) _ (by simp [holds, held]),
    strings.bound (.value t k) _ (by simp [holds, held])⟩

theorem source_slot {e : Entry} {id : Nat} (held : slotAt s t k = some e)
    (member : id ∈ [e.name.id, e.value.id]) :
    ∃ p, slotPlace t k p ∧ holds s p = some id := by
  simp only [List.mem_cons, List.not_mem_nil, or_false] at member
  rcases member with rfl | rfl
  · exact ⟨.name t k, .inl rfl, by simp [holds, held]⟩
  · exact ⟨.value t k, .inr rfl, by simp [holds, held]⟩

theorem acts_slot (n count : Nat) (e : Option Entry) (new : List Nat) (env : envOf s a = some t)
    (used : s.tables t = some tb) (grow : s.nextStr ≤ n)
    (fits : Strings s →
      (∀ entry, e = some entry → entry.name.id ≠ entry.value.id ∧
        ∀ id ∈ [entry.name.id, entry.value.id],
        (s.nextStr ≤ id ∧ id < n) ∨ ∃ p, slotPlace t k p ∧ holds s p = some id) ∧
      new.Nodup ∧
      ∀ id ∈ new, ((s.nextStr ≤ id ∧ id < n) ∨ ∃ p, slotPlace t k p ∧ holds s p = some id) ∧
        ∀ entry, e = some entry → id ≠ entry.name.id ∧ id ≠ entry.value.id) :
    Acts a s (setSlot { s with nextStr := n, freedStrs := s.freedStrs ++ new } t tb k e count) := by
  have writes :=
    holds_setSlot (k := k)
    (s := { s with nextStr := n, freedStrs := s.freedStrs ++ new }) used e count
  have now : ∀ p id, slotPlace t k p →
      holds (setSlot { s with nextStr := n, freedStrs := s.freedStrs ++ new } t tb k e count) p =
      some id →
      ∃ entry, e = some entry ∧ (p = .name t k ∧ id = entry.name.id ∨ p = .value t k ∧
          id = entry.value.id) := by
    intro p id here held
    rw [writes] at held
    rcases here with rfl | rfl <;>
      simp only [reduceCtorEq, if_true, if_false, Option.map_eq_some_iff] at held <;>
      obtain ⟨entry, written, same⟩ := held
    · exact ⟨entry, written, .inl ⟨rfl, same.symm⟩⟩
    · exact ⟨entry, written, .inr ⟨rfl, same.symm⟩⟩
  refine acts_of_change (slotPlace t k) new rfl rfl rfl rfl ?_ ?_ (fun _ => rfl)
    (fun _ _ => rfl) grow (fun p => mine_slot env k) fun strings => ⟨?_, grow, ?_, ?_, rfl, ?_, ?_⟩
  · intro t' other
    have apart : t' ≠ t := fun same => other (same ▸ env)
    simp [setSlot, setTable, apart]
  · intro t'
    by_cases here : t' = t <;> simp [setSlot, setTable, here, used]
  · intro p outside
    rw [writes, if_neg fun same => outside (.inl same), if_neg fun same => outside (.inr same)]
    cases p <;> rfl
  · intro p id here held
    obtain ⟨entry, written, which⟩ := now p id here held
    refine ((fits strings).1 entry written).2 id ?_
    rcases which with ⟨_, same⟩ | ⟨_, same⟩ <;> simp [same]
  · intro p q id first second held also
    obtain ⟨entry, written, which⟩ := now p id first held
    obtain ⟨other, again, whose⟩ := now q id second also
    rw [written, Option.some.injEq] at again
    subst again
    have different := ((fits strings).1 entry written).1
    rcases which with ⟨rfl, same⟩ | ⟨rfl, same⟩ <;> rcases whose with ⟨rfl, equal⟩ | ⟨rfl, equal⟩
    · rfl
    · exact absurd (same.symm.trans equal) different
    · exact absurd (equal.symm.trans same) different
    · rfl
  · exact (fits strings).2.1
  · intro id member
    obtain ⟨source, elsewhere⟩ := (fits strings).2.2 id member
    refine ⟨source, fun p here held => ?_⟩
    obtain ⟨entry, written, which⟩ := now p id here held
    rcases which with ⟨_, same⟩ | ⟨_, same⟩
    · exact (elsewhere entry written).1 same
    · exact (elsewhere entry written).2 same

theorem acts_saved (n m : Nat) (sv : Option Saved) (new : List Nat) (running : s.frames f = some fr)
    (own : fr.session = a) (grow : s.nextStr ≤ n)
    (fits : Strings s →
      (∀ entry, sv = some entry → entry.value = none ∧ s.nextStr ≤ entry.name.id ∧
        entry.name.id < n) ∧
      new.Nodup ∧ ∀ id ∈ new, (∃ p, savedPlace f i p ∧ holds s p = some id) ∧
        ∀ entry, sv = some entry → id ≠ entry.name.id) :
    Acts a s (setSaved { s with nextStr := n, freedStrs := s.freedStrs ++ new } f fr i sv m) := by
  have writes :=
    holds_setSaved (i := i)
    (s := { s with nextStr := n, freedStrs := s.freedStrs ++ new }) running sv m
  have now : Strings s → ∀ p id, savedPlace f i p →
      holds (setSaved { s with nextStr := n, freedStrs := s.freedStrs ++ new } f fr i sv m) p =
      some id →
      p = .savedName f i ∧ ∃ entry, sv = some entry ∧ id = entry.name.id := by
    intro strings p id here held
    rw [writes] at held
    rcases here with rfl | rfl
    · simp only [if_true, Option.map_eq_some_iff] at held
      obtain ⟨entry, written, same⟩ := held
      exact ⟨rfl, entry, written, same.symm⟩
    · simp only [reduceCtorEq, if_true, if_false, Option.bind_eq_some_iff] at held
      obtain ⟨entry, written, value⟩ := held
      rw [((fits strings).1 entry written).1] at value
      cases value
  refine acts_of_change (savedPlace f i) new rfl rfl rfl rfl (fun _ _ => rfl)
    (fun _ => rfl) ?_ ?_ grow
    (fun p => mine_saved running own i) fun strings => ⟨?_, grow, ?_, ?_, rfl, ?_, ?_⟩
  · intro f'
    by_cases here : f' = f <;> simp [setSaved, here, running]
  · intro f' other
    have apart : f' ≠ f := by
      intro here
      rw [here, running] at other
      exact other (by simp [own])
    simp [setSaved, apart]
  · intro p outside
    rw [writes, if_neg fun same => outside (.inl same), if_neg fun same => outside (.inr same)]
    cases p <;> rfl
  · intro p id here held
    obtain ⟨_, entry, written, rfl⟩ := now strings p id here held
    exact .inl ((fits strings).1 entry written).2
  · intro p q id first second held also
    exact (now strings p id first held).1.trans (now strings q id second also).1.symm
  · exact (fits strings).2.1
  · intro id member
    obtain ⟨source, elsewhere⟩ := (fits strings).2.2 id member
    refine ⟨.inr source, fun p here held => ?_⟩
    obtain ⟨_, entry, written, same⟩ := now strings p id here held
    exact elsewhere entry written same

theorem acts_move {count m : Nat} {e : Option Entry} {sv : Option Saved} (env : envOf s a = some t)
    (used : s.tables t = some tb) (running : s.frames f = some fr) (own : fr.session = a)
    (change : Strings s → Change s (setSaved (setSlot s t tb k e count) f fr i sv m)
      (fun p => slotPlace t k p ∨ savedPlace f i p) []) :
    Acts a s (setSaved (setSlot s t tb k e count) f fr i sv m) := by
  refine acts_of_change (fun p => slotPlace t k p ∨
    savedPlace f i p) [] rfl rfl rfl rfl ?_ ?_ ?_ ?_ le_rfl
    (fun p here => here.elim (mine_slot env k) (mine_saved running own i)) change
  · intro t' other
    have apart : t' ≠ t := fun same => other (same ▸ env)
    simp [setSaved, setSlot, setTable, apart]
  · intro t'
    by_cases here : t' = t <;> simp [setSaved, setSlot, setTable, here, used]
  · intro f'
    by_cases here : f' = f <;> simp [setSaved, setSlot, setTable, here, running]
  · intro f' other
    have apart : f' ≠ f := by
      intro here
      rw [here, running] at other
      exact other (by simp [own])
    simp [setSaved, setSlot, setTable, apart]

theorem holds_move (used : s.tables t = some tb) (running : s.frames f = some fr) (e : Option Entry)
    (sv : Option Saved) (count m : Nat) (p : Place) :
    holds (setSaved (setSlot s t tb k e count) f fr i sv m) p =
      if p = .name t k then e.map (·.name.id)
      else if p = .value t k then e.map (·.value.id)
      else if p = .savedName f i then sv.map (·.name.id)
      else if p = .savedValue f i then sv.bind fun x => x.value.map (·.id)
      else holds s p := by
  rw [holds_setSaved (s := setSlot s t tb k e count) running, holds_setSlot used]
  cases p <;> simp

end Places

end Espix.Shell.EnvHeap
