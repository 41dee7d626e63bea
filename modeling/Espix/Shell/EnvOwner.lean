import Espix.Shell.EnvTables

/-! Whose a variable table is.

A table has one owner as long as no session record is copied that has one. A copy that makes a
table of its own takes it along when it ends or is hung up. -/

namespace Espix.Shell.EnvOwner

open Function Env EnvHeap EnvTables Lib.Run

def Alone (s : State) : Prop := ∀ a b t, envOf s a = some t → envOf s b = some t → a = b

/-- A table that was made is some session's, or was freed once and is nobody's. -/
def FreedOnce (s : State) : Prop :=
  ∀ t < s.nextTable, s.freedTables.count t = 0 ∧ (∃ a, envOf s a = some t) ∨
    s.freedTables.count t = 1 ∧ ∀ a, envOf s a ≠ some t

def through (s : State) : Event → Option Nat
  | .login _ => none
  | .set a _ _ _ _ => some a
  | .unset a _ => some a
  | .begin a _ => some a
  | .scopeSet f _ _ _ => (s.frames f).map (·.session)
  | .scopeKeep f _ => (s.frames f).map (·.session)
  | .scopeEnd f => (s.frames f).map (·.session)
  | .copy _ _ => none
  | .finish _ => none
  | .hangup .. => none
  | .logout a => some a

/-- What the other sessions have is as it was, and none of their strings is freed. -/
structure Spares (a : Nat) (s u : State) : Prop where
  env : ∀ b, b ≠ a → envOf u b = envOf s b
  tables : ∀ b t, b ≠ a → envOf s b = some t → u.tables t = s.tables t
  frames : ∀ b f, b ≠ a → (s.frames f).map (·.session) = some b → u.frames f = s.frames f
  freed : ∃ new, u.freedStrs = s.freedStrs ++ new ∧
    ∀ b p id, b ≠ a → mine s b p → holds s p = some id → id ∉ new

structure Separate (s : State) : Prop where
  alone : Alone s
  once : FreedOnce s
  spares : ∀ e a u, through s e = some a → step s e = some u → Spares a s u

def handles (s : State) : Event → Nat → Prop
  | .copy a _ => fun b => b = a
  | .finish a => fun b => b = a
  | .hangup a left => fun b => gone s a left b = true
  | _ => fun _ => False

/-- No copy is made of a session that has a table, and none that has one ends. -/
def Unshared (s : State) (e : Event) : Prop :=
  ∀ u, step s e = some u → ∀ b, handles s e b → envOf s b = none

/-- The tables that sessions reach are there, and the books are straight. -/
structure Apart (s : State) : Prop where
  strings : Strings s
  alone : Alone s
  once : FreedOnce s
  there : ∀ a t, envOf s a = some t → s.tables t ≠ none ∧ t < s.nextTable
  unmade : ∀ t, s.nextTable ≤ t → s.tables t = none ∧ t ∉ s.freedTables
  sane : s.fault = false

/-- What an operation through a session does where every table has one owner. -/
def Works (a : Nat) (s u : State) : Prop := Apart s → Apart u ∧ Spares a s u

variable {b : Nat} {p : Place}

section Composition

variable {a : Nat} {s u v : State}

theorem Spares.refl (a : Nat) (s : State) : Spares a s s :=
  ⟨fun _ _ => rfl, fun _ _ _ _ => rfl, fun _ _ _ _ => rfl, [], by simp, by simp⟩

theorem Spares.place (spares : Spares a s u) (other : b ≠ a) (own : mine s b p) :
    mine u b p ∧ holds u p = holds s p := by
  cases p with
  | name t k | value t k =>
    exact ⟨(spares.env b other).trans own, by
      simp only [holds, slotAt, spares.tables b t other own]⟩
  | savedName f i | savedValue f i =>
    have same := spares.frames b f other own
    exact ⟨by rw [mine, same]; exact own, by simp only [holds, savedAt, same]⟩

theorem Spares.trans (first : Spares a s u) (second : Spares a u v) : Spares a s v where
  env b other := (second.env b other).trans (first.env b other)
  tables b t other env := by
    rw [second.tables b t other ((first.env b other).trans env), first.tables b t other env]
  frames b f other own := by
    have same := first.frames b f other own
    rw [second.frames b f other (by rw [same, own]), same]
  freed := by
    obtain ⟨new, wrote, kept⟩ := first.freed
    obtain ⟨more, wrote_more, kept_more⟩ := second.freed
    refine ⟨new ++ more, by rw [wrote_more, wrote, List.append_assoc], ?_⟩
    intro b p id other own held
    obtain ⟨still, same⟩ := first.place other own
    rw [List.mem_append, not_or]
    exact ⟨kept b p id other own held, kept_more b p id other still (same.trans held)⟩

theorem Works.refl (a : Nat) (s : State) : Works a s s := fun apart => ⟨apart, Spares.refl a s⟩

theorem Works.trans (first : Works a s u) (second : Works a u v) : Works a s v := by
  intro apart
  obtain ⟨between, spares⟩ := first apart
  obtain ⟨after, more⟩ := second between
  exact ⟨after, spares.trans more⟩

end Composition

variable {x : Option Session} {fr : Frame}

section Operations

variable {a f : Nat} {s u : State}

/-- What becomes of a session's table: it stays, is made or is freed. -/
inductive Turn (a : Nat) (s u : State) : Prop
  | stays (env : envOf u a = envOf s a) (next : u.nextTable = s.nextTable)
      (freed : u.freedTables = s.freedTables)
      (there : ∀ t, u.tables t = none ↔ s.tables t = none)
  | made (before : envOf s a = none) (env : envOf u a = some s.nextTable)
      (next : u.nextTable = s.nextTable + 1)
      (freed : u.freedTables = s.freedTables) (there : ∀ t, u.tables t = none ↔ t ≠ s.nextTable ∧
        s.tables t = none)
  | freed (t : Nat) (before : envOf s a = some t) (env : envOf u a = none)
      (next : u.nextTable = s.nextTable)
      (freed : u.freedTables = s.freedTables ++ [t])
      (there : ∀ t', u.tables t' = none ↔ t' = t ∨ s.tables t' = none)

theorem Apart.change (apart : Apart s) (strings : Strings u) (sane : u.fault = s.fault)
    (others : ∀ b, b ≠ a → envOf u b = envOf s b) (turn : Turn a s u) : Apart u := by
  obtain ⟨-, alone, once, there, unmade, fault⟩ := apart
  simp only [Alone, FreedOnce] at alone once
  refine ⟨strings, ?_, ?_, ?_, ?_, sane.trans fault⟩
  · cases turn <;> unfold Alone <;> grind
  · cases turn <;> unfold FreedOnce <;> grind
  · cases turn <;> grind
  · cases turn <;> grind

theorem Apart.acts (apart : Apart s) (acts : Acts a s u) : Apart u := by
  refine apart.change (acts.strings apart.strings) (acts.fault fun t env => (apart.there a t env).1)
    (fun b _ => acts.envOf b) (.stays (acts.envOf a) acts.nextTable acts.freedTables fun t => ?_)
  rw [← Option.not_isSome_iff_eq_none, ← Option.not_isSome_iff_eq_none, acts.there t]

theorem Apart.whose (apart : Apart s) (own : mine s a p) (also : mine s b p) : a = b := by
  cases p with
  | name t k | value t k => exact apart.alone a b t own also
  | savedName f i | savedValue f i => exact Option.some.inj (own.symm.trans also)

theorem works_acts (acts : Acts a s u) : Works a s u := by
  intro apart
  refine ⟨apart.acts acts, fun b _ => acts.envOf b, ?_, ?_, ?_⟩
  · intro b t other env
    exact acts.tables t fun also => other (apart.alone b a t env also)
  · intro b f other own
    refine acts.frames f fun also => other ?_
    exact Option.some.inj (own.symm.trans also)
  · obtain ⟨new, wrote, sources⟩ := acts.freed apart.strings
    refine ⟨new, wrote, ?_⟩
    intro b p id other theirs held member
    rcases sources id member with fresh | ⟨q, own, also⟩
    · exact absurd (apart.strings.bound p id held) (Nat.not_lt.mpr fresh)
    · have same := apart.strings.unique p q id held also
      subst same
      exact other (apart.whose theirs own)

theorem Apart.of_same (apart : Apart s) (envs : ∀ b, envOf u b = envOf s b)
    (tables : u.tables = s.tables)
    (next : u.nextTable = s.nextTable) (freed : u.freedTables = s.freedTables)
    (fault : u.fault = s.fault)
    (fewer : ∀ f i sv, savedAt u f i = some sv → savedAt s f i = some sv)
    (strs : u.nextStr = s.nextStr)
    (released : u.freedStrs = s.freedStrs) : Apart u := by
  refine apart.change (a := 0)
    (apart.strings.fewer (fun t k e held => ?_) fewer strs released) fault
    (fun b _ => envs b) (.stays (envs 0) next freed fun t => by rw [tables])
  rwa [slotAt, tables] at held

theorem envOf_update (set : u.sessions = Function.update s.sessions a x) (b : Nat) :
    envOf u b = if b = a then x.bind (·.env) else envOf s b := by
  by_cases here : b = a <;> simp [envOf, set, here]

theorem works_record (same : x.bind (·.env) = envOf s a) :
    Works a s { s with sessions := update s.sessions a x } := by
  intro apart
  have envs : ∀ b, envOf { s with sessions := update s.sessions a x } b = envOf s b := by
    intro b
    rw [envOf_update rfl]
    split
    · rename_i here
      rw [here, same]
    · rfl
  refine ⟨apart.of_same envs rfl rfl rfl rfl (fun _ _ _ saved => saved) rfl rfl, fun b _ => envs b,
    fun _ _ _ _ => rfl, fun _ _ _ _ => rfl, [], (List.append_nil _).symm, by simp⟩

theorem works_frame (fr : Option Frame) (own : ∀ b, (s.frames f).map (·.session) = some b → b = a)
    (empty : ∀ i, (fr.bind fun fr => fr.saved i) = none) :
    Works a s { s with frames := update s.frames f fr } := by
  intro apart
  refine ⟨apart.of_same (fun _ => rfl) rfl rfl rfl rfl ?_ rfl rfl, fun _ _ => rfl,
    fun _ _ _ _ => rfl, ?_, [],
    (List.append_nil _).symm, by simp⟩
  · intro g i sv saved
    by_cases here : g = f
    · simp [savedAt, here, empty] at saved
    · simpa [savedAt, here] using saved
  · intro b g other theirs
    have elsewhere : g ≠ f := fun here => other (own b (here ▸ theirs))
    simp [elsewhere]

theorem works_setLines (s : State) (a : Nat) (change : Nat → Nat) :
    Works a s (setLines s a change) := by
  refine works_record ?_
  cases found : s.sessions a <;> simp [envOf, found]

theorem works_alloc {x : Session} (found : s.sessions a = some x) (first : x.env = none)
    (sessions : u.sessions = Function.update s.sessions a (some { x with env := some s.nextTable }))
    (tables : u.tables = update s.tables s.nextTable (some emptyTable))
    (next : u.nextTable = s.nextTable + 1) (frames : u.frames = s.frames)
      (strs : u.nextStr = s.nextStr)
    (freed : u.freedTables = s.freedTables) (released : u.freedStrs = s.freedStrs)
    (fault : u.fault = s.fault) : Works a s u := by
  intro apart
  have none_yet : envOf s a = none := by simp [envOf, found, first]
  have envs : ∀ b, envOf u b = if b = a then some s.nextTable else envOf s b :=
    fun b => envOf_update sessions b
  have others : ∀ t, t ≠ s.nextTable → u.tables t = s.tables t := fun t other => by
    rw [tables, update_of_ne other]
  refine ⟨apart.change (apart.strings.fewer ?_ ?_ strs released) fault ?_
    (.made none_yet ?_ next freed ?_), ?_, ?_,
    fun _ _ _ _ => by rw [frames], [], by rw [released, List.append_nil], by simp⟩
  · intro t k e held
    by_cases here : t = s.nextTable
    · simp [slotAt, tables, here, emptyTable] at held
    · rwa [slotAt, others t here] at held
  · intro f i sv saved
    rwa [savedAt, frames] at saved
  · intro b other
    rw [envs, if_neg other]
  · rw [envs, if_pos rfl]
  · intro t
    by_cases here : t = s.nextTable
    · simp [tables, here]
    · simp [others t here, here]
  · intro b other
    rw [envs, if_neg other]
  · intro b t _ env
    exact others t (apart.there b t env).2.ne

theorem works_ensureTable (s : State) (a : Nat) (mem : Mem) : Works a s (ensureTable s a mem) := by
  unfold ensureTable
  split
  · exact Works.refl a s
  · rename_i x found
    split
    · rename_i first
      exact works_alloc found first.1 rfl rfl rfl rfl rfl rfl rfl rfl
    · exact Works.refl a s

theorem works_envSet (s : State) (a : Nat) (name value : Text) (exported : Bool) (mem : Mem) :
    Works a s (envSet s a name value exported mem) := by
  unfold envSet
  split
  · exact Works.refl a s
  · refine (works_ensureTable s a mem).trans (works_acts ?_)
    exact acts_withTable _ fun _ _ env used => acts_setIn env used name value exported mem

theorem works_scopeSet (running : s.frames f = some fr) (own : fr.session = a)
    (name value : Text) (mem : Mem) : Works a s (scopeSet s a f fr name value mem) := by
  unfold scopeSet
  split
  · exact Works.refl a s
  · split
    · exact Works.refl a s
    · rename_i u stored
      exact (works_acts (acts_shadow running own stored)).trans
        (works_envSet u a name value true mem)

theorem works_scopeEnd (running : s.frames f = some fr) (own : fr.session = a) :
    Works a s (scopeEnd s a f fr) := by
  have line : (s.frames f).map (·.session) = some a := by rw [running, Option.map_some, own]
  have undone := acts_undo_all line (List.range fr.n).reverse
  refine (works_acts undone).trans (works_frame none ?_ fun _ => rfl)
  intro b theirs
  rw [undone.lines f, line] at theirs
  exact (Option.some.inj theirs).symm

end Operations

section Free

variable {a t : Nat} {s : State} {tb : Table}

theorem mem_tableStrs {id : Nat} (used : s.tables t = some tb) (member : id ∈ tableStrs tb) :
    ∃ k p, slotPlace t k p ∧ holds s p = some id := by
  obtain ⟨k, _, here⟩ := List.mem_flatMap.mp member
  split at here
  · cases here
  · rename_i e held
    have slot : slotAt s t k = some e := by rw [slotAt_eq used, held]
    exact ⟨k, source_slot slot here⟩

theorem nodup_tableStrs (strings : Strings s) (used : s.tables t = some tb) :
    (tableStrs tb).Nodup := by
  unfold tableStrs
  refine List.nodup_flatMap.mpr ⟨?_, ?_⟩
  · intro k _
    split
    · exact List.nodup_nil
    · rename_i e held
      have slot : slotAt s t k = some e := by rw [slotAt_eq used, held]
      simpa using strings.name_ne_value slot
  · refine List.nodup_range.pairwise_of_forall_ne ?_
    intro k _ l _ different id here there
    dsimp only at here there
    split at here
    · cases here
    · rename_i e held
      split at there
      · cases there
      · rename_i e' held'
        have slot : slotAt s t k = some e := by rw [slotAt_eq used, held]
        have slot' : slotAt s t l = some e' := by rw [slotAt_eq used, held']
        obtain ⟨p, place, first⟩ := source_slot slot here
        obtain ⟨q, place', second⟩ := source_slot slot' there
        have same := strings.unique p q id first second
        subst same
        rcases place with rfl | rfl <;> rcases place' with same | same <;> cases same <;>
          exact different rfl

theorem works_release (env : envOf s a = some t) (used : s.tables t = some tb) :
    Works a s { s with
      sessions := update s.sessions a none
      tables := update s.tables t none
      freedTables := s.freedTables ++ [t]
      freedStrs := s.freedStrs ++ tableStrs tb } := by
  intro apart
  have emptied {u : State} (tables : u.tables = update s.tables t none) {p : Place}
    (here : ∃ k, slotPlace t k p) :
      holds u p = none := by
    obtain ⟨k, rfl | rfl⟩ := here <;> simp [holds, slotAt, tables]
  have others {b : Nat} (other : b ≠ a) {u : State} (sessions : u.sessions =
    update s.sessions a none) :
      envOf u b = envOf s b := by
    rw [envOf_update sessions, if_neg other]
  refine ⟨apart.change ?_ rfl (fun b other => others other rfl)
    (.freed t env ?_ rfl rfl fun t' => ?_),
    fun b other => others other rfl, fun b t' other theirs => ?_, fun _ _ _ _ => rfl,
    tableStrs tb, rfl, ?_⟩
  · suffices change : Change s _ (fun p => ∃ k, slotPlace t k p)
      (tableStrs tb) from apart.strings.change change
    refine ⟨?_, Nat.le_refl _, ?_, ?_, rfl, nodup_tableStrs apart.strings used, ?_⟩
    · intro p outside
      cases p with
      | name t' k =>
        have other : t' ≠ t := fun same => outside ⟨k, .inl (by rw [same])⟩
        simp only [holds, slotAt, update_of_ne other]
      | value t' k =>
        have other : t' ≠ t := fun same => outside ⟨k, .inr (by rw [same])⟩
        simp only [holds, slotAt, update_of_ne other]
      | savedName f i | savedValue f i => rfl
    · intro p id here held
      cases (emptied rfl here).symm.trans held
    · intro p q id here _ held
      cases (emptied rfl here).symm.trans held
    · intro id member
      obtain ⟨k, p, place, held⟩ := mem_tableStrs used member
      exact ⟨.inr ⟨p, ⟨k, place⟩, held⟩, fun q here also =>
        Option.some_ne_none id (also.symm.trans (emptied rfl here))⟩
  · rw [envOf_update rfl, if_pos rfl]
    rfl
  · by_cases here : t' = t <;> simp [here]
  · exact update_of_ne (fun (same : t' = t) => other (apart.alone b a t (same ▸ theirs) env)) _ _
  · intro b p id other theirs held member
    obtain ⟨k, q, place, also⟩ := mem_tableStrs used member
    have same := apart.strings.unique p q id held also
    subst same
    exact other (apart.whose theirs (mine_slot env k place))

theorem works_logout {x : Session} (found : s.sessions a = some x) :
    Works a s { envFree s a with sessions := update (envFree s a).sessions a none } := by
  unfold envFree
  simp only [found]
  split
  · rename_i bare
    exact works_record (by simp [envOf, found, bare])
  · rename_i t held
    have env : envOf s a = some t := by simp [envOf, found, held]
    split
    · rename_i unused
      intro apart
      exact absurd unused (apart.there a t env).1
    · rename_i tb used
      simpa [setTable, freeStrs] using works_release env used

end Free

section Runs

variable {s u : State} {e : Event}

theorem envOf_hangup (s : State) (a : Nat) (left : Nat → Bool) (b : Nat) :
    envOf (hangup s a left) b = if gone s a left b then none else envOf s b := by
  simp only [envOf, hangup]
  by_cases under : gone s a left b
  · simp [under]
  · by_cases own : b = a
    · subst own
      cases s.sessions b <;> simp [under]
    · simp [under, own]

theorem savedAt_hangup {a f i : Nat} {left : Nat → Bool} {sv : Saved}
    (saved : savedAt (hangup s a left) f i = some sv) : savedAt s f i = some sv := by
  simp only [savedAt, hangup] at saved ⊢
  split at saved
  · cases saved
  · exact saved

theorem works_step {a : Nat} (acting : through s e = some a) (next : step s e = some u) :
    Works a s u := by
  cases e with
  | login | copy | finish | hangup => cases acting
  | set b name value exported mem =>
    cases acting
    obtain ⟨x, found, rfl⟩ := Option.map_eq_some_iff.mp next
    exact works_envSet s a name value exported mem
  | unset b name =>
    cases acting
    obtain ⟨x, found, rfl⟩ := Option.map_eq_some_iff.mp next
    exact works_acts (acts_envUnset a s name)
  | begin b f =>
    cases acting
    simp only [step, Option.ite_none_left_eq_some, Bool.or_eq_true, not_or,
      Option.some.injEq] at next
    obtain ⟨⟨_, idle⟩, rfl⟩ := next
    have fresh : s.frames f = none := by simpa using idle
    refine (works_frame (some ⟨a, fun _ => none, 0⟩) ?_ fun _ => rfl).trans
      (works_setLines _ a (· + 1))
    intro c theirs
    rw [fresh] at theirs
    cases theirs
  | scopeSet f name value mem =>
    obtain ⟨fr, running, rfl⟩ := Option.map_eq_some_iff.mp next
    have own : fr.session = a := by simpa [through, running] using acting
    rw [own]
    exact works_scopeSet running own name value mem
  | scopeKeep f name =>
    obtain ⟨fr, running, rfl⟩ := Option.map_eq_some_iff.mp next
    have own : fr.session = a := by simpa [through, running] using acting
    rw [own]
    exact works_acts (acts_scopeKeep running own name)
  | scopeEnd f =>
    obtain ⟨fr, running, rfl⟩ := Option.map_eq_some_iff.mp next
    have own : fr.session = a := by simpa [through, running] using acting
    rw [own]
    exact (works_scopeEnd running own).trans (works_setLines _ a (· - 1))
  | logout b =>
    cases acting
    simp only [step, Option.ite_none_right_eq_some, Option.some.injEq] at next
    obtain ⟨done, rfl⟩ := next
    cases found : s.sessions a with
    | none => simp [found] at done
    | some x => exact works_logout found

theorem apart_step (apart : Apart s) (unshared : Unshared s e) (next : step s e = some u) :
    Apart u := by
  cases acting : through s e with
  | some a => exact (works_step acting next apart).1
  | none =>
    cases e with
    | login a =>
      simp only [step, Option.ite_none_left_eq_some, Option.some.injEq] at next
      obtain ⟨free, rfl⟩ := next
      have bare : envOf s a = none := by simp [envOf, Option.not_isSome_iff_eq_none.mp free]
      exact (works_record (by simp [bare]) apart).1
    | copy a b =>
      have original := unshared u next a rfl
      simp only [step, Option.ite_none_left_eq_some, Bool.or_eq_true, not_or] at next
      obtain ⟨⟨free, _⟩, copied⟩ := next
      obtain ⟨x, found, rfl⟩ := Option.map_eq_some_iff.mp copied
      have bare : envOf s b = none := by simp [envOf, Option.not_isSome_iff_eq_none.mp free]
      have none_there : x.env = none := by simpa [envOf, found] using original
      exact (works_record (by simp [bare, none_there]) apart).1
    | finish b =>
      have bare := unshared u next b rfl
      simp only [step, Option.ite_none_right_eq_some, Option.some.injEq] at next
      obtain ⟨_, rfl⟩ := next
      exact (works_record (by simp [bare]) apart).1
    | hangup a left =>
      have bare := unshared u next
      simp only [step, Option.ite_none_right_eq_some, Option.some.injEq] at next
      obtain ⟨_, rfl⟩ := next
      refine apart.of_same (fun b => ?_) rfl rfl rfl rfl (fun f i sv => savedAt_hangup) rfl rfl
      rw [envOf_hangup]
      split
      · rename_i under
        exact (bare b under).symm
      · rfl
    | scopeSet f name value mem | scopeKeep f name | scopeEnd f =>
      obtain ⟨fr, running, _⟩ := Option.map_eq_some_iff.mp next
      simp [through, running] at acting
    | _ => cases acting

theorem apart_start : Apart start := by
  have nothing {p : Place} {id : Nat} : holds start p ≠ some id := by
    cases p <;> rintro ⟨⟩
  refine ⟨⟨?_, ?_, (fun id member => by cases member), List.nodup_nil, ?_⟩, ?_, ?_, ?_, ?_, rfl⟩
  · exact fun p q id held => absurd held nothing
  · exact fun p id held => absurd held nothing
  · exact fun p id held => absurd held nothing
  · rintro a b t ⟨⟩
  · rintro t ⟨⟩
  · rintro a t ⟨⟩
  · exact fun t _ => ⟨rfl, List.not_mem_nil⟩

theorem Apart.separate (apart : Apart s) : Separate s :=
  ⟨apart.alone, apart.once, fun _ _ _ acting next => (works_step acting next apart).2⟩

theorem table_lost {t : Nat} (apart : Apart s) (once : FreedOnce u) (env : envOf s b = some t)
    (next : u.nextTable = s.nextTable) (freed : u.freedTables = s.freedTables)
    (gone : ∀ c, envOf u c = some t → c ≠ b ∧ envOf s c = some t) : False := by
  have made := (apart.there b t env).2
  rcases once t (next ▸ made) with ⟨_, c, theirs⟩ | ⟨one, _⟩
  · obtain ⟨other, before⟩ := gone c theirs
    exact other (apart.alone c b t before env)
  · rcases apart.once t made with ⟨zero, _⟩ | ⟨_, nobody⟩
    · rw [freed, zero] at one
      cases one
    · exact nobody b env

theorem unshared_of_separate (apart : Apart s) (separate : ∀ u, step s e = some u → Separate u) :
    Unshared s e := by
  intro u next b handled
  have after := separate u next
  by_contra held
  obtain ⟨t, env⟩ := Option.ne_none_iff_exists'.mp held
  cases e with
  | copy a c =>
    cases handled
    simp only [step, Option.ite_none_left_eq_some, Bool.or_eq_true, not_or] at next
    obtain ⟨⟨free, _⟩, copied⟩ := next
    obtain ⟨x, found, rfl⟩ := Option.map_eq_some_iff.mp copied
    have other : b ≠ c := by
      rintro rfl
      simp [found] at free
    refine other (after.alone b c t ?_ ?_)
    · rw [envOf_update rfl, if_neg other, env]
    · rw [envOf_update rfl, if_pos rfl]
      simpa [envOf, found] using env
  | finish a =>
    cases handled
    simp only [step, Option.ite_none_right_eq_some, Option.some.injEq] at next
    obtain ⟨_, rfl⟩ := next
    refine table_lost apart after.once env rfl rfl fun c theirs => ?_
    rw [envOf_update rfl] at theirs
    split at theirs
    · cases theirs
    · rename_i other
      exact ⟨other, theirs⟩
  | hangup a left =>
    simp only [step, Option.ite_none_right_eq_some, Option.some.injEq] at next
    obtain ⟨_, rfl⟩ := next
    refine table_lost apart after.once env rfl rfl fun c theirs => ?_
    rw [envOf_hangup] at theirs
    split at theirs
    · cases theirs
    · rename_i other
      exact ⟨fun same => other (same ▸ handled), theirs⟩
  | _ => exact handled

theorem tables_owned_iff (es : List Event) :
    Along step (fun s e => ∀ u, step s e = some u → Separate u) start es ↔
      Along step Unshared start es := by
  constructor
  · exact Along.imp (fun s e u apart separate next =>
      apart_step apart (unshared_of_separate apart separate) next)
      (fun s e apart separate => unshared_of_separate apart separate) apart_start
  · exact Along.imp (fun s e u apart unshared next => apart_step apart unshared next)
      (fun s e apart unshared u next => (apart_step apart unshared next).separate) apart_start

/-- A job that its shell started sets a variable, and the shell sees it. It unsets the variable, and
the shell has lost it. -/
theorem job_writes_the_shells_table :
    ∃ s u v, run step start [.login 0, .set 0 ['X'] ['1'] true full, .copy 0 1] = some s ∧
    ¬ Separate s ∧
      envGet (fun _ => none) s 0 ['X'] = some ['1'] ∧
      step s (.set 1 ['X'] ['2'] false full) = some u ∧
      envGet (fun _ => none) u 0 ['X'] = some ['2'] ∧ step u (.unset 1 ['X']) = some v ∧
      envGet (fun _ => none) v 0 ['X'] = none := by
  refine ⟨_, _, _, rfl, ?_, by decide +kernel, rfl, by decide +kernel, rfl, by decide +kernel⟩
  intro separate
  exact absurd (separate.alone 0 1 0 (by decide +kernel) (by decide +kernel)) (by decide)

end Runs

end Espix.Shell.EnvOwner
