import Espix.Lib.Run

/-! Thread-specific data of `user/libespix/pthread.c`. A call is one step, and so is a turn of the
loop that runs the destructors, between which any thread may go on. A thread that is created has no
values, as one that is not created yet. -/

namespace Espix.User.Specific

open Lib.Run

def keysMax : Nat := 32
def dtorRounds : Nat := 4

/-- A place of `s_key_used` and `s_key_dtor`, with the number of the creation that took it last. -/
structure Key where
  used : Bool
  dtor : Option Nat
  made : Nat

/-- A pointer that is not NULL, with the creation of its key when it was stored. -/
structure Stored where
  value : Nat
  made : Nat

inductive Phase
  | running
  /-- The round and the key of `run_destructors`, and whether the round has called one. -/
  | leaving (round k : Nat) (any : Bool)
  | gone
  deriving DecidableEq

structure State where
  keys : Nat → Key
  values : Nat → Nat → Option Stored
  phase : Nat → Phase
  created : Nat
  /-- The destructors that were called: the key as it was, and the value. -/
  calls : List (Key × Stored)

def boot : State := ⟨fun _ => ⟨false, none, 0⟩, fun _ _ => none, fun _ => .running, 0, []⟩

inductive Event
  | create (dtor : Option Nat)
  | delete (k : Nat)
  | set (t k : Nat) (v : Option Nat)
  | exit (t : Nat)
  | turn (t : Nat)

def State.free (s : State) : Option Nat := (List.range keysMax).find? fun k => !(s.keys k).used

def State.setKey (s : State) (k : Nat) (key : Key) : State :=
  { s with keys := fun j => if j = k then key else s.keys j }

def State.store (s : State) (t k : Nat) (v : Option Stored) : State :=
  { s with values := fun u j => if u = t ∧ j = k then v else s.values u j }

def State.enter (s : State) (t : Nat) (phase : Phase) : State :=
  { s with phase := fun u => if u = t then phase else s.phase u }

def getspecific (s : State) (t k : Nat) : Option Stored :=
  if k < keysMax then s.values t k else none

def State.turn (s : State) (t round k : Nat) (any : Bool) : State :=
  if k < keysMax then
    match s.values t k, (s.keys k).dtor with
    | some v, some _ =>
      { (s.store t k none).enter t (.leaving round (k + 1) true) with calls := (s.keys k,
        v) :: s.calls }
    | _, _ => s.enter t (.leaving round (k + 1) any)
  else if any && round + 1 < dtorRounds then s.enter t (.leaving (round + 1) 0 false)
  else { s.enter t .gone with values := fun u j => if u = t then none else s.values u j }

def step (s : State) : Event → Option State
  | .create dtor =>
    match s.free with
    | none => some s
    | some k => some { s.setKey k ⟨true, dtor, s.created + 1⟩ with created := s.created + 1 }
  | .delete k => some (if k < keysMax then s.setKey k ⟨false, none, (s.keys k).made⟩ else s)
  | .set t k v =>
    if s.phase t = .gone then none
    else if k < keysMax ∧ (s.keys k).used then some (s.store t k (v.map (⟨·, (s.keys k).made⟩)))
    else some s
  | .exit t => if s.phase t = .running then some (s.enter t (.leaving 0 0 false)) else none
  | .turn t =>
    match s.phase t with
    | .leaving round k any => some (s.turn t round k any)
    | _ => none

/-- A key is deleted when no thread has a value under it. -/
def Tidy (s : State) : Event → Prop
  | .delete k => ∀ t, s.values t k = none
  | _ => True

/-- A destructor is registered, and was called, only while its key is there. -/
structure Sound (s : State) : Prop where
  dtors : ∀ k, (s.keys k).dtor ≠ none → (s.keys k).used = true
  calls : ∀ c ∈ s.calls, c.1.used = true

/-- Where there is a value its key is there, and the value was stored under the key's creation. -/
structure Current (s : State) : Prop where
  values : ∀ t k v, s.values t k = some v → (s.keys k).used = true ∧ v.made = (s.keys k).made
  calls : ∀ c ∈ s.calls, c.2.made = c.1.made

variable {s u : State} {e : Event} {es : List Event} {k : Nat}

theorem Sound.setKey (sound : Sound s) {key : Key} (there : key.dtor ≠ none →
    key.used = true) (k : Nat) :
    Sound (s.setKey k key) where
  dtors j := by
    have := sound.dtors j
    simp only [State.setKey]
    grind
  calls := sound.calls

theorem sound_step (sound : Sound s) (next : step s e = some u) : Sound u := by
  revert next
  fun_cases step s e with
  | case2 dtor k =>
    rintro ⟨⟩
    have registered : Sound (s.setKey k ⟨true, dtor, s.created + 1⟩) :=
      sound.setKey (fun _ => rfl) k
    exact { registered with }
  | case3 k =>
    rintro ⟨⟩
    split
    · exact sound.setKey (fun registered => absurd rfl registered) k
    · exact sound
  | case9 t round k any =>
    rintro ⟨⟩
    fun_cases State.turn s t round k any with
    | case1 _ v _ dtor =>
        exact ⟨sound.dtors, List.forall_mem_cons.mpr ⟨sound.dtors k (by simp [dtor]), sound.calls⟩⟩
    | _ => exact { sound with }
  | case4 | case8 | case10 => exact nofun
  | _ =>
    rintro ⟨⟩
    exact { sound with }

section

variable (current : Current s)

include current

theorem Current.unheld (free : s.free = some k) (t : Nat) : s.values t k = none := by
  have unused := List.find?_some free
  cases got : s.values t k with
  | none => rfl
  | some v => simp [(current.values t k v got).1] at unused

theorem Current.setKey (unheld : ∀ t, s.values t k = none) (key : Key) :
    Current (s.setKey k key) where
  values t j v got := by
    have apart : j ≠ k := by
      rintro rfl
      cases got.symm.trans (unheld t)
    simpa only [State.setKey, if_neg apart] using current.values t j v got
  calls := current.calls

theorem Current.store {v : Option Stored} (own : ∀ w, v = some w → (s.keys k).used = true ∧
    w.made = (s.keys k).made)
    (t : Nat) : Current (s.store t k v) where
  values u j w := by
    have := current.values u j w
    simp only [State.store]
    grind
  calls := current.calls

theorem current_step (tidy : Tidy s e) (next : step s e = some u) : Current u := by
  revert next
  fun_cases step s e with
  | case2 dtor k free =>
    rintro ⟨⟩
    exact { current.setKey (current.unheld free) ⟨true, dtor, s.created + 1⟩ with }
  | case3 k =>
    rintro ⟨⟩
    split
    · exact current.setKey tidy _
    · exact current
  | case5 t k v _ used =>
    rintro ⟨⟩
    refine current.store (fun w stored => ⟨used.2, ?_⟩) t
    obtain ⟨_, -, rfl⟩ := Option.map_eq_some_iff.mp stored
    rfl
  | case9 t round k any =>
    rintro ⟨⟩
    fun_cases State.turn s t round k any with
    | case1 _ v _ _ got =>
      exact ⟨(current.store (v := none) nofun t).values,
        List.forall_mem_cons.mpr ⟨(current.values t k v got).2, current.calls⟩⟩
    | case4 =>
        exact ⟨fun u j w got => current.values u j w (Option.ite_none_left_eq_some.mp got).2,
          current.calls⟩
    | _ => exact { current with }
  | case4 | case8 | case10 => exact nofun
  | _ =>
    rintro ⟨⟩
    exact { current with }

end

/-- A destructor is called while its key is there. If every key is deleted when no thread has a
value under it, it is called with what was stored under its own creation, and no thread has a value
of an earlier one: not under a key that is there, and none under the one that is created next. -/
theorem specific_current (done : run step boot es = some s) :
    (∀ c ∈ s.calls, c.1.used = true) ∧ (Along step Tidy boot es →
      (∀ c ∈ s.calls, c.2.made = c.1.made) ∧
      (∀ t k v, getspecific s t k = some v → v.made = (s.keys k).made) ∧
      ∀ k, s.free = some k → ∀ t, getspecific s t k = none) := by
  refine ⟨(run_invariant (fun _ _ _ => sound_step) done ⟨nofun, nofun⟩).calls, fun tidy => ?_⟩
  have current := run_invariant_along (fun _ _ _ => current_step) tidy done ⟨nofun, nofun⟩
  refine ⟨current.calls, fun t k v got => ?_, fun k free t => ?_⟩
  · exact (current.values t k v (Option.ite_none_right_eq_some.mp got).2).2
  · simp [getspecific, current.unheld free t]

def oneValue : List Event := [.create (some 5), .set 0 0 (some 7), .exit 0, .turn 0]

theorem specific_current_one : ∃ s, run step boot oneValue = some s ∧
    s.calls = [(⟨true, some 5, 1⟩, ⟨7, 1⟩)] ∧
    ∀ c ∈ s.calls, c.2.made = c.1.made := by
  have done : run step boot oneValue = some _ := rfl
  exact ⟨_, done, rfl, ((specific_current done).2 (by simp [oneValue, Along, Tidy])).1⟩

/-- The key is deleted and created again before that: the new destructor gets the value of before.
-/
theorem specific_stale : ∃ s u, run step boot [.create (some 5), .set 0 0 (some 7),
    .delete 0, .create (some 6)] = some s ∧
    getspecific s 0 0 = some ⟨7, 1⟩ ∧ (s.keys 0).made = 2 ∧
    run step s [.exit 0, .turn 0] = some u ∧ u.calls = [(⟨true, some 6, 2⟩, ⟨7, 1⟩)] :=
  ⟨_, _, rfl, rfl, rfl, rfl, rfl⟩

end Espix.User.Specific
