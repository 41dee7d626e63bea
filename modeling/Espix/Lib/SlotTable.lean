import Mathlib.Data.List.Basic
import Mathlib.Data.Nat.ModEq
import Mathlib.Tactic.Ring

/-! A table whose slots are used in turn, each under a number.

A turn overwrites the next slot, round and round, and the number it puts there is counted
modulo some bound. Zero marks a slot that was never used. A number stands for one value
as long as it does not come round again. -/

namespace Espix.Lib.SlotTable

structure Slot (α : Type*) where
  id : Nat
  val : α
  deriving DecidableEq, Repr

variable {α : Type*}

def lookup (slots : List (Slot α)) (id : Nat) : Option α :=
  (slots.find? (·.id == id)).map (·.val)

def holder [DecidableEq α] (slots : List (Slot α)) (v : α) : Option (Slot α) :=
  slots.find? fun slot => slot.id != 0 && slot.val == v

def put (slots : List (Slot α)) (turn id : Nat) (v : α) : List (Slot α) :=
  slots.set (turn % slots.length) ⟨id, v⟩

/-- Every used slot is as the last turn that was its own left it. -/
def InTurn (left : Nat → Slot α → Prop) (slots : List (Slot α)) (turns : Nat) : Prop :=
  ∀ i slot, slots[i]? = some slot → slot.id ≠ 0 → ∃ turn,
    turn < turns ∧ turns ≤ turn + slots.length ∧ turn % slots.length = i ∧ left turn slot

def Numbered (modulus : Nat) : List (Slot α) → Nat → Prop :=
  InTurn fun turn slot => slot.id = (turn + 1) % modulus

def Only (slots : List (Slot α)) (id : Nat) (v : α) : Prop :=
  ∀ slot ∈ slots, slot.id = id → slot.val = v

section Numbers

variable {modulus : Nat} {turn later : Nat}

theorem next_number_ne (after : turn < later) (before : later < turn + modulus) :
    (later + 1) % modulus ≠ (turn + 1) % modulus := by
  intro same
  have gap : (later - turn) % modulus = 0 := by
    have shifted : (turn + 1) + (later - turn) ≡ (turn + 1) + 0 [MOD modulus] := by
      rw [show turn + 1 + (later - turn) = later + 1 by omega]
      exact same
    exact Nat.ModEq.add_left_cancel' _ shifted
  rw [Nat.mod_eq_of_lt (by omega)] at gap
  omega

end Numbers

variable {slot : Slot α} {left : Nat → Slot α → Prop}

section Table

variable {slots : List (Slot α)} {modulus turns id : Nat} {v : α}

@[simp] theorem length_put (slots : List (Slot α)) (turn id : Nat) (v : α) :
    (put slots turn id v).length = slots.length :=
  List.length_set

theorem mem_put {turn : Nat} (member : slot ∈ put slots turn id v) : slot ∈ slots ∨
    slot = ⟨id, v⟩ :=
  List.mem_or_eq_of_mem_set member

theorem getElem?_put (slots : List (Slot α)) (turn id : Nat) (v : α) (i : Nat) :
    (put slots turn id v)[i]? =
      if turn % slots.length = i then (if i < slots.length then some ⟨id, v⟩ else none)
      else slots[i]? := by
  rw [put, List.getElem?_set]
  split
  · rename_i here
    rw [here]
  · rfl

theorem InTurn.unused (unused : ∀ slot ∈ slots, slot.id = 0) : InTurn left slots turns := by
  intro i slot here used
  exact absurd (unused slot (List.mem_of_getElem? here)) used

theorem InTurn.put (in_turn : InTurn left slots turns)
    (now : left turns ⟨id, v⟩) : InTurn left (put slots turns id v) (turns + 1) := by
  intro i slot here used
  rw [getElem?_put] at here
  rw [length_put]
  split at here
  · rename_i own
    split at here
    · cases here
      exact ⟨turns, by omega, by omega, own, now⟩
    · cases here
  · rename_i other
    obtain ⟨turn, before, recent, own, as_left⟩ := in_turn i slot here used
    -- a slot whose last turn is a whole round ago would be the one taken now
    have not_due : turns ≠ turn + slots.length := by
      intro due
      apply other
      rw [due, Nat.add_mod_right, own]
    exact ⟨turn, by omega, by omega, own, as_left⟩

theorem Numbered.put (numbered : Numbered modulus slots turns) :
    Numbered modulus (put slots turns ((turns + 1) % modulus) v) (turns + 1) :=
  InTurn.put numbered rfl

theorem Numbered.unique (numbered : Numbered modulus slots turns) (room : slots.length ≤ modulus)
    {i j : Nat} {a b : Slot α} (at_i : slots[i]? = some a) (at_j : slots[j]? = some b)
    (used : a.id ≠ 0) (same : a.id = b.id) : i = j := by
  obtain ⟨m, m_before, m_recent, rfl, m_number⟩ := numbered i a at_i used
  obtain ⟨n, n_before, n_recent, rfl, n_number⟩ := numbered j b at_j (same ▸ used)
  rcases Nat.lt_trichotomy m n with less | equal | more
  · exact absurd (n_number ▸ m_number ▸ same.symm) (next_number_ne less (by omega))
  · rw [equal]
  · exact absurd (n_number ▸ m_number ▸ same) (next_number_ne more (by omega))

theorem Only.lookup (only : Only slots id v) : lookup slots id = none ∨
    lookup slots id = some v := by
  rw [SlotTable.lookup]
  cases found : slots.find? (·.id == id) with
  | none => exact .inl rfl
  | some slot =>
    have named : slot.id = id := by simpa using List.find?_some found
    right
    rw [Option.map_some, only slot (List.mem_of_find?_eq_some found) named]

theorem Only.lookup_mem (only : Only slots id v) (present : ⟨id, v⟩ ∈ slots) :
    SlotTable.lookup slots id = some v := by
  rcases only.lookup with missing | same
  · rw [SlotTable.lookup, Option.map_eq_none_iff, List.find?_eq_none] at missing
    exact absurd (beq_self_eq_true id) (missing _ present)
  · exact same

theorem Only.put {turn other : Nat} {w : α} (only : Only slots id v) (differs : other ≠ id) :
    Only (put slots turn other w) id v := by
  intro slot member named
  rcases mem_put member with old | rfl
  · exact only slot old named
  · exact absurd named differs

theorem Numbered.only_put (numbered : Numbered modulus slots turns)
    (room : slots.length ≤ modulus) (used : (turns + 1) % modulus ≠ 0) :
    Only (SlotTable.put slots turns ((turns + 1) % modulus) v) ((turns + 1) % modulus) v := by
  intro slot member named
  obtain ⟨i, here⟩ := List.mem_iff_getElem?.mp member
  have after := Numbered.put (v := v) numbered
  have inside : i < slots.length := by
    rw [← length_put slots turns ((turns + 1) % modulus) v]
    exact (List.getElem?_eq_some_iff.mp here).1
  have own := getElem?_put slots turns ((turns + 1) % modulus) v (turns % slots.length)
  rw [if_pos rfl, if_pos (Nat.mod_lt _ (by omega))] at own
  have same := after.unique (by rwa [length_put]) own here used named.symm
  rw [← same, own] at here
  cases here
  rfl

theorem holder_spec [DecidableEq α] (held : holder slots v = some slot) :
    slot ∈ slots ∧ slot.id ≠ 0 ∧ slot.val = v := by
  have matching := List.find?_some held
  rw [Bool.and_eq_true, bne_iff_ne, beq_iff_eq] at matching
  exact ⟨List.mem_of_find?_eq_some held, matching⟩

/-- The number of a slot that holds a value stands for that value, and for no other until
it comes round. -/
theorem Numbered.only_holder [DecidableEq α] (numbered : Numbered modulus slots turns)
    (room : slots.length ≤ modulus) (held : holder slots v = some slot) :
    Only slots slot.id v ∧ slot.id ≠ 0 ∧
      ∃ turn, turn < turns ∧ turns ≤ turn + slots.length ∧ slot.id = (turn + 1) % modulus := by
  obtain ⟨member, used, value⟩ := holder_spec held
  obtain ⟨i, here⟩ := List.mem_iff_getElem?.mp member
  refine ⟨?_, used, ?_⟩
  · intro other member named
    obtain ⟨j, there⟩ := List.mem_iff_getElem?.mp member
    have same := numbered.unique room here there used named.symm
    rw [same, there] at here
    cases here
    exact value
  · obtain ⟨turn, before, recent, -, number⟩ := numbered i slot here used
    exact ⟨turn, before, recent, number⟩

end Table

end Espix.Lib.SlotTable
