import Mathlib.Data.List.Basic
import Mathlib.Tactic

/-! Counting the used places of a table, and choosing the best of its places.

A table is a function from places to what they hold. Writing one place changes a count by
what leaves it and what comes in. -/

namespace Espix.Lib.Tally

open Function

variable {α : Type*}

def tally (n : Nat) (table : Nat → Option α) (holds : α → Bool) : Nat :=
  (List.range n).countP fun i => (table i).any holds

theorem tally_succ (n : Nat) (table : Nat → Option α) (holds : α → Bool) :
    tally (n + 1) table holds = tally n table holds + ((table n).any holds).toNat := by
  cases counted : (table n).any holds <;>
    simp [tally, List.range_succ, List.countP_append, counted]

variable {n : Nat} {table : Nat → Option α} {holds : α → Bool}

theorem tally_congr {other : Nat → Option α}
    (same : ∀ i < n, (other i).any holds = (table i).any holds) :
    tally n other holds = tally n table holds := by
  refine List.countP_congr fun i member => ?_
  rw [same i (List.mem_range.mp member)]

theorem tally_update {i : Nat} (inside : i < n) (table : Nat → Option α) (entry : Option α)
    (holds : α → Bool) :
    tally n (Function.update table i entry) holds + ((table i).any holds).toNat =
      tally n table holds + (entry.any holds).toNat := by
  induction n with
  | zero => omega
  | succ n ih =>
    rw [tally_succ, tally_succ]
    by_cases last : i = n
    · subst last
      have below : tally i (update table i entry) holds = tally i table holds :=
        tally_congr fun j before => by rw [update_of_ne (Nat.ne_of_lt before)]
      rw [below, update_self]
      omega
    · have earlier := ih (by omega)
      rw [update_of_ne (Ne.symm last)]
      omega

theorem tally_update_same {entry : Option α} {i : Nat}
    (same : entry.any holds = (table i).any holds) (n : Nat) :
    tally n (Function.update table i entry) holds = tally n table holds := by
  refine tally_congr fun j _ => ?_
  by_cases here : j = i
  · rw [here, update_self, same]
  · rw [update_of_ne here]

theorem tally_eq_zero : tally n table holds = 0 ↔ ∀ i < n, (table i).any holds = false := by
  simp [tally, List.countP_eq_zero]

section Longest

def longer (size : Nat → Option Nat) (best : Nat × Nat) (i : Nat) : Nat × Nat :=
  match size i with
  | none => best
  | some n => if best.2 < n then (i, n) else best

theorem longer_cases (size : Nat → Option Nat) (best : Nat × Nat) (i : Nat) :
    longer size best i = best ∨ ∃ n, size i = some n ∧ best.2 < n ∧
    longer size best i = (i, n) := by
  unfold longer
  cases size i with
  | none => exact .inl rfl
  | some n =>
    by_cases more : best.2 < n
    · exact .inr ⟨n, rfl, more, if_pos more⟩
    · exact .inl (if_neg more)

theorem longest_place (size : Nat → Option Nat) (best : Nat × Nat) (places : List Nat) :
    (places.foldl (longer size) best).1 = best.1 ∨
      (places.foldl (longer size) best).1 ∈ places ∧
        size (places.foldl (longer size) best).1 ≠ none := by
  induction places generalizing best with
  | nil => exact .inl rfl
  | cons i places ih =>
    rw [List.foldl_cons]
    rcases longer_cases size best i with same | ⟨n, sized, _, next⟩
    · rw [same]
      exact (ih best).imp_right fun later => ⟨List.mem_cons_of_mem i later.1, later.2⟩
    · rw [next]
      rcases ih (i, n) with kept | later
      · rw [kept]
        exact .inr ⟨List.mem_cons_self, by simp [sized]⟩
      · exact .inr ⟨List.mem_cons_of_mem i later.1, later.2⟩

/-- A place that is not found can lose its number. Until the place found is reached, either
both searches stand at the same place or the longer one stands at the place that goes. -/
theorem longest_without {size other : Nat → Option Nat} {gone : Nat} (lost : other gone = none)
    (same : ∀ i, i ≠ gone → other i = size i) {places : List Nat} {best less : Nat × Nat}
    (start : less = best ∨ best.1 = gone ∧ less.2 ≤ best.2)
    (found : (places.foldl (longer size) best).1 ≠ gone) :
    places.foldl (longer other) less = places.foldl (longer size) best := by
  induction places generalizing best less with
  | nil =>
    rcases start with equal | ⟨at_gone, _⟩
    · exact equal
    · exact absurd at_gone found
  | cons i places ih =>
    refine ih ?_ found
    by_cases here : i = gone
    · subst here
      have stays : longer other less i = less := by simp [longer, lost]
      rw [stays]
      rcases longer_cases size best i with kept | ⟨n, _, more, next⟩
      · rw [kept]
        exact start
      · rw [next]
        rcases start with equal | ⟨_, shorter⟩
        · exact .inr ⟨rfl, by rw [equal]; exact more.le⟩
        · exact .inr ⟨rfl, shorter.trans more.le⟩
    · rcases start with equal | ⟨at_gone, shorter⟩
      · exact .inl (by rw [equal, longer, longer, same i here])
      · simp only [longer, same i here]
        cases size i with
        | none => exact .inr ⟨at_gone, shorter⟩
        | some n =>
          by_cases more : best.2 < n
          · exact .inl (by simp [more, shorter.trans_lt more])
          · refine .inr ?_
            dsimp only
            rw [if_neg more]
            refine ⟨at_gone, ?_⟩
            split
            · exact not_lt.mp more
            · exact shorter

end Longest

end Espix.Lib.Tally
