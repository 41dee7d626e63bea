import Mathlib.Data.List.Basic
import Mathlib.Logic.Function.Basic

/-! Rings.

A sequence is written into so many cells, round and round. Of what was written the cells hold the
end, which is read back from any place that has not been written over. -/

namespace Espix.Lib.Ring

open Function

variable {α : Type*} {cap : Nat} {cells : Nat → α} {xs : List α}

def view (cap : Nat) (cells : Nat → α) (start count : Nat) : List α :=
  (List.range count).map fun i => cells ((start + i) % cap)

/-- The next items of a sequence of which so many were written. -/
def store (cap : Nat) (cells : Nat → α) (start : Nat) : List α → Nat → α
  | [] => cells
  | x :: xs => store cap (Function.update cells (start % cap) x) (start + 1) xs

def Holds (cap : Nat) (cells : Nat → α) (xs : List α) : Prop :=
  ∀ i x, xs[i]? = some x → xs.length ≤ i + cap → cells (i % cap) = x

theorem holds_nil : Holds cap cells [] := fun _ _ impossible => by simp at impossible

/-- Two positions less than a round apart are in different cells. -/
theorem cell_ne {i j : Nat} (before : i < j) (near : j < i + cap) : i % cap ≠ j % cap := by
  intro same
  have gap : (j - i) % cap = 0 := Nat.sub_mod_eq_zero_of_mod_eq same.symm
  rw [Nat.mod_eq_of_lt (by omega)] at gap
  omega

section

variable (holds : Holds cap cells xs)

include holds

theorem Holds.push (x : α) : Holds cap (Function.update cells (xs.length % cap) x) (xs ++ [x]) := by
  intro i y found near
  rw [List.length_append, List.length_singleton] at near
  rcases Nat.lt_or_ge i xs.length with inside | outside
  · rw [List.getElem?_append_left inside] at found
    rw [update_of_ne (cell_ne inside (by omega))]
    exact holds i y found (by omega)
  · have last : i = xs.length := by
      have bound := (List.getElem?_eq_some_iff.mp found).1
      rw [List.length_append, List.length_singleton] at bound
      omega
    rw [last, List.getElem?_concat_length, Option.some.injEq] at found
    rw [last, update_self, found]

theorem Holds.store (ys : List α) : Holds cap (store cap cells xs.length ys) (xs ++ ys) := by
  induction ys generalizing cells xs with
  | nil =>
    rw [List.append_nil]
    exact holds
  | cons y ys ih =>
    have next := ih (holds.push y)
    rwa [List.length_append, List.length_singleton, List.append_assoc,
      List.singleton_append] at next

theorem Holds.set {i : Nat} (inside : i < xs.length) (near : xs.length ≤ i + cap) (x : α) :
    Holds cap (Function.update cells (i % cap) x) (xs.set i x) := by
  intro j y found close
  rw [List.length_set] at close
  have bound := (List.getElem?_eq_some_iff.mp found).1
  rw [List.length_set] at bound
  rcases Nat.lt_trichotomy i j with before | same | after
  · rw [List.getElem?_set_ne (Nat.ne_of_lt before)] at found
    rw [update_of_ne (cell_ne before (by omega)).symm]
    exact holds j y found close
  · subst same
    rw [List.getElem?_set_self inside, Option.some.injEq] at found
    rw [update_self, found]
  · rw [List.getElem?_set_ne (Nat.ne_of_gt after)] at found
    rw [update_of_ne (cell_ne after (by omega))]
    exact holds j y found close

theorem Holds.set_far {i : Nat} (far : i + cap < xs.length) (x : α) :
    Holds cap cells (xs.set i x) := by
  intro j y found close
  rw [List.length_set] at close
  rw [List.getElem?_set_ne (by omega)] at found
  exact holds j y found close

end

theorem length_view (start count : Nat) : (view cap cells start count).length = count := by
  rw [view, List.length_map, List.length_range]

theorem Holds.view (holds : Holds cap cells xs) {start count : Nat}
    (written : start + count ≤ xs.length)
    (near : xs.length ≤ start + cap) : view cap cells start count = (xs.drop start).take count := by
  apply List.ext_getElem?
  intro i
  rcases Nat.lt_or_ge i count with inside | outside
  · have bound : start + i < xs.length := by omega
    rw [List.getElem?_take_of_lt inside, List.getElem?_drop, Ring.view, List.getElem?_map,
      List.getElem?_range inside,
      List.getElem?_eq_getElem bound, Option.map_some]
    exact congrArg some (holds (start + i) _ (List.getElem?_eq_getElem bound) (by omega))
  · rw [List.getElem?_take_eq_none outside, List.getElem?_eq_none]
    rw [length_view]
    exact outside

theorem view_mod {bound : Nat} (rounds : cap ∣ bound) (start count : Nat) :
    view cap cells (start % bound) count = view cap cells start count := by
  refine List.map_congr_left fun i _ => congrArg cells ?_
  rw [Nat.add_mod, Nat.mod_mod_of_dvd start rounds, ← Nat.add_mod]

theorem store_mod {bound : Nat} (rounds : cap ∣ bound) (start : Nat) (ys : List α) :
    store cap cells (start % bound) ys = store cap cells start ys := by
  have step (a b : Nat) (same : a % cap = b % cap) :
      store cap cells a ys = store cap cells b ys := by
    induction ys generalizing cells a b with
    | nil => rfl
    | cons y ys ih =>
      rw [store, store, same]
      refine ih (a + 1) (b + 1) ?_
      rw [Nat.add_mod, same, ← Nat.add_mod]
  exact step _ _ (Nat.mod_mod_of_dvd start rounds)

section Queue

variable {bound head tail : Nat}

/-- The cells between two counters that wrap hold a sequence. -/
def Queue (cap bound : Nat) (cells : Nat → α) (head tail : Nat) (xs : List α) : Prop :=
  ∃ past taken, Holds cap cells past ∧ head = past.length % bound ∧ tail = taken % bound ∧
    taken ≤ past.length ∧ past.length ≤ taken + cap ∧ xs = past.drop taken

theorem queue_empty (cap bound : Nat) (cells : Nat → α) (start : Nat) :
    Queue cap bound cells (start % bound) (start % bound) [] := by
  have length : ((List.range start).map fun i => cells (i % cap)).length = start := by
    rw [List.length_map, List.length_range]
  refine ⟨(List.range start).map fun i => cells (i % cap), start, ?_, by
    rw [length], rfl, Nat.le_of_eq length.symm, by omega,
    (List.drop_of_length_le (Nat.le_of_eq length)).symm⟩
  intro i x found _
  rw [List.getElem?_map, Option.map_eq_some_iff] at found
  obtain ⟨j, listed, rfl⟩ := found
  obtain ⟨inside, same⟩ := List.getElem?_eq_some_iff.mp listed
  rw [List.getElem_range] at same
  rw [same]

section

variable (queue : Queue cap bound cells head tail xs)

include queue

theorem Queue.used (small : cap < bound) : (head + bound - tail) % bound = xs.length := by
  obtain ⟨past, taken, -, rfl, rfl, least, most, rfl⟩ := queue
  obtain ⟨d, length⟩ := Nat.exists_eq_add_of_le least
  have below : taken % bound < bound := Nat.mod_lt _ (by omega)
  rw [List.length_drop, length, Nat.add_sub_cancel_left, ← Nat.mod_add_mod]
  generalize taken % bound = t at below
  rcases Nat.lt_or_ge (t + d) bound with near | far
  · rw [Nat.mod_eq_of_lt near, show t + d + bound - t = d + bound by
      omega, Nat.add_mod_right, Nat.mod_eq_of_lt (by omega)]
  · have once : (t + d) % bound = t + d - bound := by
      rw [Nat.mod_eq_sub_mod far, Nat.mod_eq_of_lt (by omega)]
    rw [once, show t + d - bound + bound - t = d by omega, Nat.mod_eq_of_lt (by omega)]

theorem Queue.push (rounds : cap ∣ bound) {ys : List α} (room : xs.length + ys.length ≤ cap) :
    Queue cap bound (store cap cells head ys) ((head + ys.length) % bound) tail (xs ++ ys) := by
  obtain ⟨past, taken, holds, rfl, rfl, least, most, rfl⟩ := queue
  rw [List.length_drop] at room
  refine ⟨past ++ ys, taken, ?_, ?_, rfl, ?_, ?_, ?_⟩
  · rw [store_mod rounds]
    exact holds.store ys
  · rw [Nat.mod_add_mod, List.length_append]
  · rw [List.length_append]
    omega
  · rw [List.length_append]
    omega
  · rw [List.drop_append_of_le_length least]

theorem Queue.pop {n : Nat} (enough : n ≤ xs.length) :
    Queue cap bound cells head ((tail + n) % bound) (xs.drop n) := by
  obtain ⟨past, taken, holds, rfl, rfl, least, most, rfl⟩ := queue
  rw [List.length_drop] at enough
  refine ⟨past, taken + n, holds, rfl, ?_, ?_, ?_, ?_⟩
  · rw [Nat.mod_add_mod]
  · omega
  · omega
  · rw [List.drop_drop]

theorem Queue.view (rounds : cap ∣ bound) {n : Nat} (enough : n ≤ xs.length) :
    view cap cells tail n = xs.take n := by
  obtain ⟨past, taken, holds, rfl, rfl, least, most, rfl⟩ := queue
  rw [List.length_drop] at enough
  rw [view_mod rounds, holds.view (by omega) most]

end

end Queue

end Espix.Lib.Ring
