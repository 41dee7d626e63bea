import Espix.Fs.MountTable

/-! `espix_vfs_del_mount`: what it reads, when it refuses, and what is left.

The scan for open files runs to the first number of `synth.c`, which lies behind the end of the
table of open files. It stops early only where it finds a file of the mount. -/

namespace Espix.Fs.Unmount

open Access Effects MountTable Vfs Lib.Tally

def inUse (s : State) (i : Nat) : Prop := ∃ fd < fdPlaces, (s.fds fd).any (·.mount == i) = true

def tracked (s : State) (i : Nat) : Prop := ∃ k < dirsMax, (s.dirMap k).any (·.mount == i) = true

/-- The memory behind the table looks like a file of the mount. -/
def phantom (beyond : Nat → Option Slot) (i : Nat) : Prop :=
  ∃ fd < synthFdBase, fdPlaces ≤ fd ∧ (beyond fd).any (·.mount == i) = true

/-- The mount is out of the lookup, and no other path is answered differently. -/
structure Vanishes (s u : State) (i : Nat) : Prop where
  gone : ∀ p, mountByPath u p ≠ i
  others : ∀ p, mountByPath s p ≠ i → mountByPath u p = mountByPath s p
  kept : ∀ j, j ≠ i → u.mounts j = s.mounts j

structure Consults (s : State) (beyond : Nat → Option Slot) (point : Path) : Prop where
  inside : ∀ fd ∈ (delMount s beyond point).1, fd < fdPlaces
  refuses : ∀ i, mountAt s point = some i →
    ((delMount s beyond point).2 = .error .invalidState ↔ inUse s i ∨ tracked s i)
  vanishes : ∀ i u, mountAt s point = some i → (delMount s beyond point).2 = .ok u → Vanishes s u i

section Scan

variable {memory : Nat → Option Slot} {i : Nat}

theorem scan_subset (memory : Nat → Option Slot) (i : Nat) (places : List Nat) :
    (scan memory i places).1 ⊆ places := by
  induction places with
  | nil => simp [scan]
  | cons fd places ih =>
    rw [scan]
    split
    · simp
    · exact List.cons_subset_cons fd ih

theorem scan_append_found {first : List Nat}
    (found : (scan memory i first).2 = true) (rest : List Nat) :
    scan memory i (first ++ rest) = scan memory i first := by
  induction first with
  | nil => cases found
  | cons fd first ih =>
    rw [List.cons_append, scan, scan] at *
    split
    · rfl
    · rename_i other
      rw [if_neg other] at found
      rw [ih found]

theorem scan_append_missed {first : List Nat} (missed : (scan memory i first).2 = false)
    (rest : List Nat) :
    scan memory i (first ++ rest) = (first ++ (scan memory i rest).1, (scan memory i rest).2) := by
  induction first with
  | nil => rfl
  | cons fd first ih =>
    rw [List.cons_append, scan]
    rw [scan] at missed
    split at missed
    · cases missed
    · rename_i other
      rw [if_neg other, ih missed]
      rfl

theorem scan_reads_on {first rest : List Nat} {fd : Nat}
    (missed : (scan memory i first).2 = false) :
    fd ∈ (scan memory i (first ++ fd :: rest)).1 := by
  rw [scan_append_missed missed, scan]
  split <;> simp

theorem scanned_places :
    List.range synthFdBase = List.range fdPlaces ++ fdPlaces :: List.range' (fdPlaces + 1) 79 := by
  decide +kernel

end Scan

section Outcome

variable {s : State} {beyond : Nat → Option Slot} {point : Path} {i : Nat}

section

variable (s : State) (beyond : Nat → Option Slot)

theorem slotAt_inside {fd : Nat} (inside : fd < fdPlaces) :
    slotAt s beyond fd = s.fds fd := if_pos inside

theorem scan_table_found (i : Nat) :
    (scan (slotAt s beyond) i (List.range fdPlaces)).2 = true ↔ inUse s i := by
  rw [scan_found, List.any_eq_true]
  constructor
  · intro found
    obtain ⟨fd, listed, here⟩ := found
    have inside := List.mem_range.mp listed
    rw [slotAt_inside s beyond inside] at here
    exact ⟨fd, inside, here⟩
  · intro used
    obtain ⟨fd, inside, here⟩ := used
    refine ⟨fd, List.mem_range.mpr inside, ?_⟩
    rw [slotAt_inside s beyond inside]
    exact here

theorem scan_finds (i : Nat) :
    (scan (slotAt s beyond) i (List.range synthFdBase)).2 = true ↔ inUse s i ∨
    phantom beyond i := by
  rw [scan_found, List.any_eq_true]
  constructor
  · intro found
    obtain ⟨fd, listed, here⟩ := found
    by_cases inside : fd < fdPlaces
    · rw [slotAt_inside s beyond inside] at here
      exact .inl ⟨fd, inside, here⟩
    · rw [slotAt, if_neg inside] at here
      exact .inr ⟨fd, List.mem_range.mp listed, Nat.not_lt.mp inside, here⟩
  · intro either
    rcases either with ⟨fd, inside, here⟩ | ⟨fd, within, behind, here⟩
    · refine ⟨fd, List.mem_range.mpr (inside.trans (by decide)), ?_⟩
      rw [slotAt_inside s beyond inside]
      exact here
    · refine ⟨fd, List.mem_range.mpr within, ?_⟩
      rw [slotAt, if_neg (Nat.not_lt.mpr behind)]
      exact here

end

section

variable (found : mountAt s point = some i)

include found

theorem delMount_reads :
    (delMount s beyond point).1 = (scan (slotAt s beyond) i (List.range synthFdBase)).1 := by
  simp only [delMount, found]
  split <;> rfl

theorem delMount_refuses :
    (delMount s beyond point).2 = .error .invalidState ↔ inUse s i ∨ phantom beyond i ∨
    tracked s i := by
  have dirs : ((List.range dirsMax).any fun k => (s.dirMap k).any (·.mount == i)) = true ↔
      tracked s i := by
    simp [List.any_eq_true, tracked]
  rw [← or_assoc, ← scan_finds s beyond i, ← dirs, ← Bool.or_eq_true]
  simp only [delMount, found]
  split <;> simp_all

theorem reads_inside_iff : (∀ fd ∈ (delMount s beyond point).1, fd < fdPlaces) ↔ inUse s i := by
  rw [delMount_reads found, scanned_places, ← scan_table_found s beyond i]
  constructor
  · intro inside
    cases missed : (scan (slotAt s beyond) i (List.range fdPlaces)).2 with
    | true => rfl
    | false => exact absurd (inside fdPlaces (scan_reads_on missed)) (Nat.lt_irrefl _)
  · intro used fd read
    rw [scan_append_found used] at read
    exact List.mem_range.mp (scan_subset _ _ _ read)

end

theorem vanishes_of_ok {u : State} (found : mountAt s point = some i)
    (gone : (delMount s beyond point).2 = .ok u) : Vanishes s u i := by
  obtain ⟨j, same, _, _, rfl⟩ := delMount_spec gone
  rw [found, Option.some.injEq] at same
  subst same
  have nonzero : i ≠ 0 := by
    intro root
    have behind := (mountAt_used found).1
    rw [root] at behind
    revert behind
    decide
  have lost : (setMount s i none).mounts i = none := by simp [setMount]
  have kept : ∀ j, j ≠ i → (setMount s i none).mounts j = s.mounts j := fun j apart => by
    simp [setMount, apart]
  refine ⟨?_, ?_, kept⟩
  · intro p here
    rcases mountByPath_used (setMount s i none) p with root | used
    · exact nonzero (here ▸ root)
    · exact used.2 (by rw [here, lost])
  · intro p elsewhere
    rw [mountByPath_eq] at elsewhere ⊢
    rw [mountByPath_eq]
    refine congrArg Prod.fst (longest_without ?_ ?_ (.inl rfl) elsewhere)
    · simp [claims, lost]
    · intro j apart
      rw [claims, claims, kept j apart]

/-- Right exactly where the mount is in use and stays; every unmount that succeeds has read behind
the table. What is behind it decides, and where it shows no file of the mount the answer is right.
-/
theorem unmount_consults_iff (s : State) (beyond : Nat → Option Slot) (point : Path) :
    (Consults s beyond point ↔ ∀ i, mountAt s point = some i → inUse s i) ∧
      ∀ i, mountAt s point = some i →
        ((delMount s beyond point).2 = .error .invalidState ↔
          inUse s i ∨ phantom beyond i ∨ tracked s i) ∧
        ∀ u, (delMount s beyond point).2 = .ok u → Vanishes s u i := by
  refine ⟨⟨fun consults i found => ?_, fun used => ⟨?_, ?_, ?_⟩⟩, fun i found => ⟨?_, ?_⟩⟩
  · exact (reads_inside_iff found).mp consults.inside
  · intro fd read
    cases found : mountAt s point with
    | none => simp [delMount, found] at read
    | some i => exact (reads_inside_iff found).mpr (used i found) fd read
  · intro i found
    rw [delMount_refuses found]
    simp [used i found]
  · exact fun i u => vanishes_of_ok
  · exact delMount_refuses found
  · exact fun u => vanishes_of_ok found

end Outcome

def plugged : State :=
  orSame (boot (fun _ => true) fun _ => none)
    (addMount (boot (fun _ => true) fun _ => none) "/mnt".toList fun _ => true)

/-- Eighty places behind the table are read for it, and one of them can make it busy. -/
theorem unmount_reads_behind_the_table :
    mountAt plugged "/mnt".toList = some 1 ∧ (∀ fd < fdPlaces, (plugged.fds fd).isNone) ∧
      (delMount plugged (fun _ => none) "/mnt".toList).1 = List.range 240 ∧
      (delMount plugged (fun fd => if fd = 200 then
        some ⟨5, 1, none, 1⟩ else none) "/mnt".toList).2.isOk =
        false := by
  decide +kernel

end Espix.Fs.Unmount
