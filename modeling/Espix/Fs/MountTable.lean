import Espix.Fs.Placing
import Espix.Lib.Run

/-! The tables of the root VFS along a run: what a mount's coming and going does to them, and the
invariant that every run keeps. -/

namespace Espix.Fs.MountTable

open Function Access Effects Placing Vfs Lib.Run Lib.Tally
open Proc.Root (noFlags)

variable {i : Nat}

section Directories

variable {s : State}

theorem mountByDir_tracked {d : Nat} (found : mountByDir s d = some i) :
    ∃ k, k < dirsMax ∧ s.dirMap k = some ⟨d, i⟩ := by
  obtain ⟨entry, first, here⟩ := Option.map_eq_some_iff.mp found
  obtain ⟨k, member, kept⟩ := List.exists_of_findSome?_eq_some first
  obtain ⟨tracked, same⟩ := Option.filter_eq_some_iff.mp kept
  refine ⟨k, List.mem_range.mp member, ?_⟩
  rw [tracked, ← here, ← eq_of_beq same]

theorem notes_onDir (sound : Sound s) (d : Nat) (op : DirCall) :
    Notes s (onDir s d op.callback) := by
  fun_cases onDir s d op.callback with
  | case1 => exact Notes.refl s
  | case2 i found =>
    obtain ⟨k, within, tracked⟩ := mountByDir_tracked found
    exact notes_callDir sound within tracked (by cases op <;> rfl)

structure Tracks (s u : State) : Prop where
  mid : ∃ w, Acts s w ∧ u = { w with dirMap := u.dirMap }
  dirs : ∀ k d i, u.dirMap k = some ⟨d, i⟩ →
    s.dirMap k = some ⟨d, i⟩ ∨ ∃ m, s.mounts i = some m ∧ m.dead = false

theorem tracks_of_acts {u : State} (acts : Acts s u) : Tracks s u where
  mid := ⟨u, acts, rfl⟩
  dirs _ _ _ tracked := .inl (acts.dirMap ▸ tracked)

theorem tracks_vfsClosedir (sound : Sound s) (d : Nat) : Tracks s (vfsClosedir s d) := by
  unfold vfsClosedir
  split
  · exact tracks_of_acts (Acts.refl s)
  · rename_i i found
    obtain ⟨k, within, tracked⟩ := mountByDir_tracked found
    have called : Acts s (callDir s i .closedir d) :=
      (notes_callDir sound within tracked rfl).toActs
    unfold dirMapClear
    split
    · exact tracks_of_acts called
    · rename_i place _
      refine ⟨⟨_, called, rfl⟩, fun j d' i' kept => .inl ?_⟩
      by_cases here : j = place
      · simp [here] at kept
      · simp only [update_of_ne here] at kept
        exact called.dirMap ▸ kept

theorem tracks_dirMapSet {u : State} {d : Nat} (acts : Acts s u)
    (alive : ∃ m, s.mounts i = some m ∧ m.dead = false) : Tracks s (dirMapSet u d i) := by
  unfold dirMapSet
  split
  · exact tracks_of_acts acts
  · rename_i place _
    refine ⟨⟨_, acts, rfl⟩, fun k d' i' kept => ?_⟩
    by_cases here : k = place
    · simp only [here, update_self, Option.some.injEq, Tracked.mk.injEq] at kept
      exact .inr (kept.2 ▸ alive)
    · simp only [update_of_ne here] at kept
      exact .inl (acts.dirMap ▸ kept)

theorem tracks_vfsOpendir (sound : Sound s) (t : Trees) (env : Env) (path : Path)
    (answer : Option Nat) : Tracks s (vfsOpendir t env s path answer).1 := by
  have asked :=
    fun p => (notes_checked s .opendir p noFlags (fsAccessCheck env p .opendir noFlags)).toActs
  have called := fun p answer => (asked p).trans
    (notes_onPath (sound.acts (asked p)) p .opendir (by decide) (by decide) (.file p answer)).toActs
  fun_cases vfsOpendir t env s path answer with
  | case1 => exact tracks_of_acts (Acts.refl s)
  | case2 _ p | case5 _ p => exact tracks_of_acts (asked p)
  | case3 p => exact tracks_of_acts (called p none)
  | case4 p _ _ _ _ _ reached d =>
      exact tracks_dirMapSet (called p (some d)) (reaches_alive reached)

theorem sound_tracks {u : State} (sound : Sound s) (tracks : Tracks s u) : Sound u := by
  obtain ⟨w, acts, only⟩ := tracks.mid
  have kept := sound.acts acts
  have dirs : ∀ k entry, k < dirsMax → u.dirMap k = some entry → u.mounts entry.mount ≠ none := by
    intro k entry within tracked
    rw [only]
    change w.mounts entry.mount ≠ none
    rw [acts.mounts]
    rcases tracks.dirs k entry.dirp entry.mount tracked with old | ⟨m, mounted, _⟩
    · exact sound.dirs k _ within old
    · simp [mounted]
  rw [only] at dirs ⊢
  exact { kept with dirs := dirs }

end Directories

variable {point : Path} {has : Callback → Bool}

section Mounts

variable {s u : State}

theorem addMount_spec (added : addMount s point has = .ok u) :
    ∃ i, i ∈ mountIndices ∧ s.mounts i = none ∧ mountAt s point = none ∧
      u = { setMount s i (some ⟨s.nextId, has, point, false⟩) with nextId := s.nextId + 1 } := by
  revert added
  fun_cases addMount s point has with
  | case1 | case2 | case3 => exact nofun
  | case4 _ unknown i first =>
    rintro ⟨⟩
    have free := List.find?_some first
    exact ⟨i, List.mem_of_find?_eq_some first, by simpa using free, by simpa using unknown, rfl⟩

theorem mountDead_spec (died : mountDead s point = .ok u) :
    ∃ i m, mountAt s point = some i ∧ s.mounts i = some m ∧
      u = setMount s i (some { m with dead := true }) := by
  revert died
  fun_cases mountDead s point with
  | case1 => exact nofun
  | case2 i found =>
    rintro ⟨⟩
    obtain ⟨_, m, used, _⟩ := mountAt_used found
    exact ⟨i, m, found, used, by rw [used, Option.map_some]⟩

theorem scan_found (memory : Nat → Option Slot) (i : Nat) (places : List Nat) :
    (scan memory i places).2 = places.any fun fd => (memory fd).any (·.mount == i) := by
  induction places with
  | nil => rfl
  | cons fd places ih =>
    rw [scan, List.any_cons, ← ih]
    cases (memory fd).any (·.mount == i) <;> rfl

theorem delMount_spec {beyond : Nat → Option Slot} (gone : (delMount s beyond point).2 = .ok u) :
    ∃ i, mountAt s point = some i ∧ (∀ fd < fdPlaces, (s.fds fd).any (·.mount == i) = false) ∧
      (∀ k < dirsMax, (s.dirMap k).any (·.mount == i) = false) ∧ u = setMount s i none := by
  revert gone
  fun_cases delMount s beyond point with
  | case1 | case2 => exact nofun
  | case3 i found scanned unused =>
    rintro ⟨⟩
    simp only [scanned, scan_found, Bool.or_eq_true, not_or, Bool.not_eq_true, List.any_eq_false,
      List.mem_range] at unused
    refine ⟨i, found, fun fd inside => ?_, fun k within => ?_, rfl⟩
    · have read := unused.1 fd (inside.trans (by decide))
      simpa [slotAt, inside] using read
    · simpa using unused.2 k within

inductive Remount (s : State) : State → Prop
  | same : Remount s s
  | comes (i : Nat) (has : Callback → Bool) (point : Path) (behind : i ∈ mountIndices)
      (free : s.mounts i = none) :
    Remount s { setMount s i (some ⟨s.nextId, has, point, false⟩) with nextId := s.nextId + 1 }
  | goes (i : Nat) (behind : i ∈ mountIndices) (no_slot : ∀ fd < fdPlaces,
      (s.fds fd).any (·.mount == i) = false)
    (no_dir : ∀ k < dirsMax, (s.dirMap k).any (·.mount == i) = false) : Remount s
      (setMount s i none)
  | dies (i : Nat) (m : Mount) (behind : i ∈ mountIndices) (used : s.mounts i = some m) :
    Remount s (setMount s i (some { m with dead := true }))

section

variable (sound : Sound s)

include sound

/-- One place of the table is written. What comes in must be new, must owe nothing, and may be
nothing only where nothing refers to the place. -/
theorem sound_setMount {n : Nat} {entry : Option Mount} (later : s.nextId ≤ n)
    (behind : i ∈ mountIndices)
    (unused : entry = none → (∀ key slot, s.fds key = some slot → slot.mount ≠ i) ∧
      ∀ k tracked, k < dirsMax → s.dirMap k = some tracked → tracked.mount ≠ i)
    (numbered : ∀ m, entry = some m → m.id < n)
    (only : ∀ m, entry = some m → ∀ j other, s.mounts j = some other → other.id = m.id → j = i)
    (books : ∀ m f, entry = some m → m.dead = false → m.has .close = true →
      opened s.log m.id f = closed s.log m.id f + live s i f) :
    Sound { setMount s i entry with nextId := n } where
  root := by
    have apart : 0 ≠ i := by
      intro same
      subst same
      revert behind
      decide
    simpa only [setMount, update_of_ne apart] using sound.root
  slots key slot used := by
    refine ⟨(sound.slots key slot used).1, ?_⟩
    by_cases here : slot.mount = i
    · simp only [setMount, here, update_self]
      exact fun gone => (unused gone).1 key slot used here
    · simpa only [setMount, update_of_ne here] using (sound.slots key slot used).2
  dirs k tracked within kept := by
    by_cases here : tracked.mount = i
    · simp only [setMount, here, update_self]
      exact fun gone => (unused gone).2 k tracked within kept here
    · simpa only [setMount, update_of_ne here] using sound.dirs k tracked within kept
  ids j m used := by
    by_cases here : j = i
    · simp only [setMount, here, update_self] at used
      exact numbered m used
    · simp only [setMount, update_of_ne here] at used
      exact (sound.ids j m used).trans_le later
  distinct j k m other used also same := by
    by_cases here : j = i
    · by_cases there : k = i
      · rw [here, there]
      · simp only [setMount, here, update_self] at used
        simp only [setMount, update_of_ne there] at also
        rw [here, only m used k other also same.symm]
    · simp only [setMount, update_of_ne here] at used
      by_cases there : k = i
      · simp only [setMount, there, update_self] at also
        rw [there, only other also j m used same]
      · simp only [setMount, update_of_ne there] at also
        exact sound.distinct j k m other used also same
  noted id cb arg member := (sound.noted id cb arg member).trans_le later
  no_fault := sound.no_fault
  books j m f used alive has := by
    by_cases here : j = i
    · simp only [setMount, here, update_self] at used
      rw [here]
      exact books m f used alive has
    · simp only [setMount, update_of_ne here] at used
      exact sound.books j m f used alive has

theorem sound_unheard (f : Nat) : opened s.log s.nextId f = 0 ∧ closed s.log s.nextId f = 0 := by
  have silent : ∀ cb arg, Note.called s.nextId cb arg ∉ s.log := fun cb arg member =>
    Nat.lt_irrefl _ (sound.noted s.nextId cb arg member)
  constructor
  · refine List.countP_eq_zero.mpr ?_
    intro note member
    split
    · rename_i j p result
      intro matched
      have same : j = s.nextId := by simpa using (Bool.and_eq_true_iff.mp matched).1
      exact silent _ _ (same ▸ member)
    · simp
  · exact List.count_eq_zero.mpr (silent _ _)

theorem sound_remount (remount : Remount s u) : Sound u := by
  cases remount with
  | same => exact sound
  | comes i has point behind free =>
    refine sound_setMount sound (Nat.le_succ _) behind (fun none => by cases none) ?_ ?_ ?_
    · intro m same
      cases same
      exact Nat.lt_succ_self _
    · intro m same j other used equal
      cases same
      exact absurd equal (Nat.ne_of_lt (sound.ids j other used))
    · intro m f same _ _
      cases same
      have empty : live s i f = 0 := by
        refine tally_eq_zero.mpr fun key _ => ?_
        cases used : s.fds key with
        | none => rfl
        | some slot =>
          have elsewhere : slot.mount ≠ i := fun here => (sound.slots key slot used).2 (here ▸ free)
          simp [elsewhere]
      rw [(sound_unheard sound f).1, (sound_unheard sound f).2, empty]
  | goes i behind no_slot no_dir =>
    refine sound_setMount sound le_rfl behind (fun _ => ⟨?_, ?_⟩) ?_ ?_ ?_
    · intro key slot used here
      simpa [used, here] using no_slot key (fdOurs_lt (sound.slots key slot used).1)
    · intro k tracked within kept here
      simpa [kept, here] using no_dir k within
    all_goals
      intro m
      intros
      contradiction
  | dies i m behind used =>
    refine sound_setMount sound le_rfl behind (fun none => by cases none) ?_ ?_ ?_
    · intro dead same
      cases same
      exact sound.ids i m used
    · intro dead same j other also equal
      cases same
      exact sound.distinct j i other m also used equal
    · intro dead f same alive
      cases same
      cases alive

end

end Mounts

variable {e : Event}

section Steps

variable {cfg : Config} {t : Trees} {s u : State}

def remounts : Event → Bool
  | .addMount _ _ => true
  | .delMount _ _ => true
  | .mountDead _ => true
  | _ => false

def retracks : Event → Bool
  | .path _ (.opendir _ _) => true
  | .closedir _ => true
  | _ => false

theorem acts_step (sound : Sound s) (next : step cfg t s e = some u)
    (calm : remounts e = false) (still : retracks e = false) : Acts s u := by
  cases e with try cases next
  | path env call =>
    cases call with
    | «open» path flags mode answer => exact acts_idfOpen cfg sound t env path flags mode answer
    | unlink path | rmdir path | truncate path =>
      exact (notes_onName sound env _ _ (by decide) (by decide) path).toActs
    | rename src dst => exact (notes_vfsRename sound t env src dst).toActs
    | mkdir path mode made => exact (notes_vfsMkdir sound env path mode made).toActs
    | utime path => exact (notes_vfsUtime sound t env path).toActs
    | stat path => exact (notes_vfsStat sound t env path).toActs
    | opendir path answer => cases still
  | onFd fd call => exact (notes_onFd cfg sound fd call).toActs
  | close fd => exact acts_idfClose cfg sound fd
  | dup fd => exact acts_dup cfg s fd
  | dupMin fd min => exact acts_dupMin cfg s fd min
  | dup2 pid oldfd newfd => exact acts_dup2 cfg sound pid oldfd newfd
  | teardown pid => exact acts_fdsCloseOwned cfg sound pid
  | onDir d call => exact (notes_onDir sound d call).toActs
  | closedir => cases still
  | addMount | delMount | mountDead => cases calm
  | foreign fd entry =>
    obtain ⟨_, _, rfl⟩ := step_foreign next
    exact acts_table s _

theorem tracks_step (sound : Sound s) (next : step cfg t s e = some u)
    (calm : remounts e = false) : Tracks s u := by
  cases still : retracks e with
  | false => exact tracks_of_acts (acts_step sound next calm still)
  | true =>
    cases e with
    | path env call =>
      cases next
      cases call with
      | opendir path answer => exact tracks_vfsOpendir sound t env path answer
      | _ => cases still
    | closedir d =>
      cases next
      exact tracks_vfsClosedir sound d
    | _ => cases still

theorem remount_step (next : step cfg t s e = some u) (moves : remounts e = true) :
    Remount s u := by
  cases e with try cases next
  | addMount point has =>
    cases added : addMount s point has with
    | error err => exact .same
    | ok u =>
      obtain ⟨i, behind, free, _, rfl⟩ := addMount_spec added
      exact .comes i has point behind free
  | delMount beyond point =>
    cases gone : (delMount s beyond point).2 with
    | error err => exact .same
    | ok u =>
      obtain ⟨i, found, no_slot, no_dir, rfl⟩ := delMount_spec gone
      exact .goes i (mountAt_used found).1 no_slot no_dir
  | mountDead point =>
    cases died : mountDead s point with
    | error err => exact .same
    | ok u =>
      obtain ⟨i, m, found, used, rfl⟩ := mountDead_spec died
      exact .dies i m (mountAt_used found).1 used
  | _ => cases moves

theorem sound_step (sound : Sound s) (next : step cfg t s e = some u) : Sound u := by
  cases calm : remounts e with
  | false => exact sound_tracks sound (tracks_step sound next calm)
  | true => exact sound_remount sound (remount_step next calm)

theorem sound_boot (has : Callback → Bool) (table : Nat → Option Entry) :
    Sound (boot has table) where
  root := by simp [boot]
  slots key slot used := by cases used
  dirs k entry _ tracked := by cases tracked
  ids i m used := by
    simp only [boot, update_apply] at used
    split at used
    · cases used
      exact Nat.zero_lt_one
    · cases used
  distinct i j m n used other _ := by
    simp only [boot, update_apply] at used other
    split at used
    · split at other
      · simp_all
      · cases other
    · cases used
  noted id cb arg member := by cases member
  no_fault := by simp [boot]
  books i m f _ _ _ := by
    have empty : live (boot has table) i f = 0 := tally_eq_zero.mpr fun _ _ => rfl
    rw [empty]
    rfl

theorem sound_run {table : Nat → Option Entry} {es : List Event}
    (reached : run (step cfg t) (boot has table) es = some s) : Sound s :=
  run_invariant (fun _ _ _ sound next => sound_step sound next) reached (sound_boot has table)

end Steps

end Espix.Fs.MountTable
