import Espix.Fs.Unmount

/-! Open directories and the table that remembers their mounts.

The table has room for eight. What a program holds and what is open in the file systems is kept
beside the state: a pointer that is still open below is not handed out again. -/

namespace Espix.Fs.Directories

open Function Access Effects MountTable Unmount Vfs Lib.Run
open Proc.Root (vfsResolve noFlags)

structure World where
  vfs : State
  below : List Nat
  /-- The directories handed out and not closed, each with the number of its mount. -/
  held : List (Nat × Nat)

def home (env : Env) (s : State) (path : Path) : Nat :=
  ((vfsResolve env.caller path).bind fun p => (s.mounts (mountByPath s p)).map (·.id)).getD 0

def releases (s : State) (d : Nat) : Bool :=
  (mountByDir s d).any fun i => (s.mounts i).any (·.has .closedir)

def step (cfg : Config) (t : Trees) (w : World) (e : Event) : Option World :=
  (Vfs.step cfg t w.vfs e).bind fun s =>
    match e with
    | .path env (.opendir path answer) =>
      match (vfsOpendir t env w.vfs path answer).2 with
      | none => some { w with vfs := s }
      | some d =>
        if d ∈ w.below then none else some ⟨s, d :: w.below, (d, home env w.vfs path) :: w.held⟩
    | .closedir d =>
      some ⟨s, if releases w.vfs d then w.below.filter (· ≠ d) else w.below,
        w.held.filter (·.1 ≠ d)⟩
    | _ => some { w with vfs := s }

def start (has : Callback → Bool) (table : Nat → Option Entry) : World := ⟨boot has table, [], []⟩

/-- A directory that is held goes to the mount it was opened on, its closing is the file system's
closing, once, and the mount stays. -/
structure Kept (w : World) : Prop where
  routed : ∀ d id, (d, id) ∈ w.held → ∃ i m,
    mountByDir w.vfs d = some i ∧ w.vfs.mounts i = some m ∧ m.id = id
  released : ∀ d id, (d, id) ∈ w.held → releases w.vfs d = true →
    (vfsClosedir w.vfs d).log = w.vfs.log ++ [.called id .closedir (.dir d)] ∧
      mountByDir (vfsClosedir w.vfs d) d = none
  pinned : ∀ d id, (d, id) ∈ w.held → ∀ beyond point i m, mountAt w.vfs point = some i →
    w.vfs.mounts i = some m → m.id = id → (delMount w.vfs beyond point).2 = .error .invalidState

section Table

variable {s : State} {d i k : Nat}

def Once (s : State) : Prop :=
  ∀ j k a b, j < dirsMax → k < dirsMax → s.dirMap j = some a → s.dirMap k = some b →
    a.dirp = b.dirp → j = k

theorem Once.of_dirMap {u : State} (once : Once s) (same : u.dirMap = s.dirMap) : Once u := by
  unfold Once
  rwa [same]

theorem filter_apart {entry : Option Tracked} (apart : ∀ a, entry = some a → a.dirp ≠ d) :
    entry.filter (·.dirp != d) = entry := by
  cases entry with
  | none => rfl
  | some a => simp [Option.filter, apart a rfl]

theorem mountByDir_eq_none (untracked : ∀ k < dirsMax, ∀ i, s.dirMap k ≠ some ⟨d, i⟩) :
    mountByDir s d = none := by
  cases found : mountByDir s d with
  | none => rfl
  | some i =>
    obtain ⟨k, within, here⟩ := mountByDir_tracked found
    exact absurd here (untracked k within i)

theorem mountByDir_of_tracked (once : Once s) (within : k < dirsMax)
    (here : s.dirMap k = some ⟨d, i⟩) : mountByDir s d = some i := by
  cases found : mountByDir s d with
  | none =>
    simp only [mountByDir, Option.map_eq_none_iff, List.findSome?_eq_none_iff,
      List.mem_range] at found
    have missed := found k within
    simp [here] at missed
  | some j =>
    obtain ⟨place, inside, there⟩ := mountByDir_tracked found
    have same := once k place _ _ within inside here there rfl
    rw [← same, here, Option.some.injEq, Tracked.mk.injEq] at there
    rw [there.2]

theorem dirMapSet_cases (untracked : ∀ k < dirsMax, ∀ i, s.dirMap k ≠ some ⟨d, i⟩) (mount : Nat) :
    (∀ k < dirsMax, s.dirMap k ≠ none) ∧ dirMapSet s d mount = s ∨
      ∃ k < dirsMax, s.dirMap k = none ∧
        dirMapSet s d mount = { s with dirMap := update s.dirMap k (some ⟨d, mount⟩) } := by
  have free : ∀ k < dirsMax, (s.dirMap k).all (·.dirp == d) = true → s.dirMap k = none := by
    intro k within fits
    cases held : s.dirMap k with
    | none => rfl
    | some entry =>
      have same : entry.dirp = d := by simpa [held] using fits
      exact absurd (by rw [held, ← same]) (untracked k within entry.mount)
  unfold dirMapSet
  split
  · rename_i full
    refine .inl ⟨?_, rfl⟩
    intro k within empty
    have missed := List.find?_eq_none.mp full k (List.mem_range.mpr within)
    simp [empty] at missed
  · rename_i place first
    have within := List.mem_range.mp (List.mem_of_find?_eq_some first)
    have fits := List.find?_some first
    exact .inr ⟨place, within, free place within fits, rfl⟩

theorem dirMapClear_spec (once : Once s) (d : Nat) {k : Nat} (within : k < dirsMax) :
    (dirMapClear s d).dirMap k = (s.dirMap k).filter (·.dirp != d) := by
  unfold dirMapClear
  split
  · rename_i nowhere
    have other := List.find?_eq_none.mp nowhere k (List.mem_range.mpr within)
    exact (filter_apart fun entry held => by simpa [held] using other).symm
  · rename_i place first
    have inside := List.mem_range.mp (List.mem_of_find?_eq_some first)
    have here := List.find?_some first
    cases taken : s.dirMap place with
    | none => simp [taken] at here
    | some entry =>
      have same : entry.dirp = d := by simpa [taken] using here
      by_cases at_place : k = place
      · subst at_place
        simp [Option.filter, taken, same]
      · simp only [update_of_ne at_place]
        exact (filter_apart fun other held equal =>
          at_place (once k place other entry within inside held taken (equal.trans same.symm))).symm

end Table

section Operations

variable {t : Trees} {env : Env} {s : State} {path : Path} {answer : Option Nat}

theorem vfsOpendir_cases (sound : Sound s) (t : Trees) (env : Env) (path : Path)
    (answer : Option Nat) :
    (vfsOpendir t env s path answer).2 = none ∧
        (vfsOpendir t env s path answer).1.mounts = s.mounts ∧
        (vfsOpendir t env s path answer).1.dirMap = s.dirMap ∨
      ∃ d i m u, (vfsOpendir t env s path answer) = (dirMapSet u d i, some d) ∧
        s.mounts i = some m ∧ m.id = home env s path ∧ u.mounts = s.mounts ∧
        u.dirMap = s.dirMap := by
  unfold vfsOpendir home
  cases resolved : vfsResolve env.caller path with
  | none => exact .inl ⟨rfl, rfl, rfl⟩
  | some p =>
    have asked := (notes_checked s .opendir p noFlags (fsAccessCheck env p .opendir noFlags)).toActs
    dsimp only
    split
    · exact .inl ⟨rfl, rfl, rfl⟩
    · split
      · rename_i reached
        have called := asked.trans
          (notes_onPath (sound.acts asked) p .opendir (by decide) (by decide)
            (.file p answer)).toActs
        cases answer with
        | none => exact .inl ⟨rfl, called.mounts, called.dirMap⟩
        | some d =>
          obtain ⟨m, mounted, _⟩ := reaches_alive reached
          refine .inr ⟨d, _, m, _, rfl, mounted, ?_, called.mounts, called.dirMap⟩
          change s.mounts (mountByPath s p) = some m at mounted
          simp [mounted]
      · exact .inl ⟨rfl, rfl, rfl⟩

theorem dirMapClear_log (s : State) (d : Nat) : (dirMapClear s d).log = s.log := by
  unfold dirMapClear
  split <;> rfl

theorem callDir_eq {i : Nat} {m : Mount} (mounted : s.mounts i = some m) (cb : Callback) (d : Nat) :
    callDir s i cb d = if m.has cb then s.note [.called m.id cb (.dir d)] else s := by
  rw [callDir, mounted]

theorem vfsClosedir_tables (sound : Sound s) (once : Once s) (d : Nat) :
    (vfsClosedir s d).mounts = s.mounts ∧
      ∀ k < dirsMax, (vfsClosedir s d).dirMap k = (s.dirMap k).filter (·.dirp != d) := by
  unfold vfsClosedir
  split
  · rename_i missed
    refine ⟨rfl, fun k within => (filter_apart ?_).symm⟩
    rintro entry held rfl
    rw [mountByDir_of_tracked once within (i := entry.mount) held] at missed
    cases missed
  · rename_i i found
    obtain ⟨k, within, tracked⟩ := mountByDir_tracked found
    have called : Acts s (callDir s i .closedir d) :=
      (notes_callDir sound within tracked rfl).toActs
    refine ⟨?_, fun k within => ?_⟩
    · have unmoved : (dirMapClear (callDir s i .closedir d) d).mounts =
          (callDir s i .closedir d).mounts := by
        unfold dirMapClear
        split <;> rfl
      rw [unmoved, called.mounts]
    · rw [dirMapClear_spec (once.of_dirMap called.dirMap) d within, called.dirMap]

end Operations

section Invariant

variable {cfg : Config} {t : Trees} {w u : World}

structure Traced (w : World) : Prop where
  sound : Sound w.vfs
  once : Once w.vfs
  listed : ∀ k d i, k < dirsMax → w.vfs.dirMap k = some ⟨d, i⟩ →
    ∃ m, w.vfs.mounts i = some m ∧ (d, m.id) ∈ w.held
  nodup : (w.held.map (·.1)).Nodup
  open_below : ∀ d id, (d, id) ∈ w.held → d ∈ w.below

def Full (w : World) : Prop :=
  ∀ d id, (d, id) ∈ w.held → ∃ k i, k < dirsMax ∧ w.vfs.dirMap k = some ⟨d, i⟩

/-- A directory is handed out, one is closed, or what is held stays. -/
inductive Change (cfg : Config) (t : Trees) (w : World) : Event → World → Prop
  | opens (env : Env) (path : Path) (answer : Option Nat) (d : Nat)
      (given : (vfsOpendir t env w.vfs path answer).2 = some d) (fresh : d ∉ w.below) :
      Change cfg t w (.path env (.opendir path answer))
        ⟨(vfsOpendir t env w.vfs path answer).1, d :: w.below, (d, home env w.vfs path) :: w.held⟩
  | fails (env : Env) (path : Path) (answer : Option Nat)
      (given : (vfsOpendir t env w.vfs path answer).2 = none) :
      Change cfg t w (.path env (.opendir path answer))
        { w with vfs := (vfsOpendir t env w.vfs path answer).1 }
  | closes (d : Nat) :
      Change cfg t w (.closedir d)
        ⟨vfsClosedir w.vfs d, if releases w.vfs d then w.below.filter (· ≠ d) else w.below,
          w.held.filter (·.1 ≠ d)⟩
  | other (e : Event) (still : retracks e = false) (s : State)
      (next : Vfs.step cfg t w.vfs e = some s) :
      Change cfg t w e { w with vfs := s }

theorem step_change {e : Event} (next : step cfg t w e = some u) : Change cfg t w e u := by
  obtain ⟨s, first, rest⟩ := Option.bind_eq_some_iff.mp next
  cases still : retracks e with
  | false =>
    have same : u = { w with vfs := s } := by
      cases e with
      | path env call =>
        cases call with
        | opendir path answer => cases still
        | _ =>
          cases rest
          rfl
      | closedir d => cases still
      | _ =>
        cases rest
        rfl
    rw [same]
    exact .other e still s first
  | true =>
    cases e with
    | path env call =>
      cases call with
      | opendir path answer =>
        cases first
        dsimp only at rest
        split at rest
        · rename_i given
          cases rest
          exact .fails env path answer given
        · rename_i d given
          split at rest
          · cases rest
          · rename_i fresh
            cases rest
            exact .opens env path answer d given fresh
      | _ => cases still
    | closedir d =>
      cases first
      cases rest
      exact .closes d
    | _ => cases still

theorem step_vfs {e : Event} (next : step cfg t w e = some u) :
    Vfs.step cfg t w.vfs e = some u.vfs := by
  cases step_change next with
  | opens env path answer d given fresh => rfl
  | fails env path answer given => rfl
  | closes d => rfl
  | other _ still s moved => exact moved

theorem other_tables {e : Event} {s u : State} (sound : Sound s) (still : retracks e = false)
    (next : Vfs.step cfg t s e = some u) :
    u.dirMap = s.dirMap ∧ ∀ k d i m, k < dirsMax → s.dirMap k = some ⟨d, i⟩ → s.mounts i = some m →
      ∃ n, u.mounts i = some n ∧ n.id = m.id := by
  cases calm : remounts e with
  | false =>
    have acts := acts_step sound next calm still
    exact ⟨acts.dirMap, fun _ _ _ m _ _ mounted => ⟨m, by rw [acts.mounts, mounted], rfl⟩⟩
  | true =>
    cases remount_step next calm with
    | same => exact ⟨rfl, fun _ _ _ m _ _ mounted => ⟨m, mounted, rfl⟩⟩
    | comes place has point behind free =>
      refine ⟨rfl, fun _ _ i m _ _ mounted => ⟨m, ?_, rfl⟩⟩
      have apart : i ≠ place := by
        intro here
        rw [here, free] at mounted
        cases mounted
      simp [setMount, apart, mounted]
    | goes place behind no_slot untracked =>
      refine ⟨rfl, fun k d i m within held mounted => ⟨m, ?_, rfl⟩⟩
      have apart : i ≠ place := by
        intro here
        simpa [held, here] using untracked k within
      simp [setMount, apart, mounted]
    | dies place dead behind used =>
      refine ⟨rfl, fun _ _ i m _ _ mounted => ?_⟩
      by_cases here : i = place
      · rw [here, used, Option.some.injEq] at mounted
        subst mounted
        exact ⟨{ dead with dead := true }, by simp [setMount, here], rfl⟩
      · exact ⟨m, by simp [setMount, here, mounted], rfl⟩

theorem Traced.untracked (traced : Traced w) {d : Nat} (fresh : d ∉ w.below) :
    ∀ k < dirsMax, ∀ i, w.vfs.dirMap k ≠ some ⟨d, i⟩ := by
  intro k within i here
  obtain ⟨m, _, member⟩ := traced.listed k d i within here
  exact fresh (traced.open_below d m.id member)

theorem Traced.full_table (traced : Traced w) (taken : ∀ k < dirsMax, w.vfs.dirMap k ≠ none) :
    dirsMax ≤ w.held.length := by
  have places : ∀ k < dirsMax, ∃ entry, w.vfs.dirMap k = some entry := fun k within =>
    Option.ne_none_iff_exists'.mp (taken k within)
  let pointer (k : Nat) : Nat := ((w.vfs.dirMap k).map (·.dirp)).getD 0
  have nodup : ((List.range dirsMax).map pointer).Nodup := by
    refine List.Nodup.map_on ?_ List.nodup_range
    intro j first k second same
    obtain ⟨a, here⟩ := places j (List.mem_range.mp first)
    obtain ⟨b, there⟩ := places k (List.mem_range.mp second)
    refine traced.once j k a b (List.mem_range.mp first) (List.mem_range.mp second) here there ?_
    simpa [pointer, here, there] using same
  have held : (List.range dirsMax).map pointer ⊆ w.held.map (·.1) := by
    intro d member
    obtain ⟨k, within, rfl⟩ := List.mem_map.mp member
    obtain ⟨entry, here⟩ := places k (List.mem_range.mp within)
    obtain ⟨m, _, listed⟩ := traced.listed k entry.dirp entry.mount (List.mem_range.mp within) here
    refine List.mem_map.mpr ⟨_, listed, ?_⟩
    simp [pointer, here]
  have counted := nodup.length_le_of_subset held
  simpa using counted

theorem Traced.held_le (traced : Traced w)
    (placed : ∀ d id, (d, id) ∈ w.held → ∃ k i, k < dirsMax ∧ w.vfs.dirMap k = some ⟨d, i⟩) :
    w.held.length ≤ dirsMax := by
  let pointers := (List.range dirsMax).map fun k => ((w.vfs.dirMap k).map (·.dirp)).getD 0
  have inside : w.held.map (·.1) ⊆ pointers := by
    intro d member
    obtain ⟨⟨_, id⟩, listed, rfl⟩ := List.mem_map.mp member
    obtain ⟨k, i, within, here⟩ := placed _ id listed
    exact List.mem_map.mpr ⟨k, List.mem_range.mpr within, by simp [here]⟩
  have counted := traced.nodup.length_le_of_subset inside
  simpa [pointers] using counted

structure Opened (w : World) (d id : Nat) (s : State) : Prop where
  mounts : s.mounts = w.vfs.mounts
  dirMap : (∀ k < dirsMax, w.vfs.dirMap k ≠ none) ∧ s.dirMap = w.vfs.dirMap ∨
    ∃ k i m, k < dirsMax ∧ w.vfs.dirMap k = none ∧ w.vfs.mounts i = some m ∧ m.id = id ∧
      s.dirMap = Function.update w.vfs.dirMap k (some ⟨d, i⟩)

theorem Traced.opened (traced : Traced w) {env : Env} {path : Path} {answer : Option Nat} {d : Nat}
    (given : (vfsOpendir t env w.vfs path answer).2 = some d) (fresh : d ∉ w.below) :
    Opened w d (home env w.vfs path) (vfsOpendir t env w.vfs path answer).1 := by
  rcases vfsOpendir_cases traced.sound t env path answer with ⟨none, _⟩ | ⟨d',
    i, m, v, result, mounted, named, mounts, dirMap⟩
  · rw [none] at given
    cases given
  · rw [result] at given ⊢
    cases given
    have untracked : ∀ k < dirsMax, ∀ j, v.dirMap k ≠ some ⟨d, j⟩ := by
      rw [dirMap]
      exact traced.untracked fresh
    rcases dirMapSet_cases untracked i with ⟨full, same⟩ | ⟨k, within, free, placed⟩
    · dsimp only
      rw [same]
      rw [dirMap] at full
      exact ⟨mounts, .inl ⟨full, dirMap⟩⟩
    · dsimp only
      rw [placed]
      rw [dirMap] at free
      exact ⟨mounts, .inr ⟨k, i, m, within, free, mounted, named, by rw [← dirMap]⟩⟩

theorem Traced.opens (traced : Traced w) {s : State} {d id : Nat} (sound : Sound s)
    (fresh : d ∉ w.below)
    (opened : Opened w d id s) : Traced ⟨s, d :: w.below, (d, id) :: w.held⟩ := by
  have untracked := traced.untracked fresh
  refine ⟨sound, ?_, ?_, ?_, ?_⟩
  · rcases opened.dirMap with ⟨_, same⟩ | ⟨place, i, m, _, _, _, _, placed⟩
    · exact traced.once.of_dirMap same
    · intro j k a b first second here there equal
      rw [placed, update_apply] at here there
      split at here
      · split at there
        · simp_all
        · cases here
          obtain ⟨_, mount⟩ := b
          cases equal
          exact absurd there (untracked k second mount)
      · split at there
        · cases there
          obtain ⟨_, mount⟩ := a
          cases equal
          exact absurd here (untracked j first mount)
        · exact traced.once j k a b first second here there equal
  · intro k d' i' within here
    rw [opened.mounts]
    rcases opened.dirMap with ⟨_, same⟩ | ⟨place, i, m, _, _, mounted, named, placed⟩
    · rw [same] at here
      obtain ⟨m, mounted, member⟩ := traced.listed k d' i' within here
      exact ⟨m, mounted, List.mem_cons_of_mem _ member⟩
    · rw [placed, update_apply] at here
      split at here
      · cases here
        exact ⟨m, mounted, by simp [named]⟩
      · obtain ⟨m, mounted, member⟩ := traced.listed k d' i' within here
        exact ⟨m, mounted, List.mem_cons_of_mem _ member⟩
  · refine List.nodup_cons.mpr ⟨?_, traced.nodup⟩
    intro member
    obtain ⟨⟨_, number⟩, listed, rfl⟩ := List.mem_map.mp member
    exact fresh (traced.open_below _ number listed)
  · intro d' id' member
    rcases List.mem_cons.mp member with same | old
    · cases same
      exact List.mem_cons_self
    · exact List.mem_cons_of_mem _ (traced.open_below d' id' old)

theorem Traced.same_held (traced : Traced w) {s : State} (sound : Sound s)
    (dirMap : s.dirMap = w.vfs.dirMap)
    (mounts : ∀ k d i m, k < dirsMax → w.vfs.dirMap k = some ⟨d, i⟩ → w.vfs.mounts i = some m →
      ∃ n, s.mounts i = some n ∧ n.id = m.id) : Traced { w with vfs := s } := by
  refine ⟨sound, traced.once.of_dirMap dirMap, ?_, traced.nodup, traced.open_below⟩
  intro k d i within here
  rw [dirMap] at here
  obtain ⟨m, mounted, member⟩ := traced.listed k d i within here
  obtain ⟨n, still, same⟩ := mounts k d i m within here mounted
  exact ⟨n, still, same ▸ member⟩

theorem filter_eq_some {entry : Option Tracked} {d d' i : Nat}
    (kept : entry.filter (·.dirp != d) = some ⟨d', i⟩) : entry = some ⟨d', i⟩ ∧ d' ≠ d := by
  obtain ⟨here, apart⟩ := Option.filter_eq_some_iff.mp kept
  exact ⟨here, by simpa using apart⟩

theorem Traced.closes (traced : Traced w) (d : Nat) (sound : Sound (vfsClosedir w.vfs d)) :
    Traced ⟨vfsClosedir w.vfs d, if releases w.vfs d then w.below.filter (· ≠ d) else w.below,
      w.held.filter (·.1 ≠ d)⟩ := by
  obtain ⟨mounts, places⟩ := vfsClosedir_tables traced.sound traced.once d
  refine ⟨sound, ?_, ?_, ?_, ?_⟩
  · intro j k a b first second here there equal
    rw [places j first] at here
    rw [places k second] at there
    exact traced.once j k a b first second (filter_eq_some here).1 (filter_eq_some there).1 equal
  · intro k d' i within here
    rw [places k within] at here
    obtain ⟨before, apart⟩ := filter_eq_some here
    obtain ⟨m, mounted, member⟩ := traced.listed k d' i within before
    exact ⟨m, by rw [mounts, mounted], List.mem_filter.mpr ⟨member, by simpa using apart⟩⟩
  · exact traced.nodup.sublist ((List.filter_sublist).map _)
  · intro d' id member
    obtain ⟨held, apart⟩ := List.mem_filter.mp member
    have still := traced.open_below d' id held
    split
    · exact List.mem_filter.mpr ⟨still, by simpa using apart⟩
    · exact still

theorem traced_step (traced : Traced w) {e : Event} (next : step cfg t w e = some u) :
    Traced u := by
  have sound : Sound u.vfs := sound_step traced.sound (step_vfs next)
  cases step_change next with
  | opens env path answer d given fresh =>
      exact traced.opens sound fresh (traced.opened given fresh)
  | fails env path answer given =>
    rcases vfsOpendir_cases traced.sound t env path answer with ⟨_, mounts, dirMap⟩ | ⟨_,
      _, _, _, result, _⟩
    · refine traced.same_held sound dirMap fun _ _ i m _ _ mounted => ⟨m, ?_, rfl⟩
      rw [mounts, mounted]
    · rw [result] at given
      cases given
  | closes d => exact traced.closes d sound
  | other _ still s moved =>
    obtain ⟨dirMap, mounts⟩ := other_tables traced.sound still moved
    exact traced.same_held sound dirMap mounts

/-- A directory that is handed out while a place is free gets one; the others keep theirs. -/
theorem full_step (traced : Traced w) (full : Full w) {e : Event} (next : step cfg t w e = some u)
    (room : u.held.length ≤ dirsMax) : Full u := by
  cases step_change next with
  | opens env path answer d given fresh =>
    have opened := traced.opened given fresh
    rcases opened.dirMap with ⟨taken, _⟩ | ⟨place, i, m, within, free, _, _, placed⟩
    · have many := traced.full_table taken
      simp only [List.length_cons] at room
      omega
    · intro d' id member
      rcases List.mem_cons.mp member with same | old
      · cases same
        exact ⟨place, i, within, by simp [placed]⟩
      · obtain ⟨k, j, inside, here⟩ := full d' id old
        have apart : k ≠ place := by
          intro same
          rw [same, free] at here
          cases here
        exact ⟨k, j, inside, by simp [placed, apart, here]⟩
  | fails env path answer given =>
    rcases vfsOpendir_cases traced.sound t env path answer with ⟨_, _, dirMap⟩ | ⟨_,
      _, _, _, result, _⟩
    · unfold Full
      dsimp only
      rw [dirMap]
      exact full
    · rw [result] at given
      cases given
  | closes d =>
    intro d' id member
    obtain ⟨held, apart⟩ := List.mem_filter.mp member
    obtain ⟨k, i, within, here⟩ := full d' id held
    refine ⟨k, i, within, ?_⟩
    have other : d' ≠ d := by simpa using apart
    dsimp only
    rw [(vfsClosedir_tables traced.sound traced.once d).2 k within, here]
    simp [Option.filter, other]
  | other _ still s moved =>
    unfold Full
    dsimp only
    rw [(other_tables traced.sound still moved).1]
    exact full

theorem kept_of_full (traced : Traced w) (full : Full w) : Kept w := by
  have routed : ∀ d id, (d, id) ∈ w.held → ∃ i m,
      mountByDir w.vfs d = some i ∧ w.vfs.mounts i = some m ∧ m.id = id := by
    intro d id member
    obtain ⟨k, i, within, here⟩ := full d id member
    obtain ⟨m, mounted, listed⟩ := traced.listed k d i within here
    have same := List.inj_on_of_nodup_map traced.nodup listed member rfl
    exact ⟨i, m, mountByDir_of_tracked traced.once within here, mounted, congrArg Prod.snd same⟩
  refine ⟨routed, ?_, ?_⟩
  · intro d id member reaches
    obtain ⟨i, m, found, mounted, named⟩ := routed d id member
    have has : m.has .closedir = true := by simpa [releases, found, mounted] using reaches
    refine ⟨?_, ?_⟩
    · simp only [vfsClosedir, found, callDir_eq mounted, has, if_true, dirMapClear_log]
      rw [named]
      rfl
    · refine mountByDir_eq_none fun k within j here => ?_
      rw [(vfsClosedir_tables traced.sound traced.once d).2 k within] at here
      exact (filter_eq_some here).2 rfl
  · intro d id member beyond point i m found mounted named
    obtain ⟨j, n, routes, there, also⟩ := routed d id member
    have same : j = i := traced.sound.distinct j i n m there mounted (also.trans named.symm)
    obtain ⟨k, within, here⟩ := mountByDir_tracked routes
    exact (delMount_refuses found).mpr (.inr (.inr ⟨k, within, by simp [here, same]⟩))

end Invariant

section Runs

variable {cfg : Config} {t : Trees}

theorem traced_start (has : Callback → Bool) (table : Nat → Option Entry) :
    Traced (start has table) where
  sound := sound_boot has table
  once _ _ _ _ _ _ here := by cases here
  listed _ _ _ _ here := by cases here
  nodup := List.nodup_nil
  open_below _ _ member := by cases member

theorem traced_run {has : Callback → Bool} {table : Nat → Option Entry}
    {es : List Event} {w : World}
    (reached : run (step cfg t) (start has table) es = some w) : Traced w :=
  run_invariant (fun _ _ _ traced next => traced_step traced next) reached (traced_start has table)

/-- Every directory is kept all along a run exactly if there are never more than eight. -/
theorem directories_kept_iff (cfg : Config) (t : Trees) (has : Callback → Bool)
    (table : Nat → Option Entry) (es : List Event) :
    Along (step cfg t) (fun w e => ∀ u, step cfg t w e = some u → Kept u) (start has table) es ↔
      Along (step cfg t) (fun w e => ∀ u, step cfg t w e = some u → u.held.length ≤ dirsMax)
        (start has table) es := by
  constructor
  · refine Along.imp (P := Traced) (fun w e u traced _ next => traced_step traced next) ?_
      (traced_start has table)
    intro w e traced kept u next
    refine (traced_step traced next).held_le fun d id member => ?_
    obtain ⟨i, _, routes, _⟩ := (kept u next).routed d id member
    obtain ⟨k, within, here⟩ := mountByDir_tracked routes
    exact ⟨k, i, within, here⟩
  · refine Along.imp (P := fun w => Traced w ∧ Full w) ?_ ?_ ⟨traced_start has table, ?_⟩
    · intro w e u both room next
      exact ⟨traced_step both.1 next, full_step both.1 both.2 next (room u next)⟩
    · intro w e both room u next
      exact kept_of_full (traced_step both.1 next) (full_step both.1 both.2 next (room u next))
    · intro d id member
      cases member

def nine : List Event :=
  .addMount "/mnt".toList (fun _ => true) ::
    (List.range 9).map fun n => .path opener (.opendir "/mnt/a".toList (some (100 + n)))

/-- The ninth is handed out and goes nowhere: reading and closing it call nothing, and once the
other eight are closed the stick can be unmounted under it. -/
theorem ninth_directory_is_lost :
    ∃ w ∈ run (step (lowest 4 0) noTrees) (start (fun _ => true) fun _ => none) nine,
      ((108, 1) ∈ w.held ∧ mountByDir w.vfs 108 = none ∧ (vfsClosedir w.vfs 108).log = w.vfs.log) ∧
      ∃ v ∈ run (step (lowest 4 0) noTrees) w ((List.range 8).map fun n => .closedir (100 + n)),
        v.held = [(108, 1)] ∧ v.below = [108] ∧
          (delMount v.vfs (fun _ => none) "/mnt".toList).2.isOk = true := by
  decide +kernel

end Runs

end Espix.Fs.Directories
