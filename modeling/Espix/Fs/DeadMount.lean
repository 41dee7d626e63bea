import Espix.Fs.Directories

/-! `espix_fs_mount_dead`: a volume whose device is gone.

A dead mount that is found by path or by key is answered by a file system that has no functions.
The table of directories has no such answer. -/

namespace Espix.Fs.DeadMount

open Function Access Directories Effects MountTable
open Vfs hiding step
open Lib.Run

/-- A mount with this number is dead, and no directory leads to a function of it. -/
structure Buried (id : Nat) (s : State) : Prop where
  given : id < s.nextId
  quiet : ∀ i m, s.mounts i = some m → m.id = id → m.dead = true ∧
    ∀ cb, ofDir cb = true → m.has cb = true → ∀ k d, k < dirsMax → s.dirMap k ≠ some ⟨d, i⟩

def Silent (id : Nat) (s u : State) : Prop :=
  ∃ new, u.log = s.log ++ new ∧ ∀ cb arg, Note.called id cb arg ∉ new

section Steps

variable {cfg : Config} {t : Trees} {id : Nat} {s u v : State}

theorem Silent.refl (id : Nat) (s : State) : Silent id s s := ⟨[], by simp, by simp⟩

theorem Silent.trans (first : Silent id s u) (second : Silent id u v) : Silent id s v := by
  obtain ⟨new, wrote, silent⟩ := first
  obtain ⟨more, wrote_more, silent_more⟩ := second
  refine ⟨new ++ more, by rw [wrote_more, wrote, List.append_assoc], ?_⟩
  intro cb arg member
  rcases List.mem_append.mp member with early | late
  · exact silent cb arg early
  · exact silent_more cb arg late

section

variable (buried : Buried id s)

include buried

theorem Buried.not_allowed (cb : Callback) (arg : Arg) : ¬ Allowed s (.called id cb arg) := by
  intro allowed
  obtain ⟨i, m, mounted, named, has, route⟩ := allowed
  obtain ⟨dead, quiet⟩ := buried.quiet i m mounted named
  rcases route with alive | ⟨of_dir, k, d, within, tracked⟩
  · rw [dead] at alive
    cases alive
  · exact quiet cb of_dir has k d within tracked

theorem Buried.silent (tracks : Tracks s u) : Silent id s u := by
  obtain ⟨w, acts, only⟩ := tracks.mid
  obtain ⟨new, wrote, allowed⟩ := acts.log
  refine ⟨new, by rw [only]; exact wrote, ?_⟩
  intro cb arg member
  exact buried.not_allowed cb arg (allowed _ member)

theorem Buried.tracks (tracks : Tracks s u) : Buried id u := by
  obtain ⟨w, acts, only⟩ := tracks.mid
  have mounts : u.mounts = s.mounts := by
    rw [only]
    exact acts.mounts
  refine ⟨?_, ?_⟩
  · rw [only]
    exact acts.nextId ▸ buried.given
  · intro i m mounted named
    rw [mounts] at mounted
    obtain ⟨dead, quiet⟩ := buried.quiet i m mounted named
    refine ⟨dead, fun cb of_dir has k d within here => ?_⟩
    rcases tracks.dirs k d i here with old | ⟨n, other, alive⟩
    · exact quiet cb of_dir has k d within old
    · rw [mounted, Option.some.injEq] at other
      rw [← other, dead] at alive
      cases alive

theorem Buried.remount {i n : Nat} {entry : Option Mount} (later : s.nextId ≤ n)
    (fits : ∀ m, entry = some m → m.id = id → ∃ old, s.mounts i = some old ∧ old.id = id ∧
      old.has = m.has ∧ (old.dead = true → m.dead = true)) :
    Buried id { setMount s i entry with nextId := n } where
  given := buried.given.trans_le later
  quiet j m mounted named := by
    by_cases here : j = i
    · simp only [setMount, here, update_self] at mounted
      obtain ⟨old, before, same, has, dies⟩ := fits m mounted named
      obtain ⟨dead, quiet⟩ := buried.quiet i old before same
      rw [has] at quiet
      exact ⟨dies dead, here ▸ quiet⟩
    · simp only [setMount, update_of_ne here] at mounted
      exact buried.quiet j m mounted named

end

theorem buried_step (sound : Sound s) (buried : Buried id s) {e : Event}
    (next : Vfs.step cfg t s e = some u) : Buried id u ∧ Silent id s u := by
  cases calm : remounts e with
  | false =>
    have tracks := tracks_step sound next calm
    exact ⟨buried.tracks tracks, buried.silent tracks⟩
  | true =>
    have quiet : u.log = s.log → Silent id s u :=
      fun log => ⟨[], by rw [List.append_nil]; exact log, by simp⟩
    cases remount_step next calm with
    | same => exact ⟨buried, quiet rfl⟩
    | comes i has point behind free =>
      refine ⟨buried.remount (Nat.le_succ _) fun m same named => ?_, quiet rfl⟩
      cases same
      exact absurd named (Nat.ne_of_gt buried.given)
    | goes i behind no_slot no_dir =>
      refine ⟨buried.remount le_rfl fun m same => ?_, quiet rfl⟩
      cases same
    | dies i m behind used =>
      refine ⟨buried.remount le_rfl fun dead same named => ?_, quiet rfl⟩
      cases same
      exact ⟨m, used, named, rfl, fun _ => rfl⟩

end Steps

section Runs

variable {cfg : Config} {t : Trees} {w u : World}

theorem buried_run {id : Nat} {es : List Event} (done : run (step cfg t) w es = some u)
    (traced : Traced w) (buried : Buried id w.vfs) : Silent id w.vfs u.vfs := by
  induction es generalizing w with
  | nil =>
    cases done
    exact Silent.refl id u.vfs
  | cons e es ih =>
    obtain ⟨v, first, rest⟩ := run_cons done
    obtain ⟨still, silent⟩ := buried_step traced.sound buried (step_vfs first)
    exact silent.trans (ih rest (traced_step traced first) still)

theorem dead_directory_called (cfg : Config) (t : Trees) {d i : Nat} {m : Mount} {cb : Callback}
    (routes : mountByDir w.vfs d = some i) (mounted : w.vfs.mounts i = some m)
    (of_dir : ofDir cb = true) (has : m.has cb = true) :
    ∃ e u, step cfg t w e = some u ∧ u.vfs.log = w.vfs.log ++ [.called m.id cb (.dir d)] := by
  have called : callDir w.vfs i cb d = w.vfs.note [.called m.id cb (.dir d)] := by
    rw [callDir_eq mounted, if_pos has]
  have reads : ∀ op : DirCall, op.callback = cb → ∃ e u, step cfg t w e = some u ∧
      u.vfs.log = w.vfs.log ++ [.called m.id cb (.dir d)] := by
    intro op same
    refine ⟨.onDir d op, _, rfl, ?_⟩
    simp only [onDir, routes, same, called]
    rfl
  cases cb with
  | readdir => exact reads .readdir rfl
  | readdirR => exact reads .readdirR rfl
  | telldir => exact reads .telldir rfl
  | seekdir => exact reads .seekdir rfl
  | closedir =>
    refine ⟨.closedir d, _, rfl, ?_⟩
    simp only [vfsClosedir, routes, called, dirMapClear_log]
    rfl
  | _ => cases of_dir

/-- A mount that dies is never called again exactly if no directory of it is open that its file
system has a function for. -/
theorem dead_mount_silent_iff (has : Callback → Bool) {table : Nat → Option Entry} (es : List Event)
    {point : Path} {i : Nat} {m : Mount} (reached : run (step cfg t) (start has table) es = some w)
    (found : mountAt w.vfs point = some i) (mounted : w.vfs.mounts i = some m)
    (died : step cfg t w (.mountDead point) = some u) :
    (∀ later v, run (step cfg t) u later = some v → Silent m.id u.vfs v.vfs) ↔
      ∀ d, mountByDir w.vfs d = some i → ∀ cb, ofDir cb = true → m.has cb = false := by
  have traced := traced_run reached
  have dead : u.vfs = setMount w.vfs i (some { m with dead := true }) := by
    have moved := step_vfs died
    simp only [Vfs.step, Option.some.injEq] at moved
    rw [← moved]
    simp [mountDead, found, mounted, orSame]
  constructor
  · intro silent d routes cb of_dir
    by_contra answers
    have routes_still : mountByDir u.vfs d = some i := by rw [dead]; exact routes
    have mounted_still : u.vfs.mounts i = some { m with dead := true } := by simp [dead, setMount]
    obtain ⟨e, v, next, wrote⟩ := dead_directory_called cfg t routes_still mounted_still
      of_dir (by simpa using answers)
    obtain ⟨new, also, quiet⟩ := silent [e] v (by simp [run, next])
    rw [wrote] at also
    have same := List.append_cancel_left also
    exact quiet cb (.dir d) (same ▸ List.mem_singleton_self _)
  · intro closed later v done
    refine buried_run done (traced_step traced died) ⟨?_, ?_⟩
    · rw [dead]
      exact traced.sound.ids i m mounted
    · intro j n used named
      have here : j = i := by
        by_contra apart
        rw [dead] at used
        simp only [setMount, update_of_ne apart] at used
        exact apart (traced.sound.distinct j i n m used mounted named)
      subst here
      rw [dead] at used
      simp only [setMount, update_self, Option.some.injEq] at used
      subst used
      refine ⟨rfl, fun cb of_dir has k d within tracked => ?_⟩
      rw [dead] at tracked
      have routes := mountByDir_of_tracked traced.once within tracked
      rw [closed d routes cb of_dir] at has
      cases has

def listing : List Event :=
  [.addMount "/mnt".toList fun _ => true, .path opener (.opendir "/mnt".toList (some 100))]

/-- A stick that nobody lists any more is left alone once it is gone. -/
theorem unlisted_stick_is_silent :
    ∃ w u, run (step (lowest 4 0) noTrees) (start (fun _ => true) fun _ => none)
        (listing ++ [.closedir 100]) = some w ∧
      step (lowest 4 0) noTrees w (.mountDead "/mnt".toList) = some u ∧
      ∀ later v, run (step (lowest 4 0) noTrees) u later = some v → Silent 1 u.vfs v.vfs := by
  refine ⟨_, _, rfl, rfl, ?_⟩
  refine (dead_mount_silent_iff (fun _ => true) (listing ++ [.closedir 100])
    (show run (step (lowest 4 0) noTrees) (start (fun _ => true) fun _ => none) _ = some _ from rfl)
    (i := 1) (m := ⟨1, fun _ => true, "/mnt".toList, false⟩) (by decide +kernel) rfl rfl).mpr ?_
  intro d routes
  obtain ⟨k, _, tracked⟩ := mountByDir_tracked routes
  cases k <;> cases tracked

/-- The stick is pulled out while a program lists it; the next `readdir` and the `closedir` call
the file system that is gone. -/
theorem pulled_out_while_listing :
    ∃ w ∈ run (step (lowest 4 0) noTrees) (start (fun _ => true) fun _ => none)
        (listing ++ [.mountDead "/mnt".toList]),
      ((w.vfs.mounts 1).any fun m => m.dead && m.id == 1) = true ∧
      ∃ v ∈ run (step (lowest 4 0) noTrees) w [.onDir 100 .readdir, .closedir 100],
        v.vfs.log = w.vfs.log ++
        [.called 1 .readdir (.dir 100), .called 1 .closedir (.dir 100)] := by
  decide +kernel

end Runs

end Espix.Fs.DeadMount
