import Espix.Fs.Vfs

/-! Which calls into a file system the permission check stands before.

Each operation is taken alone, from any tables: what it writes to the log shows the order of
its checks and of the calls below. -/

namespace Espix.Fs.Mediation

open Access Vfs Proc.Root

/-- The function changes the file system. An open is counted whatever its flags are. -/
def mutates : Callback → Bool
  | .open | .unlink | .rename | .mkdir | .rmdir | .truncate | .utime => true
  | _ => false

def opOf : Callback → Option Op
  | .open => some .open
  | .unlink => some .unlink
  | .rename => some .rename
  | .mkdir => some .mkdir
  | .rmdir => some .rmdir
  | .truncate => some .truncate
  | _ => none

def pathsOf : Arg → List Path
  | .path p => [p]
  | .two p q => [p, q]
  | .file p _ => [p]
  | .fd _ => []
  | .dir _ => []

def flagsOf : PathCall → OpenFlags
  | .open _ flags _ _ => flags
  | _ => noFlags

/-- The check for this operation has returned zero for the path. A function the check has no
operation for may have been checked as any. -/
def Passed (env : Env) (flags : OpenFlags) (before : List Note) (cb : Callback) (p : Path) : Prop :=
  ∃ op, (∀ known, opOf cb = some known → op = known) ∧ fsAccessCheck env p op flags = none ∧
    Note.checked op p flags none ∈ before

def Cleared (env : Env) (flags : OpenFlags) (before : List Note) : Note → Prop
  | .called _ cb arg => mutates cb = true →
      pathsOf arg ≠ [] ∧ ∀ p ∈ pathsOf arg, Passed env flags before cb p
  | .stamped p _ => ∃ cb, mutates cb = true ∧ Passed env flags before cb p
  | _ => True

def Mediated (env : Env) (flags : OpenFlags) (notes : List Note) : Prop :=
  ∀ before n after, notes = before ++ n :: after → Cleared env flags before n

variable {cb : Callback} {p : Path}

section Notes

variable {env : Env} {flags : OpenFlags} {notes : List Note} {n : Note}

theorem mediated_nil : Mediated env flags [] := by
  intro before n after split
  cases before <;> cases split

theorem Mediated.snoc (mediated : Mediated env flags notes) (cleared : Cleared env flags notes n) :
    Mediated env flags (notes ++ [n]) := by
  intro before m after split
  rcases List.eq_nil_or_concat' after with rfl | ⟨front, last, rfl⟩
  · obtain ⟨rfl, same⟩ := List.append_inj' split rfl
    cases same
    exact cleared
  · rw [← List.cons_append, ← List.append_assoc] at split
    obtain ⟨rfl, -⟩ := List.append_inj' split rfl
    exact mediated before m front rfl

/-- The call writes these notes, and no change comes before its check. -/
def Writes (env : Env) (flags : OpenFlags) (s s' : State) (notes : List Note) : Prop :=
  s'.log = s.log ++ notes ∧ Mediated env flags notes

variable {s s' u : State}

theorem Writes.refl (s : State) : Writes env flags s s [] :=
  ⟨(List.append_nil _).symm, mediated_nil⟩

section

variable (writes : Writes env flags s s' notes)

include writes

theorem Writes.note (cleared : Cleared env flags notes n) :
    Writes env flags s (s'.note [n]) (notes ++ [n]) := by
  refine ⟨?_, writes.2.snoc cleared⟩
  rw [State.note, writes.1, List.append_assoc]

theorem Writes.of_log (same : u.log = s'.log) :
    Writes env flags s u notes := ⟨same.trans writes.1, writes.2⟩

theorem Writes.checked (op : Op) (p : Path) (used : OpenFlags) (result : Option Errno) :
    Writes env flags s (s'.note [.checked op p used result])
    (notes ++ [.checked op p used result]) :=
  writes.note trivial

theorem Writes.call (i : Nat) (cb : Callback) (arg : Arg)
    (cleared : mutates cb = true → pathsOf arg ≠ [] ∧
      ∀ p ∈ pathsOf arg, Passed env flags notes cb p) :
    ∃ more, Writes env flags s (call s' i cb arg) (notes ++ more) := by
  unfold Vfs.call
  split
  · exact ⟨_, writes.note trivial⟩
  · split
    · exact ⟨_, writes.note cleared⟩
    · exact ⟨[], by rw [List.append_nil]; exact writes⟩

theorem Writes.harmless (i : Nat) (cb : Callback) (arg : Arg) (harmless : mutates cb = false) :
    ∃ more, Writes env flags s (Vfs.call s' i cb arg) (notes ++ more) :=
  writes.call i cb arg fun changing => absurd (harmless.symm.trans changing) nofun

theorem Writes.on (i : Nat) (passed : Passed env flags notes cb p) :
    ∃ more, Writes env flags s (Vfs.call s' i cb (.path p)) (notes ++ more) := by
  apply writes.call
  intro _
  refine ⟨List.cons_ne_nil _ _, ?_⟩
  intro q member
  rw [List.mem_singleton.mp member]
  exact passed

theorem Writes.claim (changing : mutates cb = true) (passed : Passed env flags notes cb p)
    (mode : Nat) :
    ∃ more, Writes env flags s (fsClaim env s' p mode) (notes ++ more) := by
  have unchanged : Writes env flags s s' (notes ++ []) := by
    rw [List.append_nil]
    exact writes
  unfold fsClaim
  split
  · exact ⟨[], unchanged⟩
  · split
    · exact ⟨[], unchanged⟩
    · split
      · exact ⟨[], unchanged⟩
      · exact ⟨_, writes.note ⟨cb, changing, passed⟩⟩

end

theorem Passed.mono {before : List Note} (passed : Passed env flags before cb p)
    (more : List Note) : Passed env flags (before ++ more) cb p := by
  obtain ⟨op, known, fine, member⟩ := passed
  exact ⟨op, known, fine, List.mem_append_left _ member⟩

end Notes

section Calls

variable {t : Trees} {env : Env} {s : State} {flags : OpenFlags} {notes : List Note}

theorem writes_asked (env : Env) (s : State) (op : Op) (p : Path) (flags : OpenFlags) :
    Writes env flags s (s.note [.checked op p flags (fsAccessCheck env p op flags)])
      [.checked op p flags (fsAccessCheck env p op flags)] := (Writes.refl s).note trivial

theorem passed_last (before : List Note) {op : Op} (known : opOf cb = some op)
    (fine : ¬ fsAccessCheck env p op flags ≠ none) :
    Passed env flags (before ++ [.checked op p flags (fsAccessCheck env p op flags)]) cb p := by
  have fine := not_not.mp fine
  refine ⟨op, ?_, fine, ?_⟩
  · intro other same
    rw [known] at same
    exact Option.some.inj same
  · rw [fine]
    exact List.mem_append_right _ (List.mem_singleton_self _)

theorem writes_onName {op : Op} (known : opOf cb = some op) (refused : Path → Bool)
    (s : State) (path : Path) :
    ∃ notes, Writes env noFlags s (onName env refused op cb s path) notes := by
  fun_cases onName env refused op cb s path with
  | case1 | case2 => exact ⟨[], Writes.refl s⟩
  | case3 p => exact ⟨_, writes_asked env s op p noFlags⟩
  | case4 p _ _ _ _ fine =>
    obtain ⟨more, writes⟩ :=
      (writes_asked env s op p noFlags).on (mountByPath _ p) (passed_last [] known fine)
    exact ⟨_, writes⟩

theorem writes_vfsRename (s : State) (src dst : Path) :
    ∃ notes, Writes env noFlags s (vfsRename t env s src dst) notes := by
  unfold vfsRename
  split
  · rename_i p q _ _
    have first := writes_asked env s .rename p noFlags
    have second := first.checked .rename q noFlags (fsAccessCheck env q .rename noFlags)
    split
    · exact ⟨[], Writes.refl s⟩
    · dsimp only
      split
      · exact ⟨_, first⟩
      · rename_i fine
        split
        · exact ⟨_, second⟩
        · rename_i both
          have source : Passed env noFlags _ .rename p := passed_last [] rfl fine
          split
          · obtain ⟨more, writes⟩ := second.call (mountByPath _ p) .rename (.two p q) fun _ =>
              ⟨List.cons_ne_nil _ _, by
                intro r member
                rcases List.mem_pair.mp member with rfl | rfl
                · exact source.mono _
                · exact passed_last _ rfl both⟩
            exact ⟨_, writes⟩
          · exact ⟨_, second⟩
  · exact ⟨[], Writes.refl s⟩

theorem writes_vfsMkdir (s : State) (path : Path) (mode : Nat) (made : Bool) :
    ∃ notes, Writes env noFlags s (vfsMkdir env s path mode made) notes := by
  have checked := fun p => writes_asked env s .mkdir p noFlags
  fun_cases vfsMkdir env s path mode made with
  | case1 | case2 => exact ⟨[], Writes.refl s⟩
  | case3 p => exact ⟨_, checked p⟩
  | case4 p _ _ _ _ fine =>
    have passed : Passed env noFlags _ .mkdir p := passed_last [] rfl fine
    obtain ⟨more, writes⟩ := (checked p).on (mountByPath _ p) passed
    obtain ⟨_, claimed⟩ := writes.claim rfl (passed.mono more) mode
    exact ⟨_, claimed⟩
  | case5 p _ _ _ _ fine =>
    have passed : Passed env noFlags _ .mkdir p := passed_last [] rfl fine
    obtain ⟨more, writes⟩ := (checked p).on (mountByPath _ p) passed
    exact ⟨_, writes⟩

theorem writes_vfsStat (s : State) (path : Path) :
    ∃ notes, Writes env noFlags s (vfsStat t env s path) notes := by
  fun_cases vfsStat t env s path with
  | case1 | case2 => exact ⟨[], Writes.refl s⟩
  | case3 p =>
    obtain ⟨more, writes⟩ := (Writes.refl s).harmless (mountByPath s p) .stat (.path p) rfl
    exact ⟨_, writes⟩

theorem dirMapSet_log (s : State) (dirp mount : Nat) : (dirMapSet s dirp mount).log = s.log := by
  unfold dirMapSet
  split <;> rfl

theorem writes_vfsOpendir (s : State) (path : Path) (answer : Option Nat) :
    ∃ notes, Writes env noFlags s (vfsOpendir t env s path answer).1 notes := by
  have checked := fun p => writes_asked env s .opendir p noFlags
  have opened := fun i p answer => (checked p).harmless i .opendir (.file p answer) rfl
  fun_cases vfsOpendir t env s path answer with
  | case1 => exact ⟨[], Writes.refl s⟩
  | case2 _ p | case5 _ p => exact ⟨_, checked p⟩
  | case3 p =>
    obtain ⟨more, writes⟩ := opened _ p none
    exact ⟨_, writes⟩
  | case4 p _ _ _ _ _ _ d =>
    obtain ⟨more, writes⟩ := opened _ p (some d)
    exact ⟨_, writes.of_log (dirMapSet_log _ _ _)⟩

theorem writes_vfsClose {s u : State} (writes : Writes env flags s u notes) (key : Nat) :
    ∃ more, Writes env flags s (vfsClose u key) (notes ++ more) := by
  have unchanged : Writes env flags s u (notes ++ []) := by
    rw [List.append_nil]
    exact writes
  fun_cases vfsClose u key with
  | case1 | case2 => exact ⟨[], unchanged⟩
  | case3 => exact ⟨[], unchanged.of_log rfl⟩
  | case4 =>
    obtain ⟨more, closed⟩ := writes.harmless _ .close (.fd _) rfl
    exact ⟨more, closed.of_log rfl⟩

theorem writes_keepOpened {s u : State} {mode i fd : Nat} (writes : Writes env flags s u notes)
    (passed : Passed env flags notes .open p) :
    ∃ more, Writes env flags s (keepOpened env u p flags mode i fd).1 (notes ++ more) := by
  unfold keepOpened
  split
  · exact writes.harmless i .close (.fd fd) rfl
  · split
    · exact writes.harmless i .close (.fd fd) rfl
    · rename_i key kept allocated
      obtain ⟨k, -, same⟩ := Option.map_eq_some_iff.mp allocated
      obtain ⟨rfl, rfl⟩ := Prod.mk.inj same
      have stored : Writes env flags s (setFd u k (some ⟨fd, i, env.pid, 1⟩)) notes :=
        writes.of_log rfl
      split
      · exact stored.claim rfl passed mode
      · exact ⟨[], by rw [List.append_nil]; exact stored⟩

theorem writes_openBelow {s u : State} {mode : Nat} {lower : Option Nat}
    (writes : Writes env flags s u notes) (passed : Passed env flags notes .open p) :
    ∃ more, Writes env flags s (openBelow env u p flags mode lower).1 (notes ++ more) := by
  unfold openBelow
  dsimp only
  split
  · obtain ⟨more, opened⟩ := writes.call (mountByPath u p) .open (.file p lower) fun _ =>
      ⟨List.cons_ne_nil _ _, by
        intro q member
        rw [List.mem_singleton.mp member]
        exact passed⟩
    split
    · exact ⟨more, opened⟩
    · obtain ⟨rest, kept⟩ := writes_keepOpened opened (passed.mono more)
      exact ⟨more ++ rest, by rw [← List.append_assoc]; exact kept⟩
  · exact ⟨[], by rw [List.append_nil]; exact writes⟩

theorem writes_vfsOpen (t : Trees) (env : Env) (s : State) (path : Path) (flags : OpenFlags)
    (mode : Nat) (answer : OpenAnswer) :
    ∃ notes, Writes env flags s (vfsOpen t env s path flags mode answer).1 notes := by
  have checked := fun p => writes_asked env s .open p flags
  fun_cases vfsOpen t env s path flags mode answer with
  | case1 => exact ⟨[], Writes.refl s⟩
  | case2 p | case3 p | case4 p => exact ⟨_, checked p⟩
  | case5 p _ _ _ fine =>
    obtain ⟨more, opened⟩ := writes_openBelow (checked p) (passed_last [] rfl fine)
    exact ⟨_, opened⟩

theorem writes_idfOpen (cfg : Config) (s : State) (path : Path) (flags : OpenFlags) (mode : Nat)
    (answer : OpenAnswer) :
    ∃ notes, Writes env flags s (idfOpen cfg t env s path flags mode answer) notes := by
  obtain ⟨notes, writes⟩ := writes_vfsOpen t env s path flags mode answer
  unfold idfOpen
  split
  · rename_i u same
    rw [same] at writes
    exact ⟨notes, writes⟩
  · rename_i u key same
    rw [same] at writes
    split
    · obtain ⟨more, closed⟩ := writes_vfsClose writes key
      exact ⟨_, closed⟩
    · rename_i fd v registered
      obtain ⟨k, -, same⟩ := Option.map_eq_some_iff.mp registered
      cases same
      exact ⟨notes, writes.of_log rfl⟩

end Calls

def notesOf (cfg : Config) (t : Trees) (env : Env) (s : State) (call : PathCall) : List Note :=
  (performPath cfg t env s call).log.drop s.log.length

section Calls

variable {cfg : Config} {t : Trees} {env : Env} {s : State} {call : PathCall}

theorem notesOf_eq {notes : List Note}
    (written : (performPath cfg t env s call).log = s.log ++ notes) :
    notesOf cfg t env s call = notes := by
  rw [notesOf, written, List.drop_left]

/-- Every operation but `utime` asks before it changes anything. -/
theorem mediated_of_ne_utime (other : ∀ path, call ≠ .utime path) :
    Mediated env (flagsOf call) (notesOf cfg t env s call) := by
  have written : ∃ notes, Writes env (flagsOf call) s (performPath cfg t env s call) notes := by
    cases call with
    | «open» path flags mode answer => exact writes_idfOpen cfg s path flags mode answer
    | unlink path | rmdir path | truncate path => exact writes_onName rfl _ s path
    | rename src dst => exact writes_vfsRename s src dst
    | mkdir path mode made => exact writes_vfsMkdir s path mode made
    | utime path => exact absurd rfl (other path)
    | stat path => exact writes_vfsStat s path
    | opendir path answer => exact writes_vfsOpendir s path answer
  obtain ⟨notes, log, mediated⟩ := written
  rw [notesOf_eq log]
  exact mediated

/-- A `utime` is handed to a file system below. -/
def Touches (t : Trees) (env : Env) (s : State) (path : Path) : Prop :=
  ∃ p, vfsResolve env.caller path = some p ∧ inTrees t p = false ∧
    reaches s (mountByPath s p) .utime = true

theorem notesOf_utime (cfg : Config) (t : Trees) (env : Env) (s : State) (path : Path) :
    (Touches t env s path ∧
        ∃ id p, notesOf cfg t env s (.utime path) = [.called id .utime (.path p)]) ∨
      ¬Touches t env s path ∧
        (notesOf cfg t env s (.utime path) = [] ∨
          notesOf cfg t env s (.utime path) = [.fault]) := by
  have unchanged : s.log = s.log ++ [] := (List.append_nil _).symm
  cases resolved : vfsResolve env.caller path with
  | none =>
    refine .inr ⟨fun ⟨p, same, _⟩ => by simp [resolved] at same, .inl (notesOf_eq ?_)⟩
    simp only [performPath, vfsUtime, resolved]
    exact unchanged
  | some p =>
    have same : performPath cfg t env s (.utime path) =
        if inTrees t p then s else Vfs.call s (mountByPath s p) .utime (.path p) := by
      simp only [performPath, vfsUtime, resolved]
    have touches : Touches t env s path ↔
        inTrees t p = false ∧ reaches s (mountByPath s p) .utime = true := by
          simp [Touches, resolved]
    rw [touches, reaches]
    unfold Vfs.call at same
    split at same
    · rename_i tree
      exact .inr ⟨by simp [tree], .inl (notesOf_eq (by rw [same]; exact unchanged))⟩
    · rename_i outside
      split at same
      · rename_i unmounted
        exact .inr ⟨by simp [unmounted], .inr (notesOf_eq (by rw [same]; rfl))⟩
      · rename_i m mounted
        split at same
        · rename_i has
          refine .inl ⟨⟨Bool.eq_false_iff.mpr outside, ?_⟩, _, _, notesOf_eq (by rw [same]; rfl)⟩
          simpa [mounted] using has
        · rename_i lacks
          refine .inr ⟨fun both => lacks ?_, .inl (notesOf_eq (by rw [same]; exact unchanged))⟩
          simpa [mounted] using both.2

/-- Whoever calls, whatever the mounts are. -/
theorem path_calls_mediated_iff (cfg : Config) (t : Trees) (env : Env) (s : State)
    (call : PathCall) : Mediated env (flagsOf call) (notesOf cfg t env s call) ↔
      ∀ path p, call = .utime path → vfsResolve env.caller path = some p → inTrees t p = false →
        reaches s (mountByPath s p) .utime = false := by
  by_cases utime : ∃ path, call = .utime path
  · obtain ⟨path, rfl⟩ := utime
    have untouched : (∀ path' p, PathCall.utime path = .utime path' →
        vfsResolve env.caller path' = some p → inTrees t p = false →
        reaches s (mountByPath s p) .utime = false) ↔ ¬Touches t env s path := by
      constructor
      · rintro all ⟨p, resolved, outside, reached⟩
        simp [all path p rfl resolved outside] at reached
      · rintro free _ p ⟨⟩ resolved outside
        exact Bool.eq_false_iff.mpr fun reached => free ⟨p, resolved, outside, reached⟩
    rw [untouched]
    rcases notesOf_utime cfg t env s path with ⟨touches, id, p, only⟩ | ⟨free, none | fault⟩
    · refine iff_of_false (fun mediated => ?_) (not_not.mpr touches)
      -- nothing stands before the only note
      obtain ⟨-, passed⟩ := mediated [] _ [] only rfl
      obtain ⟨op, -, -, member⟩ := passed p (List.mem_singleton_self _)
      cases member
    · rw [none]
      exact iff_of_true mediated_nil free
    · rw [fault]
      exact iff_of_true (mediated_nil.snoc trivial) free
  · refine iff_of_true (mediated_of_ne_utime fun path same => utime ⟨path, same⟩) ?_
    exact fun path p same => absurd ⟨path, same⟩ utime

end Calls

/-- A user's process, where root owns everything and nobody else may write. -/
def someone : Env :=
  { caller := ⟨[], "/".toList, false, some ⟨1000, 1000, []⟩⟩
    pid := some 7
    view := fun _ => some ⟨0o755, 0, 0⟩
    made := fun _ => none }

def passwd : Path := "/etc/passwd".toList

/-- The times of the password file are changed by a user who may not write it. -/
theorem utime_of_passwd :
    notesOf (lowest 40 0) noTrees someone (boot (fun _ => true) fun _ => none) (.utime passwd) =
        [.called 0 .utime (.path passwd)] ∧
      fsAccessCheck someone passwd .truncate noFlags = some .eacces ∧
      fsAccessCheck someone passwd .unlink noFlags = some .eacces := by
  decide +kernel

end Espix.Fs.Mediation
