import Espix.Proc.TaskInvariant

/-! Whose credentials a task acts with.

The lookup of `access.c` finds a subject by the handle of a process's main task,
then by the session in the task's own storage. A thread of a process has neither:
its handle is in the books and not in the table, and no trampoline sets a session. -/

namespace Espix.Proc.Credentials

open Fs.Access Lib Tasks

/-- The credentials of a process: those copied at its spawn, and for a shell or a
command those of the session its main task runs. -/
def procCred (s : State) (i : SlotId) : Option Cred :=
  match s.slots i with
  | none => none
  | some slot =>
    if slot.kind = .session ∨ slot.kind = .builtin then
      (slot.task.bind s.sessionTls).map s.sessions
    else some slot.cred

def DecidesAs (cfg : Config) (s : State) (t : TaskId) (who : Cred) : Prop :=
  ∀ (view : View) (path : Path),
    (∀ op flags, fsAccessCheck cfg s view t path op flags = accessCheck view who path op flags) ∧
    (∀ changingOwner, fsAdminCheck cfg s view t path changingOwner =
      if rootPermits (procRoot cfg s t) path then adminCheck view who path changingOwner
      else some .enoent) ∧
    ∀ mode, fsClaim cfg s view t path mode = claim view who path mode

def IsMain (s : State) (i : SlotId) (t : TaskId) : Prop :=
  ∃ slot, s.slots i = some slot ∧ slot.task = some t

section Decisions

variable {cfg : Config} {s : State} {t : TaskId} {who : Cred}

theorem decidesAs_of_subject {w : Cred} (plain : s.fsPriv t = 0)
    (found : subject cfg s t = some w) (same : SameIdentity w who) : DecidesAs cfg s t who := by
  have lowered : privileged s t = false := by simp [privileged, plain]
  intro view path
  refine ⟨fun op flags => ?_, fun changingOwner => ?_, fun mode => ?_⟩
  · simp [fsAccessCheck, lowered, found, accessCheck_congr same]
  · simp only [fsAdminCheck, lowered, found, adminCheck_congr same]
    cases rootPermits (procRoot cfg s t) path <;> simp
  · simp [fsClaim, lowered, found, claim_congr same]

theorem subject_of_decidesAs (unprivileged : who.uid ≠ 0) (decides : DecidesAs cfg s t who) :
    s.fsPriv t = 0 ∧ ∃ w, subject cfg s t = some w ∧ SameIdentity w who := by
  have stamped := (decides (fun _ => some ⟨1, 0, 0⟩) []).2.2 0
  rw [claim_stamps] at stamped
  obtain ⟨lowered, stamped⟩ := Option.ite_none_left_eq_some.mp stamped
  have plain : s.fsPriv t = 0 := by simpa [privileged] using lowered
  split at stamped
  · cases stamped
  · rename_i w found
    rw [claim_stamps, Option.some.injEq, Stamp.mk.injEq] at stamped
    refine ⟨plain, w, found, stamped.2.1, stamped.2.2, fun gid => ?_⟩
    have asked := (decides (fun _ => some ⟨0o040, 0, gid⟩) []).1 .open readOnly
    have other : w.uid ≠ 0 := by
      rw [stamped.2.1]
      exact unprivileged
    simp only [fsAccessCheck, lowered, found, accessCheck_group who unprivileged,
      accessCheck_group w other, Bool.false_eq_true, if_false] at asked
    cases held : holdsGroup w gid <;> cases held' : holdsGroup who gid <;> simp_all

theorem decidesAs_iff (unprivileged : who.uid ≠ 0) :
    DecidesAs cfg s t who ↔ s.fsPriv t = 0 ∧ ∃ w, subject cfg s t = some w ∧
    SameIdentity w who := by
  constructor
  · exact subject_of_decidesAs unprivileged
  · rintro ⟨plain, w, found, same⟩
    exact decidesAs_of_subject plain found same

theorem sameIdentity_bare_iff {uid gid : Nat} :
    SameIdentity ⟨uid, gid, []⟩ who ↔ who.uid = uid ∧ who.gid = gid ∧
    ∀ g ∈ who.groups, g = gid := by
  constructor
  · rintro ⟨rfl, rfl, groups⟩
    refine ⟨rfl, rfl, fun g member => ?_⟩
    have held := groups g
    simp [holdsGroup, member] at held
    exact held.symm
  · rintro ⟨rfl, rfl, groups⟩
    refine ⟨rfl, rfl, fun g => ?_⟩
    by_cases member : g ∈ who.groups
    · simp [holdsGroup, groups g member]
    · simp [holdsGroup, member]

end Decisions

section Subject

variable {cfg : Config} {s : State} {i : SlotId} {t : TaskId} {who : Cred}

theorem procSelf_cases (inv : Inv cfg s) (self : procSelf cfg s t = some i) :
    IsMain s i t ∨ ∃ e ∈ s.threads, e.slot = i ∧ e.task = some t := by
  simp only [procSelf] at self
  split at self
  · rename_i j tls
    split at self
    · cases self
      rcases inv.tls_owner t i tls with ⟨a, slot, task, -⟩ | thread
      · exact Or.inl ⟨a, slot, task⟩
      · exact Or.inr thread
    · exact Or.inl (slotOfTask_spec self)
  · exact Or.inl (slotOfTask_spec self)

theorem subject_main (inv : Inv cfg s) (main : IsMain s i t) (quiet : s.actAs = none)
    (cred : procCred s i = some who) : subject cfg s t = some who := by
  obtain ⟨slot, present, task⟩ := main
  simp only [subject, quiet, credOfTask, slotOfTask_main inv present task, Option.bind_some,
    present]
  simp only [procCred, present, task, Option.bind_some] at cred
  by_cases shell : slot.kind = .session ∨ slot.kind = .builtin
  · simpa [shell] using cred
  · simpa [shell] using cred

theorem subject_thread (inv : Inv cfg s) {e : Thread} (member : e ∈ s.threads)
    (task : e.task = some t) (quiet : s.actAs = none) : subject cfg s t = none := by
  have unlisted : slotOfTask cfg s t = none := by
    cases found : slotOfTask cfg s t with
    | none => rfl
    | some j =>
      obtain ⟨a, slot, main⟩ := slotOfTask_spec found
      exact absurd main (inv.thread_main e member t task j a slot)
  simp [subject, quiet, credOfTask, unlisted, inv.thread_session e member t task]

end Subject

/-- In every reachable state a task of an unprivileged process decides as its
process exactly when it has raised no privilege and either nobody is acted for
and it is the main task, or the one acted for has the process's identity. -/
theorem task_decides_as_process_iff {cfg : Config} {sessions : SessionId → Cred}
    {events : List Event} {s : State} (done : Run.run (step cfg) (boot sessions) events = some s)
    {i : SlotId} {t : TaskId} {who : Cred} (self : procSelf cfg s t = some i)
    (cred : procCred s i = some who) (unprivileged : who.uid ≠ 0) :
    DecidesAs cfg s t who ↔
      s.fsPriv t = 0 ∧
        ((s.actAs = none ∧ IsMain s i t) ∨
          s.actAs = some (who.uid, who.gid) ∧ ∀ g ∈ who.groups, g = who.gid) := by
  have inv : Inv cfg s :=
    Run.run_invariant (fun _ _ _ inv stepped => step_inv inv stepped) done (boot_inv cfg sessions)
  rw [decidesAs_iff unprivileged]
  refine and_congr_right fun _ => ?_
  cases acting : s.actAs with
  | none =>
    simp only [true_and, reduceCtorEq, false_and, or_false]
    rcases procSelf_cases inv self with main | ⟨e, member, -, task⟩
    · exact iff_of_true ⟨who, subject_main inv main acting cred, rfl, rfl, fun _ => rfl⟩ main
    · apply iff_of_false
      · rintro ⟨w, found, -⟩
        rw [subject_thread inv member task acting] at found
        cases found
      · rintro ⟨slot, present, main⟩
        exact inv.thread_main e member t task i slot present main
  | some acted =>
    obtain ⟨uid, gid⟩ := acted
    simp only [reduceCtorEq, false_and, false_or, subject, acting, Option.some.injEq,
      exists_eq_left', sameIdentity_bare_iff, Prod.mk.injEq]
    grind

def threadedApp : List Event :=
  [.spawnElf 1 (some 0) none none [], .startApp 1, .reserveThread 1, .startThread 2 1]

theorem main_task_decides_as_process :
    ∃ s, Run.run (step ⟨32, 16⟩) (boot fun _ => ⟨1000, 1000, [1000]⟩) threadedApp = some s ∧
      DecidesAs ⟨32, 16⟩ s 1 ⟨1000, 1000, [1000]⟩ := by
  have done :
    ∃ s, Run.run (step ⟨32, 16⟩) (boot fun _ => ⟨1000, 1000, [1000]⟩) threadedApp = some s ∧
      procSelf ⟨32, 16⟩ s 1 = some 0 ∧ procCred s 0 = some ⟨1000, 1000, [1000]⟩ ∧
      s.fsPriv 1 = 0 ∧ s.actAs = none ∧ IsMain s 0 1 :=
    ⟨_, rfl, by decide, by decide, rfl, rfl, _, rfl, rfl⟩
  obtain ⟨s, run, self, cred, plain, quiet, main⟩ := done
  exact ⟨s, run, (task_decides_as_process_iff run self cred (by decide)).mpr
    ⟨plain, Or.inl ⟨quiet, main⟩⟩⟩

/-- The thread of that app opens root's password file for writing. -/
theorem thread_opens_as_espix :
    ∃ s, Run.run (step ⟨32, 16⟩) (boot fun _ => ⟨1000, 1000, [1000]⟩) threadedApp = some s ∧
      procSelf ⟨32, 16⟩ s 2 = some 0 ∧
      procCred s 0 = some ⟨1000, 1000, [1000]⟩ ∧
      subject ⟨32, 16⟩ s 2 = none ∧
      fsAccessCheck ⟨32, 16⟩ s (fun _ => some ⟨0o600, 0, 0⟩) 2 "/etc/passwd".toList .open
        ⟨true, false, false, false, false⟩ = none ∧
      accessCheck (fun _ => some ⟨0o600, 0, 0⟩) ⟨1000, 1000, [1000]⟩ "/etc/passwd".toList .open
        ⟨true, false, false, false, false⟩ = some .eacces := by
  refine ⟨_, rfl, ?_, ?_, ?_, ?_, ?_⟩ <;> decide

end Espix.Proc.Credentials
