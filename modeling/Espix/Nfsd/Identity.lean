import Espix.Nfsd.Requests
import Espix.Proc.Credentials

/-! The NFS server acts as its clients, and every other task looks on.

`espix_fs_act_as` leaves the client's identity where the permission check of any task
finds it first. The server's request is taken apart into the resolving of its handles and
its end; between the two, other tasks make their own calls. -/

namespace Espix.Nfsd.Identity

open Fs.Access Lib Exports
open Handles hiding Event step boot
open Proc.Credentials Proc.Tasks

structure System where
  tasks : State
  world : Requests.World

inductive Event
  /-- Any step of the process table. Only the server acts for others. -/
  | task (e : Proc.Tasks.Event)
  /-- What a request does to the handle table, a mount or a reload. -/
  | serve (e : Requests.Event)
  /-- `fh_resolve`: the client's identity is put on as soon as a rule is found. -/
  | resolve (peer : Peer) (fh : Handle)
  | respond

def actsFor : Proc.Tasks.Event → Bool
  | .actAs .. | .actAsNone => true
  | _ => false

def identityFor (world : Requests.World) (peer : Peer) (fh : Handle) : Option (Nat × Nat) :=
  (fhRule world.server.exports peer world.server.table fh).map fun found =>
    identity peer found.2.2

def step (cfg : Config) (s : System) : Event → Option System
  | .task e =>
    if actsFor e then none else (Proc.Tasks.step cfg s.tasks e).map fun tasks => { s with tasks }
  | .serve e => (Requests.step s.world e).map fun world => { s with world }
  | .resolve peer fh =>
    match identityFor s.world peer fh with
    | none => some s
    | some who =>
        (Proc.Tasks.step cfg s.tasks (.actAs who.1 who.2)).map fun tasks => { s with tasks }
  | .respond => (Proc.Tasks.step cfg s.tasks .actAsNone).map fun tasks => { s with tasks }

def boot (sessions : SessionId → Cred) : System := ⟨Proc.Tasks.boot sessions, Requests.boot⟩

def quiet (s : State) : State := { s with actAs := none }

/-- Every decision and every stamp on the task is what its own credentials give. -/
def Isolated (cfg : Config) (s : State) (t : TaskId) : Prop :=
  ∀ (view : View) (path : Path),
    (∀ op flags, fsAccessCheck cfg s view t path op flags =
      fsAccessCheck cfg (quiet s) view t path op flags) ∧
    (∀ changingOwner, fsAdminCheck cfg s view t path changingOwner =
      fsAdminCheck cfg (quiet s) view t path changingOwner) ∧
    ∀ mode, fsClaim cfg s view t path mode = fsClaim cfg (quiet s) view t path mode

section Decisions

variable {cfg : Config} {s : State} {t : TaskId} {uid gid : Nat}

@[simp] theorem privileged_quiet : privileged (quiet s) t = privileged s t := rfl

@[simp] theorem procRoot_quiet : procRoot cfg (quiet s) t = procRoot cfg s t := rfl

theorem subject_acting (acting : s.actAs = some (uid, gid)) :
    subject cfg s t = some ⟨uid, gid, []⟩ := by
  simp only [subject, acting]

theorem isolated_of_quiet (nobody : s.actAs = none) : Isolated cfg s t := by
  have same : quiet s = s := by
    cases s
    cases nobody
    rfl
  rw [Isolated, same]
  exact fun view path => ⟨fun _ _ => rfl, fun _ => rfl, fun _ => rfl⟩

theorem isolated_of_privileged (raised : privileged s t = true) : Isolated cfg s t := by
  intro view path
  simp [fsAccessCheck, fsAdminCheck, fsClaim, raised]

theorem isolated_root {own : Cred} (acting : s.actAs = some (0, gid))
    (self : subject cfg (quiet s) t = some own) (uid_same : own.uid = 0)
    (gid_same : own.gid = gid) :
    Isolated cfg s t := by
  intro view path
  simp [fsAccessCheck, fsAdminCheck, fsClaim, subject_acting acting, self, accessCheck, adminCheck,
    claim, uid_same, gid_same]

theorem isolated_same {own : Cred} (acting : s.actAs = some (uid, gid))
    (self : subject cfg (quiet s) t = some own) (same : SameIdentity ⟨uid, gid, []⟩ own) :
    Isolated cfg s t := by
  intro view path
  simp [fsAccessCheck, fsAdminCheck, fsClaim, subject_acting acting, self, accessCheck_congr same,
    adminCheck_congr same, claim_congr same]

theorem same_of_isolated (acting : s.actAs = some (uid, gid)) (lowered : privileged s t = false)
    (isolated : Isolated cfg s t) :
    ∃ own, subject cfg (quiet s) t = some own ∧ own.uid = uid ∧ own.gid = gid ∧
      (uid ≠ 0 → ∀ g ∈ own.groups, g = gid) := by
  have stamped := (isolated (fun _ => some ⟨1, 0, 0⟩) []).2.2 0
  simp only [fsClaim, privileged_quiet, lowered, subject_acting acting, claim_stamps,
    Bool.false_eq_true, if_false] at stamped
  cases self : subject cfg (quiet s) t with
  | none => simp [self] at stamped
  | some own =>
    simp only [self, Option.some.injEq, Stamp.mk.injEq, true_and] at stamped
    obtain ⟨uid_same, gid_same⟩ := stamped
    refine ⟨own, rfl, uid_same.symm, gid_same.symm, ?_⟩
    intro user g member
    have asked := (isolated (fun _ => some ⟨0o040, 0, g⟩) []).1 .open readOnly
    simp only [fsAccessCheck, privileged_quiet, lowered, subject_acting acting, self,
      Bool.false_eq_true, if_false, accessCheck_group ⟨uid, gid, []⟩ user,
      accessCheck_group own (uid_same ▸ user)] at asked
    have held : holdsGroup own g = true := by simp [holdsGroup, member]
    have bare : holdsGroup ⟨uid, gid, []⟩ g = true := by
      by_contra missing
      simp [held, missing] at asked
    have primary : gid = g := by simpa [holdsGroup] using bare
    exact primary.symm

theorem isolated_iff :
    Isolated cfg s t ↔ s.actAs = none ∨ privileged s t = true ∨
        ∃ own, subject cfg (quiet s) t = some own ∧ s.actAs = some (own.uid, own.gid) ∧
          (own.uid ≠ 0 → ∀ g ∈ own.groups, g = own.gid) := by
  constructor
  · intro isolated
    match acting : s.actAs with
    | none => exact .inl rfl
    | some (uid, gid) =>
      cases lowered : privileged s t with
      | true => exact .inr (.inl rfl)
      | false =>
        obtain ⟨own, self, rfl, rfl, groups⟩ := same_of_isolated acting lowered isolated
        exact .inr (.inr ⟨own, self, rfl, groups⟩)
  · rintro (nobody | raised | ⟨own, self, acting, groups⟩)
    · exact isolated_of_quiet nobody
    · exact isolated_of_privileged raised
    · by_cases root : own.uid = 0
      · rw [root] at acting
        exact isolated_root acting self root rfl
      · exact isolated_same acting self (sameIdentity_bare_iff.mpr ⟨rfl, rfl, groups root⟩)

end Decisions

section Runs

variable {cfg : Config} {s s' : System}

theorem finishSlot_actAs {u v : State} {i : SlotId} (done : finishSlot u i = some v) :
    v.actAs = u.actAs := by
  unfold finishSlot at done
  split at done
  · cases done
    rfl
  · cases done

theorem step_actAs {u v : State} {e : Proc.Tasks.Event} (other : actsFor e = false)
    (next : Proc.Tasks.step cfg u e = some v) : v.actAs = u.actAs := by
  cases e <;> simp only [Proc.Tasks.step] at next <;> (repeat' split at next) <;>
    first
    | contradiction
    | exact (finishSlot_actAs next).trans rfl
    | (cases next; rfl)

/-- The identity the server wears after the events: that of the last handle whose export
lists the client, until the request ends. -/
def worn (cfg : Config) : System → List Event → Option (Nat × Nat) → Option (Nat × Nat)
  | _, [], who => who
  | s, e :: es, who =>
    let after := match e with
      | .resolve peer fh => (identityFor s.world peer fh).or who
      | .respond => none
      | .task _ | .serve _ => who
    match step cfg s e with
    | none => who
    | some s' => worn cfg s' es after

theorem actAs_of_run {es : List Event} (done : Run.run (step cfg) s es = some s') :
    s'.tasks.actAs = worn cfg s es s.tasks.actAs := by
  induction es generalizing s with
  | nil =>
    cases done
    rfl
  | cons e es ih =>
    obtain ⟨u, first, rest⟩ := Run.run_cons done
    simp only [worn, first]
    rw [ih rest]
    congr 1
    cases e with
    | task e =>
      simp only [step] at first
      split at first
      · cases first
      · rename_i other
        obtain ⟨tasks, next, rfl⟩ := Option.map_eq_some_iff.mp first
        exact step_actAs (by simpa using other) next
    | serve e =>
      obtain ⟨world, next, rfl⟩ := Option.map_eq_some_iff.mp first
      rfl
    | resolve peer fh =>
      simp only [step] at first
      split at first
      · rename_i nobody
        cases first
        simp [nobody]
      · rename_i who found
        cases first
        simp [found]
    | respond =>
      cases first
      rfl

/-- In every interleaving of a server's requests with the other tasks: a task's decisions
and stamps are its own exactly when no request is under way that has put on a client's
identity, the task has raised its privilege, or the client's identity has the task's own
rights. -/
theorem other_task_isolated_iff {sessions : SessionId → Cred} {es : List Event}
    (done : Run.run (step cfg) (boot sessions) es = some s) (t : TaskId) :
    Isolated cfg s.tasks t ↔
      worn cfg (boot sessions) es none = none ∨ privileged s.tasks t = true ∨
        ∃ own, subject cfg (quiet s.tasks) t = some own ∧
          worn cfg (boot sessions) es none = some (own.uid, own.gid) ∧
          (own.uid ≠ 0 → ∀ g ∈ own.groups, g = own.gid) := by
  have acting : s.tasks.actAs = worn cfg (boot sessions) es none := actAs_of_run done
  rw [isolated_iff, acting]

end Runs

/-! A user's program, and an NFS client that is root on its own machine. -/

def trusting : Export := { pub with clients := [⟨0, 0, false, .none, 65534, 65534⟩] }

def rootClient : Peer := ⟨0x0A000009, some (0, 0)⟩

def beforeRequest : List Event :=
  [.task (.spawnElf 1 (some 0) none none []), .task (.startApp 1), .serve (.reload [trusting]),
    .serve (.mnt 0x0A000009 trusting.path true)]

def user : Cred := ⟨1000, 1000, [1000]⟩

def passwdFile : View := fun _ => some ⟨0o600, 0, 0⟩

def writing : OpenFlags := ⟨true, false, false, false, false⟩

/-- Before the client's request the program decides as its user. -/
theorem user_isolated_before_request :
    ∃ s, Run.run (step ⟨32, 16⟩) (boot fun _ => user) beforeRequest = some s ∧
      Isolated ⟨32, 16⟩ s.tasks 1 := by
  cases done : Run.run (step ⟨32, 16⟩) (boot fun _ => user) beforeRequest with
  | none =>
    have runs : (Run.run (step ⟨32, 16⟩) (boot fun _ => user) beforeRequest).isSome = true := by
      decide +kernel
    rw [done] at runs
    cases runs
  | some s =>
    have nobody : worn ⟨32, 16⟩ (boot fun _ => user) beforeRequest none = none := by decide +kernel
    exact ⟨s, rfl, (other_task_isolated_iff done 1).mpr (.inl nobody)⟩

/-- While the server answers the client, the user's program may write the password file. -/
theorem user_opens_as_nfs_client :
    (Run.run (step ⟨32, 16⟩) (boot fun _ => user) (beforeRequest ++
        [.resolve rootClient (fhBytes 0 1 trusting.path)])).map (fun s =>
        (fsAccessCheck ⟨32, 16⟩ s.tasks passwdFile 1 "/etc/passwd".toList .open writing,
          fsAccessCheck ⟨32, 16⟩ (quiet s.tasks) passwdFile 1 "/etc/passwd".toList .open writing)) =
      some (none, some .eacces) := by
  decide +kernel

end Espix.Nfsd.Identity
