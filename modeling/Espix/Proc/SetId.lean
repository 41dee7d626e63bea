import Espix.Proc.Tasks

/-! Who a set-id binary can turn a process into.

`espix_fs_chmod` and `espix_fs_chown` of `espix_fs/mode.c`, the stamp of a new file, and
the credentials `espix_proc_spawn_elf` takes from a binary, as steps of a file system that
users and their processes change. Modes and owners are the effective ones, whether stored
or given by a rule. -/

namespace Espix.Proc.SetId

open Fs.Access Lib.Run
open Tasks (spawnCred)

def iSUID : Nat := 0o4000
def iSGID : Nat := 0o2000
def keepId : Nat := 0xFFFF

def isSet (mode bit : Nat) : Bool := mode &&& bit != 0

structure World where
  files : View
  procs : List Cred

def World.setFile (w : World) (path : Path) (attr : Attr) : World :=
  { w with files := Function.update w.files path (some attr) }

def stamped (rule : Attr) : Option Stamp → Attr
  | none => rule
  | some stamp => ⟨stamp.mode, stamp.uid, stamp.gid⟩

def chowned (attr : Attr) (uid gid : Nat) : Attr :=
  { mode := attr.mode &&& (modeBits ^^^ (iSUID ||| iSGID))
    uid := if uid = keepId then attr.uid else uid
    gid := if gid = keepId then attr.gid else gid }

/-- The credentials of a program started from a session: a binary that is not there, or
has no set-id bit, adds nothing. -/
def spawned (session : Cred) : Option Attr → Cred
  | none => session
  | some attr =>
    spawnCred session (if isSet attr.mode iSUID then some attr.uid else none)
      (if isSet attr.mode iSGID then some attr.gid else none)

def creating : OpenFlags := ⟨true, false, false, false, true⟩

inductive Event
  /-- `open` with `O_CREAT` of a name that is not there. The rule's answer for it comes
  from the file system. -/
  | create (who : Cred) (path : Path) (mode : Nat) (rule : Attr)
  | chmod (who : Cred) (path : Path) (mode : Nat)
  | chown (who : Cred) (path : Path) (uid gid : Nat)
  | spawn (session : Cred) (path : Path)

section Step

-- which paths lie on a file system that keeps modes and owners, and who is logged in
variable (stores : Path → Bool) (logins : List Cred)

def acts (w : World) (who : Cred) : Bool := who.uid != 0 && (logins ++ w.procs).contains who

def step (w : World) : Event → Option World
  | .create who path mode rule =>
    if acts logins w who && (w.files path).isNone &&
        (accessCheck w.files who path .open creating).isNone then
      let born := w.setFile path rule
      if stores path then some (w.setFile path (stamped rule (claim born.files who path mode)))
      else some born
    else some w
  | .chmod who path mode =>
    match w.files path with
    | some attr =>
      if acts logins w who && mode &&& modeBits == mode &&
          (adminCheck w.files who path false).isNone && stores path then
        some (w.setFile path { attr with mode := mode })
      else some w
    | none => some w
  | .chown who path uid gid =>
    match w.files path with
    | some attr =>
      if acts logins w who && (adminCheck w.files who path (uid != keepId)).isNone &&
        stores path then
        some (w.setFile path (chowned attr uid gid))
      else some w
    | none => some w
  | .spawn session path =>
    if session.uid != 0 && logins.contains session then
      some { w with procs := spawned session (w.files path) :: w.procs }
    else some w

end Step

/-- A subject with this uid, a login or a process, holds the group. -/
def Held (logins : List Cred) (w : World) (uid gid : Nat) : Prop :=
  ∃ who ∈ logins ++ w.procs, who.uid = uid ∧ holdsGroup who gid = true

/-- A file has the group it had at the start, or one that a subject with its owner's uid
holds. Set-id bits are only on files of users, where they can be kept. -/
structure Inv (stores : Path → Bool) (logins : List Cred) (start : View) (w : World) : Prop where
  owned : ∀ path attr, w.files path = some attr →
    (isSet attr.mode iSUID = true ∨ isSet attr.mode iSGID = true) →
      attr.uid ≠ 0 ∧ stores path = true
  group : ∀ path attr, w.files path = some attr → stores path = true →
    (∃ old, start path = some old ∧ attr.gid = old.gid) ∨ Held logins w attr.uid attr.gid

/-- A group change keeps to groups its caller holds, and what a rule says of a new file has
no set-id bit (`mode_from_rule`). -/
def Plain : World → Event → Prop
  | _, .create _ _ _ rule => isSet rule.mode iSUID = false ∧ isSet rule.mode iSGID = false
  | _, .chown who _ uid gid => uid = keepId → gid ≠ keepId → holdsGroup who gid = true
  | _, .chmod .. | _, .spawn .. => True

section Files

variable {stores : Path → Bool} {logins : List Cred} {start : View} {w w' : World}
variable {who session : Cred} {path : Path} {attr : Attr}

@[simp] theorem setFile_same : (w.setFile path attr).files path = some attr := by
  simp [World.setFile]

theorem setFile_other {other : Path} (differs : other ≠ path) :
    (w.setFile path attr).files other = w.files other := by
  simp [World.setFile, differs]

theorem acts_spec (acting : acts logins w who = true) : who.uid ≠ 0 ∧ who ∈ logins ++ w.procs := by
  simpa [acts] using acting

theorem Inv.setFile (inv : Inv stores logins start w)
    (owned : isSet attr.mode iSUID = true ∨ isSet attr.mode iSGID = true →
      attr.uid ≠ 0 ∧ stores path = true) (group : stores path = true →
      (∃ old, start path = some old ∧ attr.gid = old.gid) ∨ Held logins w attr.uid attr.gid) :
    Inv stores logins start (w.setFile path attr) := by
  have each {P : Path → Attr → Prop} (here : P path attr)
      (before : ∀ other found, w.files other = some found →
        P other found) (other : Path) (found : Attr)
      (present : (w.setFile path attr).files other = some found) : P other found := by
    by_cases same : other = path
    · subst same
      rw [setFile_same] at present
      cases present
      exact here
    · rw [setFile_other same] at present
      exact before other found present
  exact ⟨each owned inv.owned, each group inv.group⟩

theorem held_self (member : who ∈ logins ++ w.procs) : Held logins w who.uid who.gid :=
  ⟨who, member, rfl, by simp [holdsGroup]⟩

theorem owner_of_adminCheck {changing : Bool} (user : who.uid ≠ 0)
    (present : w.files path = some attr)
    (passed : (adminCheck w.files who path changing).isNone = true) :
    changing = false ∧ who.uid = attr.uid := by
  unfold adminCheck at passed
  rw [if_neg user, present] at passed
  cases changing with
  | true => simp at passed
  | false =>
    refine ⟨rfl, ?_⟩
    by_contra other
    simp [other] at passed

theorem chowned_clears (attr : Attr) (uid gid : Nat) :
    isSet (chowned attr uid gid).mode iSUID = false ∧
      isSet (chowned attr uid gid).mode iSGID = false := by
  constructor
  · have apart : (modeBits ^^^ (iSUID ||| iSGID)) &&& iSUID = 0 := by decide
    simp only [isSet, chowned, Nat.and_assoc, apart, Nat.and_zero, bne_self_eq_false]
  · have apart : (modeBits ^^^ (iSUID ||| iSGID)) &&& iSGID = 0 := by decide
    simp only [isSet, chowned, Nat.and_assoc, apart, Nat.and_zero, bne_self_eq_false]

theorem stamped_spec {mode : Nat} {rule : Attr} {view : View} (present : view path = some rule) :
    (stamped rule (claim view who path mode)).uid = who.uid ∧
      (stamped rule (claim view who path mode)).gid = who.gid := by
  simp only [claim, present]
  split
  · rename_i agrees
    exact ⟨agrees.1, agrees.2.1⟩
  · exact ⟨rfl, rfl⟩

theorem Held.spawn {uid gid : Nat} (held : Held logins w uid gid) (p : Cred) :
    Held logins { w with procs := p :: w.procs } uid gid := by
  obtain ⟨who, member, owner, holds⟩ := held
  refine ⟨who, ?_, owner, holds⟩
  rcases List.mem_append.mp member with login | process
  · exact List.mem_append_left _ login
  · exact List.mem_append_right _ (List.mem_cons_of_mem _ process)

theorem step_inv {e : Event} (inv : Inv stores logins start w) (plain : Plain w e)
    (next : step stores logins w e = some w') : Inv stores logins start w' := by
  revert plain next
  fun_cases step stores logins w e with
  | case1 who path mode rule accepted born kept =>
    rintro - ⟨⟩
    simp only [Bool.and_eq_true] at accepted
    obtain ⟨user, member⟩ := acts_spec accepted.1.1
    have own : (stamped rule (claim born.files who path mode)).uid = who.uid ∧
        (stamped rule (claim born.files who path mode)).gid = who.gid := stamped_spec setFile_same
    apply inv.setFile
    · intro _
      rw [own.1]
      exact ⟨user, kept⟩
    · intro _
      rw [own.1, own.2]
      exact .inr (held_self member)
  | case2 who path mode rule accepted born elsewhere =>
    intro plain next
    rw [← Option.some.inj next]
    apply inv.setFile
    · intro bits
      rw [plain.1, plain.2] at bits
      simp at bits
    · exact fun kept => absurd kept elsewhere
  | case4 who path mode attr present accepted =>
    rintro - ⟨⟩
    simp only [Bool.and_eq_true] at accepted
    obtain ⟨user, -⟩ := acts_spec accepted.1.1.1
    obtain ⟨-, owner⟩ := owner_of_adminCheck user present accepted.1.2
    apply inv.setFile
    · exact fun _ => ⟨owner ▸ user, accepted.2⟩
    · exact inv.group path attr present
  | case7 who path uid gid attr present accepted =>
    rintro plain ⟨⟩
    simp only [Bool.and_eq_true] at accepted
    obtain ⟨user, member⟩ := acts_spec accepted.1.1
    obtain ⟨kept, owner⟩ := owner_of_adminCheck user present accepted.1.2
    have keeps : uid = keepId := by simpa using kept
    apply inv.setFile
    · intro bits
      rw [(chowned_clears attr uid gid).1, (chowned_clears attr uid gid).2] at bits
      simp at bits
    · intro stored
      simp only [chowned, keeps, if_true]
      split
      · exact inv.group path attr present stored
      · rename_i changes
        exact .inr ⟨who, member, owner, plain keeps changes⟩
  | case10 session path =>
    rintro - ⟨⟩
    refine ⟨inv.owned, ?_⟩
    intro other attr present kept
    exact (inv.group other attr present kept).imp_right fun held => held.spawn _
  | _ =>
    rintro - ⟨⟩
    exact inv

end Files

theorem holds_spawned {session : Cred} {file : Option Attr} {g : Nat}
    (holds : holdsGroup (spawned session file) g = true) :
    holdsGroup session g = true ∨
      ∃ attr, file = some attr ∧ isSet attr.mode iSGID = true ∧ g = attr.gid := by
  cases file with
  | none => exact .inl holds
  | some attr =>
    cases bit : isSet attr.mode iSGID with
    | false =>
      left
      simpa [spawned, spawnCred, bit, holdsGroup] using holds
    | true =>
      simp only [spawned, spawnCred, bit, if_true, Option.getD_some, holdsGroup,
        Bool.or_eq_true, beq_iff_eq, List.contains_iff_mem] at holds ⊢
      rcases holds with rfl | member
      · exact .inr ⟨attr, rfl, bit, rfl⟩
      · split at member
        · rcases List.mem_append.mp member with own | added
          · exact .inl (.inr own)
          · exact .inr ⟨attr, rfl, bit, List.mem_singleton.mp added⟩
        · exact .inl (.inr member)

theorem uid_spawned (session : Cred) (file : Option Attr) :
    (spawned session file).uid = session.uid ∨
      ∃ attr, file = some attr ∧ isSet attr.mode iSUID = true ∧
        (spawned session file).uid = attr.uid := by
  cases file with
  | none => exact .inl rfl
  | some attr =>
    cases bit : isSet attr.mode iSUID with
    | false => simp [spawned, spawnCred, bit]
    | true => exact .inr ⟨attr, rfl, bit, by simp [spawned, spawnCred, bit]⟩

def alice : Cred := ⟨1000, 1000, [1000]⟩
def bob : Cred := ⟨1001, 1001, [1001]⟩

def shared : View := fun path => if path = "/tmp".toList then some ⟨0o1777, 0, 0⟩ else none

def tool : Path := "/tmp/tool".toList

def ruleFile : Attr := ⟨0o644, 0, 0⟩

end Espix.Proc.SetId
