import Espix.Boot.Image
import Espix.Lib.Run
import Espix.Lib.Trail
import Mathlib.Logic.Function.Basic
import Mathlib.Tactic

/-! The kernel's side of the restore point, in `components/espix_ota/ota.c`: the running
image is archived to `/boot` at start-up and recorded as `good` when it is confirmed.

The two happen at different times of a boot, and nothing ties the second to the
success of the first. -/

namespace Espix.Boot.Archive

open Function Image Lib.Run Lib.Trail

/-- What a power cut leaves: the three NVS names and the files. -/
structure Store where
  good : List Char
  previous : List Char
  pending : List Char
  files : Files

/-- A running image: its version and build, what its slot holds, and whether
`esp_image_verify` accepts the slot. -/
structure Kernel where
  version : List Char
  build : List Char
  image : Bytes
  slotVerifies : Bool

inductive Act
  | write
  | rename
  | unlink (path : List Char)
  | record
  deriving DecidableEq, Repr

abbrev Moment := Act × Store

def selfName (k : Kernel) : List Char :=
  ("espix-".toList ++ k.version ++ ['-'] ++ k.build ++ ".bin".toList).take (nameMax - 1)

def partPath (name : List Char) : List Char := bootPath (['.'] ++ name ++ ".part".toList)

def Store.write (s : Store) (path : List Char) (content : Bytes) : Store :=
  { s with files := Function.update s.files path (some content) }

def Store.unlink (s : Store) (path : List Char) : Store :=
  { s with files := Function.update s.files path none }

/-- One `copy_slot` and the check of the copy: the contents the part file takes on, what
it ends with, whether the copy is reported complete, and whether the check can read it. -/
inductive Attempt
  | noOpen
  | noMem
  | copy (contents : List Bytes) (final : Bytes) (closes reads : Bool)

structure InitEnv where
  available : Bool
  attempts : Nat → Attempt
  renames : Bool
  unlinks : Bool

def unlinkPart (unlinks : Bool) (path : List Char) (s : Store) : List Moment :=
  if unlinks then [(.unlink path, s.unlink path)] else []

def copySlot (sha256 : Bytes → Bytes) (part : List Char) (s : Store) : Attempt → Bool × List Moment
  | .noOpen => (false, [])
  | .noMem => (false, [(.write, s.write part []), (.unlink part, s.unlink part)])
  | .copy contents final closes reads =>
    (closes && verifyFile sha256 reads (some final) == .ok,
      (contents ++ [final]).map fun content => (.write, s.write part content))

def copyLoop (sha256 : Bytes → Bytes) (part : List Char) : List Attempt → Store → Bool × List Moment
  | [], _ => (false, [])
  | attempt :: rest, s =>
    let (copied, trail) := copySlot sha256 part s attempt
    if copied then (true, trail)
    else
      let (copied, later) := copyLoop sha256 part rest (after s trail)
      (copied, trail ++ later)

def renamePart (part path : List Char) (s : Store) : Store :=
  { s with files := Function.update (Function.update s.files path (s.files part)) part none }

def archiveSelf (sha256 : Bytes → Bytes) (k : Kernel) (env : InitEnv) (s : Store) :
    Bool × List Moment :=
  let path := bootPath (selfName k)
  let part := partPath (selfName k)
  if !k.slotVerifies then (false, [])
  else if (s.files path).any (·.length == k.image.length) then (true, [])
  else
    let (copied, trail) := copyLoop sha256 part ((List.range 3).map env.attempts) s
    if copied && env.renames then
      (true, trail ++ [(.rename, renamePart part path (after s trail))])
    else (false, trail ++ unlinkPart env.unlinks part (after s trail))

def init (sha256 : Bytes → Bytes) (k : Kernel) (env : InitEnv) (s : Store) : List Moment :=
  if env.available then (archiveSelf sha256 k env s).2 else []

def isArchive (name : List Char) : Bool :=
  "espix-".toList.isPrefixOf name && ".bin".toList.isSuffixOf name

/-- `prune_boot`, over the names the directory lists; `keep` holds the arguments that
are not null. -/
def pruneBoot (keep : List (List Char)) (unlinks : List Char → Bool) :
    List (List Char) → Store → List Moment
  | [], _ => []
  | name :: rest, s =>
    if isArchive name && !keep.contains name && unlinks name then
      (.unlink (bootPath name), s.unlink (bootPath name)) ::
        pruneBoot keep unlinks rest (s.unlink (bootPath name))
    else pruneBoot keep unlinks rest s

/-- What a confirmation meets: whether the slot has a state, whether NVS opens and takes
the two names, what `/boot` lists and which of it can be removed. -/
structure ConfirmEnv where
  otadata : Bool
  nvs : Bool
  setsPrevious : Bool
  setsGood : Bool
  listing : List (List Char)
  unlinks : List Char → Bool

def rollbackName (s : Store) : List Char :=
  if nameGet s.good ≠ [] then nameGet s.good else nameGet s.previous

def confirmBoot (k : Kernel) (env : ConfirmEnv) (s : Store) : List Moment :=
  if !env.otadata || !env.nvs || nameGet s.good == selfName k then []
  else
    let s₁ := if env.setsPrevious then { s with previous := rollbackName s } else s
    let s₂ := if env.setsGood then { s₁ with good := selfName k } else s₁
    [(.record, s₁), (.record, s₂)] ++
      pruneBoot [selfName k, rollbackName s] env.unlinks env.listing s₂

/-- `espix_ota_queue`; `selects` says whether the loader could be selected. -/
def queue (sha256 : Bytes → Bytes) (selects : Bool) (name : List Char) (s : Store) : List Moment :=
  if name = [] ∨ verifyFile sha256 true (s.files (resolve name)) ≠ .ok then []
  else
    let s₁ := { s with pending := name }
    (.record, s₁) :: if selects then [] else [(.record, { s₁ with pending := [] })]

/-- Steps of the device's life, the first three cut anywhere; `place` is a file that
arrives, and `installed` the loader that has dealt with what was pending. -/
inductive Event
  | init (k : Kernel) (env : InitEnv) (cut : Nat)
  | confirm (k : Kernel) (env : ConfirmEnv) (cut : Nat)
  | queue (name : List Char) (selects : Bool) (cut : Nat)
  | place (path : List Char) (content : Bytes)
  | installed

def step (sha256 : Bytes → Bytes) (s : Store) : Event → Option Store
  | .init k env cut => some (after s ((init sha256 k env s).take cut))
  | .confirm k env cut => some (after s ((confirmBoot k env s).take cut))
  | .queue name selects cut => some (after s ((queue sha256 selects name s).take cut))
  | .place path content => some (s.write path content)
  | .installed => some { s with pending := [] }

/-! What the record is for. -/

def Verified (sha256 : Bytes → Bytes) (s : Store) (name : List Char) : Prop :=
  verifyFile sha256 true (s.files (bootPath name)) = .ok
  deriving Decidable

/-- Whatever `good` names is in `/boot`, intact, under a name no copy is made under. -/
def Restorable (sha256 : Bytes → Bytes) (s : Store) : Prop :=
  nameGet s.good ≠ [] →
    Verified sha256 s (nameGet s.good) ∧ (nameGet s.good).head? ≠ some '.'

/-- Confirming this kernel records an image that is archived, and whatever is pending is
not among what it prunes. -/
def ReadyToConfirm (sha256 : Bytes → Bytes) (k : Kernel) (env : ConfirmEnv) (s : Store) : Prop :=
  nameGet s.good ≠ selfName k →
    Verified sha256 s (selfName k) ∧ env.setsPrevious = true ∧ env.setsGood = true ∧
      ∀ name, isArchive name = true → name ≠ selfName k → name ≠ rollbackName s →
        resolve (nameGet s.pending) ≠ bootPath name

def Careful (sha256 : Bytes → Bytes) (s : Store) : Event → Prop
  | .confirm k env _ => ReadyToConfirm sha256 k env s
  | .place path _ => path ≠ bootPath (nameGet s.good)
  | _ => True

variable {sha256 : Bytes → Bytes} {s t u : Store} {path name : List Char}
    {keep : List (List Char)} {m : Moment}
  {k : Kernel} {trail : List Moment} {copied : Bool}

/-- Nothing but the file at `path` has changed. -/
structure Kept (path : List Char) (s t : Store) : Prop where
  good : t.good = s.good
  files : ∀ other, other ≠ path → t.files other = s.files other

theorem Kept.refl (path : List Char) (s : Store) : Kept path s s := ⟨rfl, fun _ _ => rfl⟩

theorem Kept.trans (first : Kept path s t) (second : Kept path t u) : Kept path s u :=
  ⟨second.good.trans first.good,
    fun other away => (second.files other away).trans (first.files other away)⟩

theorem Kept.write (path : List Char) (s : Store) (content : Bytes) :
    Kept path s (s.write path content) :=
  ⟨rfl, fun _ away => update_of_ne away _ _⟩

theorem Kept.unlink (path : List Char) (s : Store) : Kept path s (s.unlink path) :=
  ⟨rfl, fun _ away => update_of_ne away _ _⟩

theorem Kept.restorable (kept : Kept path s t) (away : bootPath (nameGet s.good) ≠ path)
    (before : Restorable sha256 s) : Restorable sha256 t := by
  intro named
  rw [kept.good] at named ⊢
  refine ⟨?_, (before named).2⟩
  rw [Verified, kept.files _ away]
  exact (before named).1

theorem after_kept (all : ∀ m ∈ trail, Kept path s m.2) : Kept path s (after s trail) := by
  have whole := cut_holds (Kept.refl path s) all trail.length
  rwa [List.take_length] at whole

theorem copySlot_spec {attempt : Attempt}
    (call : copySlot sha256 path s attempt = (copied, trail)) :
    (∀ m ∈ trail, Kept path s m.2) ∧
      (copied = true → verifyFile sha256 true ((after s trail).files path) = .ok) := by
  cases attempt with cases call
  | noOpen => exact ⟨by simp, by simp⟩
  | noMem =>
    refine ⟨?_, by simp⟩
    intro m member
    rcases List.mem_cons.mp member with rfl | later
    · exact Kept.write path s []
    · rw [List.mem_singleton.mp later]
      exact Kept.unlink path s
  | copy contents final closes reads =>
    refine ⟨?_, ?_⟩
    · intro m member
      obtain ⟨content, -, rfl⟩ := List.mem_map.mp member
      exact Kept.write path s content
    · intro complete
      simp only [Bool.and_eq_true, beq_iff_eq] at complete
      have last : (after s ((contents ++ [final]).map fun content =>
          (Act.write, s.write path content))).files path = some final := by
        simp [after, Store.write]
      rw [last]
      -- a check that could not read the copy does not accept it
      cases reads with
      | true => exact complete.2
      | false =>
        have refused := complete.2
        simp only [verifyFile] at refused
        split at refused <;> cases refused

theorem copyLoop_spec {attempts : List Attempt}
    (call : copyLoop sha256 path attempts s = (copied, trail)) :
    (∀ m ∈ trail, Kept path s m.2) ∧
      (copied = true → verifyFile sha256 true ((after s trail).files path) = .ok) := by
  induction attempts generalizing s copied trail with
  | nil =>
    cases call
    exact ⟨by simp, by simp⟩
  | cons attempt rest ih =>
    simp only [copyLoop] at call
    generalize first : copySlot sha256 path s attempt = result at call
    obtain ⟨done, steps⟩ := result
    obtain ⟨kept, verified⟩ := copySlot_spec first
    cases done with
    | true =>
      cases call
      exact ⟨kept, verified⟩
    | false =>
      simp only [Bool.false_eq_true, if_false] at call
      generalize again : copyLoop sha256 path rest (after s steps) = result at call
      obtain ⟨done, later⟩ := result
      cases call
      obtain ⟨kept', verified'⟩ := ih again
      refine ⟨?_, by rw [after_append]; exact verified'⟩
      intro m member
      rcases List.mem_append.mp member with early | late
      · exact kept m early
      · exact (after_kept kept).trans (kept' m late)

theorem part_ne_good (before : Restorable sha256 s) :
    bootPath (nameGet s.good) ≠ partPath (selfName k) := by
  intro same
  have name := bootPath_inj same
  have named : nameGet s.good ≠ [] := by simp [name]
  exact (before named).2 (by rw [name]; rfl)

theorem renamePart_restorable (before : Restorable sha256 s)
    (copied : verifyFile sha256 true (s.files (partPath (selfName k))) = .ok) :
    Restorable sha256 (renamePart (partPath (selfName k)) (bootPath (selfName k)) s) := by
  intro named
  refine ⟨?_, (before named).2⟩
  have away := part_ne_good (k := k) before
  simp only [Verified, renamePart] at *
  rw [update_of_ne away]
  by_cases self : bootPath (nameGet s.good) = bootPath (selfName k)
  · rw [self, update_self]
    exact copied
  · rw [update_of_ne self]
    exact (before named).1

theorem init_restorable {env : InitEnv} (before : Restorable sha256 s)
    (member : m ∈ init sha256 k env s) : Restorable sha256 m.2 := by
  simp only [init] at member
  split at member
  swap
  · cases member
  simp only [archiveSelf] at member
  split at member
  · cases member
  split at member
  · cases member
  generalize loop : copyLoop sha256 _ _ s = result at member
  obtain ⟨copied, trail⟩ := result
  obtain ⟨kept, verified⟩ := copyLoop_spec loop
  have away := part_ne_good (k := k) before
  have copying : Restorable sha256 (after s trail) := (after_kept kept).restorable away before
  simp only at member
  split at member
  · rename_i complete
    simp only [Bool.and_eq_true] at complete
    rcases List.mem_append.mp member with step | rename
    · exact (kept m step).restorable away before
    · rw [List.mem_singleton.mp rename]
      exact renamePart_restorable copying (verified complete.1)
  · rcases List.mem_append.mp member with step | unlink
    · exact (kept m step).restorable away before
    · simp only [unlinkPart] at unlink
      split at unlink
      · rw [List.mem_singleton.mp unlink]
        have away' := part_ne_good (k := k) copying
        exact (Kept.unlink _ _).restorable away' copying
      · cases unlink

section Confirm

variable {env : ConfirmEnv}

/-- What pruning removes is an archive outside the list, and nothing else changes. -/
structure Pruned (keep : List (List Char)) (s : Store) (m : Moment) : Prop where
  unlinks : ∃ name, m.1 = .unlink (bootPath name) ∧ isArchive name = true ∧ name ∉ keep
  good : m.2.good = s.good
  previous : m.2.previous = s.previous
  pending : m.2.pending = s.pending
  files : ∀ name ∈ keep, m.2.files (bootPath name) = s.files (bootPath name)

theorem unlink_files (outside : name ∉ keep) {kept : List Char} (member : kept ∈ keep) :
    (s.unlink (bootPath name)).files (bootPath kept) = s.files (bootPath kept) := by
  have different : bootPath kept ≠ bootPath name := by
    intro same
    exact outside (bootPath_inj same ▸ member)
  exact update_of_ne different _ _

theorem pruneBoot_spec {listing : List (List Char)} {unlinks : List Char → Bool}
    (member : m ∈ pruneBoot keep unlinks listing s) : Pruned keep s m := by
  induction listing generalizing s with
  | nil => cases member
  | cons name rest ih =>
    simp only [pruneBoot] at member
    split at member
    · rename_i prunes
      simp only [Bool.and_eq_true, Bool.not_eq_true', List.contains_eq_mem,
        decide_eq_false_iff_not] at prunes
      obtain ⟨⟨archive, outside⟩, -⟩ := prunes
      rcases List.mem_cons.mp member with rfl | later
      · exact ⟨⟨name, rfl, archive, outside⟩, rfl, rfl, rfl, fun kept inside =>
          unlink_files outside inside⟩
      · have tail := ih later
        exact ⟨tail.unlinks, tail.good, tail.previous, tail.pending,
          fun kept inside => (tail.files kept inside).trans (unlink_files outside inside)⟩
    · exact ih member

theorem nameGet_selfName (k : Kernel) : nameGet (selfName k) = selfName k := by
  have short : (selfName k).length < nameMax := by
    simp only [selfName, List.length_take, nameMax]
    omega
  rw [nameGet, if_pos short]

theorem selfName_head (k : Kernel) : (selfName k).head? = some 'e' := rfl

theorem confirmBoot_cases (ready : ReadyToConfirm sha256 k env s)
    (member : m ∈ confirmBoot k env s) :
    nameGet s.good ≠ selfName k ∧
      (m = (.record, { s with previous := rollbackName s }) ∨
        m = (.record, { s with previous := rollbackName s, good := selfName k }) ∨
        Pruned [selfName k, rollbackName s]
          { s with previous := rollbackName s, good := selfName k } m) := by
  simp only [confirmBoot] at member
  split at member
  · cases member
  rename_i runs
  simp only [Bool.or_eq_true, beq_iff_eq, not_or] at runs
  obtain ⟨-, sets_previous, sets_good, -⟩ := ready runs.2
  simp only [sets_previous, sets_good, if_true, List.cons_append, List.nil_append,
    List.mem_cons] at member
  refine ⟨runs.2, ?_⟩
  rcases member with first | second | pruned
  · exact Or.inl first
  · exact Or.inr (Or.inl second)
  · exact Or.inr (Or.inr (pruneBoot_spec pruned))

theorem confirmBoot_restorable (before : Restorable sha256 s)
    (ready : ReadyToConfirm sha256 k env s) (member : m ∈ confirmBoot k env s) :
    Restorable sha256 m.2 := by
  obtain ⟨changes, kinds⟩ := confirmBoot_cases ready member
  have archived := (ready changes).1
  have head : (selfName k).head? ≠ some '.' := by rw [selfName_head]; decide
  rcases kinds with rfl | rfl | pruned
  · exact before
  · intro _
    rw [nameGet_selfName]
    exact ⟨archived, head⟩
  · intro _
    rw [pruned.good, nameGet_selfName]
    refine ⟨?_, head⟩
    rw [Verified, pruned.files (selfName k) (by simp)]
    exact archived

theorem confirmBoot_keeps (ready : ReadyToConfirm sha256 k env s)
    (member : m ∈ confirmBoot k env s) {path : List Char} (removes : m.1 = .unlink path) :
    path ≠ bootPath (nameGet m.2.good) ∧ path ≠ bootPath (nameGet m.2.previous) ∧
      path ≠ resolve (nameGet m.2.pending) := by
  obtain ⟨changes, kinds⟩ := confirmBoot_cases ready member
  rcases kinds with rfl | rfl | pruned
  · cases removes
  · cases removes
  · obtain ⟨name, act, archive, outside⟩ := pruned.unlinks
    rw [removes] at act
    cases act
    simp only [List.mem_cons, List.not_mem_nil, or_false, not_or] at outside
    have short : nameGet (rollbackName s) = rollbackName s := by
      rw [rollbackName]
      split <;> exact nameGet_nameGet _
    rw [pruned.good, pruned.previous, pruned.pending, nameGet_selfName, short]
    refine ⟨fun same => outside.1 (bootPath_inj same), fun same =>
      outside.2 (bootPath_inj same), ?_⟩
    exact fun same => (ready changes).2.2.2 name archive outside.1 outside.2 same.symm

end Confirm

theorem queue_names {selects : Bool} (member : m ∈ queue sha256 selects name s) :
    m.2.good = s.good ∧ m.2.files = s.files := by
  simp only [queue] at member
  split at member
  · cases member
  · rcases List.mem_cons.mp member with rfl | dropped
    · exact ⟨rfl, rfl⟩
    · split at dropped
      · cases dropped
      · rw [List.mem_singleton.mp dropped]
        exact ⟨rfl, rfl⟩

theorem step_restorable {event : Event} (before : Restorable sha256 s)
    (careful : Careful sha256 s event) (taken : step sha256 s event = some t) :
    Restorable sha256 t := by
  cases event with cases taken
  | init k env cut => exact cut_holds before (fun m member => init_restorable before member) cut
  | confirm k env cut =>
      exact cut_holds before (fun m member => confirmBoot_restorable before careful member) cut
  | queue name selects cut =>
    refine cut_holds before (fun m member => ?_) cut
    obtain ⟨same, files⟩ := queue_names member
    intro named
    rw [same] at named ⊢
    rw [Verified, files]
    exact before named
  | place path content => exact (Kept.write path s content).restorable (Ne.symm careful) before
  | installed => exact before

theorem recorded_good_restorable {sha256 : Bytes → Bytes} {s t : Store} {events : List Event}
    (start : Restorable sha256 s) (careful : Along (step sha256) (Careful sha256) s events)
    (ran : run (step sha256) s events = some t) :
    (nameGet t.good ≠ [] → Verified sha256 t (nameGet t.good)) ∧
      ∀ k env, ReadyToConfirm sha256 k env t → ∀ m ∈ confirmBoot k env t, ∀ path,
        m.1 = .unlink path → path ≠ bootPath (nameGet m.2.good) ∧
          path ≠ bootPath (nameGet m.2.previous) ∧ path ≠ resolve (nameGet m.2.pending) := by
  have restorable : Restorable sha256 t :=
    run_invariant_along (fun _ _ _ before ok taken => step_restorable before ok taken)
      careful ran start
  exact ⟨fun named => (restorable named).1,
    fun k env ready m member path removes => confirmBoot_keeps ready member removes⟩

def kernelOf (version : Char) (tag : UInt8) : Kernel :=
  { version := [version], build := ['b'], image := smallImage tag, slotVerifies := true }

/-- Everything goes right, and `/boot` lists two archives. -/
def quietInit : InitEnv :=
  { available := true, attempts := fun _ => .copy [] (smallImage 1) true true, renames := true,
    unlinks := true }

def quietConfirm : ConfirmEnv :=
  { otadata := true, nvs := true, setsPrevious := true, setsGood := true,
    listing := ["espix-1-b.bin".toList, "espix-2-b.bin".toList], unlinks := fun _ => true }

def emptyStore : Store := ⟨[], [], [], fun _ => none⟩

theorem emptyStore_restorable : Restorable zeroDigest emptyStore := by
  intro named
  exact absurd rfl named

/-- A first boot that archives itself and is confirmed. -/
theorem first_boot_restorable :
    ∃ t, run (step zeroDigest) emptyStore
        [.init (kernelOf '1' 1) quietInit 9, .confirm (kernelOf '1' 1) quietConfirm 9] = some t ∧
      nameGet t.good = "espix-1-b.bin".toList ∧ Verified zeroDigest t "espix-1-b.bin".toList := by
  have careful : Along (step zeroDigest) (Careful zeroDigest) emptyStore
      [.init (kernelOf '1' 1) quietInit 9, .confirm (kernelOf '1' 1) quietConfirm 9] := by
    refine ⟨trivial, ?_⟩
    rintro _ ⟨rfl⟩
    refine ⟨fun _ => ⟨by decide, rfl, rfl, ?_⟩, fun _ _ => trivial⟩
    intro name archive _ _ same
    have empty : [] = name := bootPath_inj same
    rw [← empty] at archive
    exact absurd archive (by decide)
  refine ⟨_, rfl, by decide, ?_⟩
  exact (recorded_good_restorable emptyStore_restorable careful rfl).1 (by decide)

/-- No copy of the image can be made, and it is recorded as good all the same. In the
second run an image queued before the confirmation is pruned by it. -/
theorem confirm_without_archive :
    (∃ t, run (step zeroDigest) emptyStore
        [.init (kernelOf '1' 1) { quietInit with attempts := fun _ => .noOpen } 9,
          .confirm (kernelOf '1' 1) quietConfirm 9] = some t ∧
      t.good = "espix-1-b.bin".toList ∧ t.files (bootPath "espix-1-b.bin".toList) = none) ∧
    (∃ t, run (step zeroDigest) emptyStore
        [.init (kernelOf '1' 1) quietInit 9,
          .place (bootPath "espix-2-b.bin".toList) (smallImage 2),
          .queue "espix-2-b.bin".toList true 9,
          .confirm (kernelOf '1' 1) quietConfirm 9] = some t ∧
      t.pending = "espix-2-b.bin".toList ∧ t.files (bootPath "espix-2-b.bin".toList) = none) :=
  ⟨⟨_, rfl, by decide, by decide⟩, ⟨_, rfl, by decide, by decide⟩⟩

end Espix.Boot.Archive
