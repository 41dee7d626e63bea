import Espix.Boot.Image
import Espix.Lib.Run
import Espix.Lib.Trail
import Mathlib.Tactic

/-! `loader/main/loader_main.c`: the app between the bootloader and the kernel.

A run of `app_main` is a trail of writes to what survives a power cut. What ESP-IDF
does to the slot is a parameter, with what its documentation says as hypotheses. -/

namespace Espix.Boot.Loader

open Image Lib.Run Lib.Trail

inductive ImgState
  | new
  | pendingVerify
  | valid
  | invalid
  | aborted
  | undefined
  deriving DecidableEq, Repr

def ImgState.failed : ImgState → Bool
  | .aborted => true
  | .invalid => true
  | _ => false

inductive Target
  | loader
  | kernel
  deriving DecidableEq, Repr

/-- The kernel slot: the image last written to it, and how many of its blocks are there. -/
structure Slot where
  image : Bytes
  written : Nat
  deriving DecidableEq, Repr

def blockSize : Nat := 4096

def blocks (image : Bytes) : Nat := (image.length + blockSize - 1) / blockSize

/-- What ESP-IDF decides: a digest, whether the slot holds a bootable image, and what
beginning an update and selecting the slot do to its state. -/
structure Idf where
  sha256 : Bytes → Bytes
  imageVerify : Slot → Bool
  begun : ImgState → ImgState
  selected : ImgState → ImgState

/-- A slot written in part is refused, a selected slot is a new one, and an update
that has begun does not clear a failed state. -/
structure Idf.Documented (idf : Idf) : Prop where
  part_refused : ∀ image written, written < blocks image → idf.imageVerify ⟨image, written⟩ = false
  selected_fresh : ∀ state, (idf.selected state).failed = false
  begun_failed : ∀ state, state.failed = true → (idf.begun state).failed = true

structure Device where
  slot : Slot
  state : ImgState
  boot : Target
  good : List Char
  pending : List Char
  files : Files

/-- `select` says whether this run wrote the slot, and the slot's state before. -/
inductive Act
  | begin
  | write
  | select (fresh : Bool) (was : ImgState)
  | clear
  deriving DecidableEq, Repr

abbrev Moment := Act × Device

structure Flash where
  begins : Bool
  failsAt : Option Nat
  ends : Bool
  selects : Bool
  deriving DecidableEq, Repr

def Flash.fine : Flash := ⟨true, none, true, true⟩

/-- What a run meets: whether NVS opens and the rootfs mounts, whether files read and
`pending` clears, the two installs it may make, and the selection without one. -/
structure Env where
  nvs : Bool
  mount : Bool
  reads : Bool
  clears : Bool
  first : Flash
  second : Flash
  boots : Bool

def Env.fine : Env := ⟨true, true, true, true, Flash.fine, Flash.fine, true⟩

inductive Ending
  | restart
  | idle
  | stall (why : String)
  deriving DecidableEq, Repr

def setBoot (idf : Idf) (writes fresh : Bool) (d : Device) : Bool × List Moment :=
  if writes && idf.imageVerify d.slot then
    (true, [(.select fresh d.state, { d with boot := .kernel, state := idf.selected d.state })])
  else (false, [])

def writeBlocks (d : Device) (image : Bytes) (count : Nat) : List Moment :=
  (List.range count).map fun i => (.write, { d with slot := ⟨image, i + 1⟩ })

/-- The loop over `esp_ota_write`; a write that fails has erased what was there. -/
def writeImage (d : Device) (image : Bytes) : Option Nat → Bool × List Moment
  | some at_block =>
    if at_block < blocks image then
      (false, writeBlocks d image at_block ++ [(.write, { d with slot := ⟨image, at_block⟩ })])
    else (true, writeBlocks d image (blocks image))
  | none => (true, writeBlocks d image (blocks image))

def installFile (idf : Idf) (flash : Flash) (path : List Char) (d : Device) : Bool × List Moment :=
  match d.files path with
  | none => (false, [])
  | some image =>
    if !flash.begins then (false, [])
    else
      let d₁ := { d with state := idf.begun d.state }
      match writeImage d₁ image flash.failsAt with
      | (false, trail) => (false, (.begin, d₁) :: trail)
      | (true, trail) =>
        let written := (.begin, d₁) :: trail
        if !flash.ends || !idf.imageVerify (after d written).slot then (false, written)
        else
          let (done, select) := setBoot idf flash.selects true (after d written)
          (done, written ++ select)

def bootKernel (idf : Idf) (env : Env) (d : Device) : Ending × List Moment :=
  match setBoot idf env.boots false d with
  | (true, trail) => (.restart, trail)
  | (false, trail) => (.idle, trail)

/-- `state_set(nvs, "pending", NULL)`, whose result nobody reads. -/
def clearPending (env : Env) (d : Device) : List Moment :=
  if env.clears then [(.clear, { d with pending := [] })] else []

def targetOf (d : Device) : Option (List Char) :=
  if d.state.failed = true ∧ nameGet d.good ≠ [] then some (nameGet d.good)
  else if d.state.failed = false ∧ nameGet d.pending ≠ [] then some (nameGet d.pending)
  else none

def dropPending (idf : Idf) (env : Env) (d : Device) : Ending × List Moment :=
  let trail := clearPending env d
  let (ending, select) := bootKernel idf env (after d trail)
  (ending, trail ++ select)

def restoreGood (idf : Idf) (env : Env) (target : List Char) (d : Device) : Ending × List Moment :=
  let good := nameGet d.good
  let why := "the kernel slot was erased and the good image could not be put back"
  if good = [] ∨ good = target ∨
      verifyFile idf.sha256 env.reads (d.files (bootPath good)) ≠ .ok then (.stall why, [])
  else
    match installFile idf env.second (bootPath good) d with
    | (true, trail) => (.restart, trail)
    | (false, trail) => (.stall why, trail)

def installTarget (idf : Idf) (env : Env) (target : List Char) (d : Device) :
    Ending × List Moment :=
  match installFile idf env.first (resolve target) d with
  | (true, trail) => (.restart, trail ++ clearPending env (after d trail))
  | (false, trail) =>
    if d.state.failed then (.stall "the good image could not be installed", trail)
    else
      let cleared := trail ++ clearPending env (after d trail)
      let (ending, rest) := restoreGood idf env target (after d cleared)
      (ending, cleared ++ rest)

def appMain (idf : Idf) (env : Env) (d : Device) : Ending × List Moment :=
  if !env.nvs || !env.mount then bootKernel idf env d
  else
    match targetOf d with
    | none => bootKernel idf env d
    | some target =>
      match verifyFile idf.sha256 env.reads (d.files (resolve target)) with
      | .ok => installTarget idf env target d
      | .notFound =>
        if d.state.failed then (.stall "the known-good image is missing from /boot", [])
        else dropPending idf env d
      | _ =>
        if d.state.failed then (.stall "the known-good image in /boot is corrupt", [])
        else dropPending idf env d

/-- A run of the loader, cut after some of its steps, or the bootloader giving up on a
selected kernel that did not confirm. -/
inductive Event
  | loader (env : Env) (cut : Nat)
  | fallback

def step (idf : Idf) (d : Device) : Event → Option Device
  | .loader env cut => some (after d ((appMain idf env d).2.take cut))
  | .fallback =>
    if d.boot = .kernel then some { d with state := .aborted, boot := .loader } else none

/-! What a run is for. -/

/-- `good` names a file of `/boot` that verifies and that the slot accepts. -/
def GoodVerifies (idf : Idf) (d : Device) : Prop :=
  nameGet d.good ≠ [] ∧ (nameGet d.good).head? ≠ some '/' ∧
    ∃ image, d.files (bootPath (nameGet d.good)) = some image ∧
      verifyFile idf.sha256 true (some image) = .ok ∧ idf.imageVerify ⟨image, blocks image⟩ = true

def Queued (idf : Idf) (d : Device) : Prop :=
  nameGet d.pending ≠ [] ∧
    verifyFile idf.sha256 true (d.files (resolve (nameGet d.pending))) = .ok

/-- There is a way back to a bootable slot: the good image when the slot has failed,
the queued one, or what the slot holds. -/
structure Recoverable (idf : Idf) (d : Device) : Prop where
  good : GoodVerifies idf d
  way : d.state.failed = true ∨ Queued idf d ∨ idf.imageVerify d.slot = true

structure Selected (idf : Idf) (d : Device) : Prop where
  boot : d.boot = .kernel
  state : d.state.failed = false
  slot : idf.imageVerify d.slot = true
  whole : blocks d.slot.image ≤ d.slot.written

/-- A selection of a bootable slot, and of a failed one only after writing it. -/
def SafeSelect (idf : Idf) (m : Moment) : Prop :=
  ∀ fresh was, m.1 = .select fresh was →
    idf.imageVerify m.2.slot = true ∧ blocks m.2.slot.image ≤ m.2.slot.written ∧
      m.2.state.failed = false ∧ (fresh = true ∨ was.failed = false)

def Flash.reach (flash : Flash) (image : Bytes) : Nat :=
  match flash.failsAt with
  | some at_block => min at_block (blocks image)
  | none => blocks image

/-- The steps of an install up to the selection: the beginning, the blocks, and a write
that fails. -/
def Flash.steps (flash : Flash) (image : Bytes) : Nat :=
  if flash.begins then
    flash.reach image + (if flash.reach image < blocks image then 1 else 0) + 1
  else 0

def Takes (idf : Idf) (flash : Flash) (image : Bytes) : Prop :=
  flash.begins = true ∧ flash.reach image = blocks image ∧ flash.ends = true ∧
    idf.imageVerify ⟨image, blocks image⟩ = true ∧ flash.selects = true

instance (idf : Idf) (flash : Flash) (image : Bytes) : Decidable (Takes idf flash image) :=
  inferInstanceAs (Decidable (_ ∧ _))

/-- What so many steps of an install leave of the slot and of its state. -/
def Flash.leaves (idf : Idf) (flash : Flash) (image : Bytes) (cut : Nat) (d : Device) : Device :=
  if flash.begins = true ∧ 0 < cut then
    { d with
      state := idf.begun d.state
      slot := if cut = 1 then d.slot else ⟨image, min (cut - 1) (flash.reach image)⟩ }
  else d

def Marked (idf : Idf) (d : Device) : Prop :=
  d.state.failed = true ∨ idf.imageVerify d.slot = true

def givenUp (idf : Idf) (env : Env) (image : Bytes) (d : Device) : Device :=
  { env.first.leaves idf image (env.first.steps image) d with pending := [] }

/-- So many steps later the good image, unless it is the one given up, is on its way back. -/
def restored (idf : Idf) (env : Env) (image good : Bytes) (cut : Nat) (d : Device) : Device :=
  if nameGet d.good = nameGet d.pending then givenUp idf env image d
  else env.second.leaves idf good cut (givenUp idf env image d)

/-- A run that clears `pending` although its image has not gone in ends with a slot that
has failed or can be booted: one that could not read the file does not find the slot
in pieces, and one that gave the image up is cut before `pending` is cleared, or with
the good image back. -/
def Careful (idf : Idf) (d : Device) : Event → Prop
  | .loader env cut =>
    env.nvs = true → env.mount = true → env.clears = true → d.state.failed = false →
      Queued idf d →
      (env.reads = false → 0 < cut → idf.imageVerify d.slot = true) ∧
      ∀ image good, d.files (resolve (nameGet d.pending)) = some image →
        d.files (bootPath (nameGet d.good)) = some good → env.reads = true →
        ¬ Takes idf env.first image → env.first.steps image < cut →
        Marked idf (restored idf env image good (cut - env.first.steps image - 1) d)
  | .fallback => True

/-- A run that reads its state, or that finds no failed slot it could select. -/
def Heeds (idf : Idf) (env : Env) (d : Device) : Prop :=
  env.nvs = true ∧ env.mount = true ∨ d.state.failed = false ∨ env.boots = false ∨
    idf.imageVerify d.slot = false

variable {trail : List Moment}

section Install

variable {idf : Idf} {d : Device} {flash : Flash} {path : List Char} {image : Bytes}

theorem blocks_pos {reads : Bool} (ok : verifyFile idf.sha256 reads (some image) = .ok) :
    0 < blocks image := by
  simp only [verifyFile] at ok
  split at ok
  · cases ok
  · rename_i sound
    simp only [headerSize, digestSize, not_or, not_le] at sound
    simp only [blocks, blockSize]
    omega

theorem after_writeBlocks {count : Nat} (some_blocks : 0 < count) :
    after d (writeBlocks d image count) = { d with slot := ⟨image, count⟩ } := by
  obtain ⟨n, rfl⟩ : ∃ n, count = n + 1 := ⟨count - 1, by omega⟩
  simp [after, writeBlocks, List.range_succ]

theorem take_writeBlocks (count n : Nat) :
    (writeBlocks d image count).take n = writeBlocks d image (min n count) := by
  simp [writeBlocks, ← List.map_take, List.take_range]

theorem writeImage_done :
    (writeImage d image flash.failsAt).1 = true ↔ flash.reach image = blocks image := by
  cases fails : flash.failsAt with
  | none => simp [writeImage, Flash.reach, fails]
  | some at_block =>
    simp only [writeImage, Flash.reach, fails]
    split <;> simp <;> omega

theorem writeImage_length :
    (writeImage d image flash.failsAt).2.length =
      flash.reach image + (if flash.reach image < blocks image then 1 else 0) := by
  cases fails : flash.failsAt with
  | none => simp [writeImage, Flash.reach, fails, writeBlocks]
  | some at_block =>
    simp only [writeImage, Flash.reach, fails]
    split
    · rename_i short
      simp [writeBlocks, short, Nat.min_eq_left short.le]
    · rename_i whole
      simp [writeBlocks, Nat.min_eq_right (not_lt.mp whole)]

theorem after_take_writeImage (some_blocks : 0 < blocks image) {n : Nat} (some_steps : 0 < n) :
    after d ((writeImage d image flash.failsAt).2.take n) =
      { d with slot := ⟨image, min n (flash.reach image)⟩ } := by
  cases fails : flash.failsAt with
  | none =>
    simp only [writeImage, Flash.reach, fails, take_writeBlocks]
    exact after_writeBlocks (by omega)
  | some at_block =>
    simp only [writeImage, Flash.reach, fails]
    split
    · rename_i short
      rcases Nat.lt_or_ge at_block n with past | inside
      · -- the write that failed is among the steps
        rw [List.take_of_length_le (by simp [writeBlocks]; omega), after_append, after_singleton]
        simp [Nat.min_eq_left short.le, Nat.min_eq_right past.le]
      · rw [List.take_append_of_le_length (by simpa [writeBlocks] using inside), take_writeBlocks,
          after_writeBlocks (by omega)]
        simp [Nat.min_eq_left short.le]
    · rename_i whole
      rw [take_writeBlocks, after_writeBlocks (by omega), Nat.min_eq_right (not_lt.mp whole)]

def installSteps (idf : Idf) (flash : Flash) (image : Bytes) (d : Device) : List Moment :=
  let d₁ := { d with state := idf.begun d.state }
  if flash.begins then (.begin, d₁) :: (writeImage d₁ image flash.failsAt).2 else []

theorem installSteps_length :
    (installSteps idf flash image d).length = flash.steps image := by
  simp only [installSteps, Flash.steps]
  split
  · rw [List.length_cons, writeImage_length]
  · rfl

theorem after_take_installSteps (some_blocks : 0 < blocks image) (cut : Nat) :
    after d ((installSteps idf flash image d).take cut) = flash.leaves idf image cut d := by
  simp only [installSteps, Flash.leaves]
  cases begins : flash.begins with
  | false => simp [after]
  | true =>
    rcases cut with - | - | n
    · simp [after]
    · simp [after]
    · rw [if_pos rfl, if_pos ⟨rfl, by omega⟩, List.take_succ_cons, after_cons,
        after_take_writeImage some_blocks (by omega)]
      simp

theorem after_installSteps (some_blocks : 0 < blocks image) :
    after d (installSteps idf flash image d) = flash.leaves idf image (flash.steps image) d := by
  rw [← after_take_installSteps some_blocks, ← @installSteps_length idf d, List.take_length]

theorem Takes.leaves (takes : Takes idf flash image) (some_blocks : 0 < blocks image) {cut : Nat}
    (whole : flash.steps image ≤ cut) :
    flash.leaves idf image cut d =
      { d with state := idf.begun d.state, slot := ⟨image, blocks image⟩ } := by
  obtain ⟨begins, all, -⟩ := takes
  simp only [Flash.steps, begins, all, lt_irrefl, if_true, if_false] at whole
  rw [Flash.leaves, if_pos ⟨begins, by omega⟩, if_neg (by omega), all, Nat.min_eq_right (by omega)]

def taken (idf : Idf) (image : Bytes) (d : Device) : Device :=
  { d with
    slot := ⟨image, blocks image⟩, boot := .kernel, state := idf.selected (idf.begun d.state) }

theorem installFile_eq (found : d.files path = some image) (some_blocks : 0 < blocks image) :
    installFile idf flash path d =
      if Takes idf flash image then
        (true, installSteps idf flash image d ++
          [(.select true (idf.begun d.state), taken idf image d)])
      else (false, installSteps idf flash image d) := by
  cases begins : flash.begins with
  | false => simp [installFile, found, begins, Takes, installSteps]
  | true =>
    have last := @after_installSteps idf d flash image some_blocks
    have done := @writeImage_done { d with state := idf.begun d.state } flash image
    simp only [installSteps, begins, if_true] at last ⊢
    simp only [installFile, found, begins]
    generalize writeImage { d with state := idf.begun d.state } image flash.failsAt = result at *
    obtain ⟨whole, trail⟩ := result
    cases whole with
    | false => simp_all [Takes]
    | true =>
      have all := done.mp rfl
      have slot : flash.leaves idf image (flash.steps image) d =
          { d with state := idf.begun d.state, slot := ⟨image, blocks image⟩ } := by
        simp [Flash.leaves, Flash.steps, begins, all, some_blocks.ne']
      rw [slot] at last
      simp only [last, setBoot, Takes, begins, all, taken]
      cases flash.ends <;> cases flash.selects <;>
        cases idf.imageVerify ⟨image, blocks image⟩ <;> simp

structure InstallMoment (idf : Idf) (d : Device) (m : Moment) : Prop where
  files : m.2.files = d.files
  good : m.2.good = d.good
  pending : m.2.pending = d.pending
  way : (m.2.state = idf.begun d.state ∧ ∀ fresh was, m.1 ≠ .select fresh was) ∨
    (∃ was, m.1 = .select true was) ∧ Selected idf m.2

theorem mem_writeImage {fails : Option Nat} {m : Moment}
    (member : m ∈ (writeImage d image fails).2) :
    ∃ slot, m = (.write, { d with slot }) := by
  have of_blocks : ∀ count, m ∈ writeBlocks d image count →
      ∃ slot, m = (.write, { d with slot }) := by
    intro count inside
    obtain ⟨i, -, rfl⟩ := List.mem_map.mp inside
    exact ⟨_, rfl⟩
  cases fails with
  | none => exact of_blocks _ member
  | some at_block =>
    simp only [writeImage] at member
    split at member
    · rcases List.mem_append.mp member with written | failed
      · exact of_blocks _ written
      · exact ⟨_, List.mem_singleton.mp failed⟩
    · exact of_blocks _ member

theorem mem_installSteps {m : Moment} (member : m ∈ installSteps idf flash image d) :
    InstallMoment idf d m := by
  simp only [installSteps] at member
  split at member
  · rcases List.mem_cons.mp member with rfl | write
    · exact ⟨rfl, rfl, rfl, Or.inl ⟨rfl, by simp⟩⟩
    · obtain ⟨slot, rfl⟩ := mem_writeImage write
      exact ⟨rfl, rfl, rfl, Or.inl ⟨rfl, by simp⟩⟩
  · cases member

theorem Takes.selected (doc : idf.Documented) (takes : Takes idf flash image) :
    Selected idf (taken idf image d) :=
  ⟨rfl, doc.selected_fresh _, takes.2.2.2.1, le_rfl⟩

theorem installFile_spec (doc : idf.Documented) (found : d.files path = some image)
    (some_blocks : 0 < blocks image) {done : Bool}
    (call : installFile idf flash path d = (done, trail)) :
    (∀ m ∈ trail, InstallMoment idf d m) ∧
      (done = true → Selected idf (after d trail)) ∧ (done = true ↔ Takes idf flash image) := by
  rw [installFile_eq found some_blocks] at call
  split at call
  · rename_i takes
    cases call
    refine ⟨?_, ?_, by simpa using takes⟩
    · intro m member
      rcases List.mem_append.mp member with step | select
      · exact mem_installSteps step
      · rw [List.mem_singleton.mp select]
        exact ⟨rfl, rfl, rfl, Or.inr ⟨⟨_, rfl⟩, takes.selected doc⟩⟩
    · rw [after_append, after_singleton]
      exact fun _ => takes.selected doc
  · rename_i refused
    cases call
    exact ⟨fun m => mem_installSteps, by simp, by simpa using refused⟩

theorem takes_fine (accepted : idf.imageVerify ⟨image, blocks image⟩ = true) :
    Takes idf Flash.fine image := ⟨rfl, rfl, rfl, accepted, rfl⟩

theorem installFile_marked (found : d.files path = some image) (some_blocks : 0 < blocks image)
    (accepted : idf.imageVerify ⟨image, blocks image⟩ = true) (cut : Nat) :
    Marked idf (after d ((installFile idf flash path d).2.take cut)) ↔
      Marked idf (flash.leaves idf image cut d) := by
  rw [installFile_eq found some_blocks]
  split
  · rename_i takes
    rcases Nat.lt_or_ge (flash.steps image) cut with past | inside
    · -- the slot is selected, with the whole image in it either way
      rw [List.take_of_length_le (by simp [installSteps_length]; omega), after_append,
        after_singleton, takes.leaves some_blocks past.le]
      exact iff_of_true (Or.inr accepted) (Or.inr accepted)
    · rw [List.take_append_of_le_length (by rw [installSteps_length]; exact inside),
        after_take_installSteps some_blocks]
  · rw [after_take_installSteps some_blocks]

end Install

variable {target : List Char}

section Recovery

variable {idf : Idf} {d d' : Device} {env : Env} {m : Moment}

theorem GoodVerifies.congr (good : GoodVerifies idf d) (same : d'.good = d.good)
    (files : d'.files = d.files) : GoodVerifies idf d' := by
  rw [GoodVerifies, same, files]
  exact good

theorem Queued.congr (queued : Queued idf d) (same : d'.pending = d.pending)
    (files : d'.files = d.files) : Queued idf d' := by
  rw [Queued, same, files]
  exact queued

theorem InstallMoment.safe (moment : InstallMoment idf d m) : SafeSelect idf m := by
  intro fresh was act
  rcases moment.way with ⟨-, no_select⟩ | ⟨⟨was', select⟩, selected⟩
  · exact absurd act (no_select fresh was)
  · rw [select] at act
    cases act
    exact ⟨selected.slot, selected.whole, selected.state, Or.inl rfl⟩

theorem InstallMoment.kept (moment : InstallMoment idf d m) :
    SafeSelect idf m ∧ m.2.good = d.good ∧ m.2.files = d.files :=
  ⟨moment.safe, moment.good, moment.files⟩

theorem InstallMoment.recoverable (doc : idf.Documented) (moment : InstallMoment idf d m)
    (good : GoodVerifies idf d) (reason : d.state.failed = true ∨ Queued idf d) :
    Recoverable idf m.2 := by
  refine ⟨good.congr moment.good moment.files, ?_⟩
  rcases moment.way with ⟨state, -⟩ | ⟨-, selected⟩
  · rcases reason with failed | queued
    · exact Or.inl (by rw [state]; exact doc.begun_failed _ failed)
    · exact Or.inr (Or.inl (queued.congr moment.pending moment.files))
  · exact Or.inr (Or.inr selected.slot)

theorem after_install_same (steps : ∀ m ∈ trail, InstallMoment idf d m) :
    (after d trail).good = d.good ∧ (after d trail).files = d.files := by
  rcases after_mem d trail with same | ⟨m, member, last⟩
  · rw [same]
    exact ⟨rfl, rfl⟩
  · rw [last]
    exact ⟨(steps m member).good, (steps m member).files⟩

theorem after_install_pending (steps : ∀ m ∈ trail, InstallMoment idf d m) :
    (after d trail).pending = d.pending := by
  rcases after_mem d trail with same | ⟨m, member, last⟩
  · rw [same]
  · rw [last, (steps m member).pending]

theorem Idf.Documented.whole (doc : idf.Documented) {slot : Slot}
    (accepted : idf.imageVerify slot = true) : blocks slot.image ≤ slot.written := by
  by_contra short
  rw [doc.part_refused _ _ (not_le.mp short)] at accepted
  cases accepted

theorem mem_clearPending (member : m ∈ clearPending env d) :
    m = (.clear, { d with pending := [] }) := by
  simp only [clearPending] at member
  split at member
  · exact List.mem_singleton.mp member
  · cases member

theorem after_clearPending (env : Env) (d : Device) :
    ∃ pending, after d (clearPending env d) = { d with pending } := by
  simp only [clearPending]
  split <;> exact ⟨_, rfl⟩

theorem mem_bootKernel (member : m ∈ (bootKernel idf env d).2) :
    idf.imageVerify d.slot = true ∧
      m = (.select false d.state, { d with boot := .kernel, state := idf.selected d.state }) := by
  simp only [bootKernel, setBoot] at member
  split at member <;> rename_i result <;> split at result <;> rename_i accepted <;> cases result
  · simp only [Bool.and_eq_true] at accepted
    exact ⟨accepted.2, List.mem_singleton.mp member⟩
  · cases member

theorem bootKernel_safe (doc : idf.Documented) (sound : d.state.failed = false)
    (member : m ∈ (bootKernel idf env d).2) : SafeSelect idf m := by
  obtain ⟨accepted, rfl⟩ := mem_bootKernel member
  intro fresh was act
  cases act
  exact ⟨accepted, doc.whole accepted, doc.selected_fresh _, Or.inr sound⟩

theorem bootKernel_recoverable (good : GoodVerifies idf d) (member : m ∈ (bootKernel idf env d).2) :
    Recoverable idf m.2 := by
  obtain ⟨accepted, rfl⟩ := mem_bootKernel member
  exact ⟨good, Or.inr (Or.inr accepted)⟩

theorem bootKernel_selects (doc : idf.Documented) (accepted : idf.imageVerify d.slot = true)
    (boots : env.boots = true) : Selected idf (after d (bootKernel idf env d).2) := by
  simp only [bootKernel, setBoot, accepted, boots, Bool.and_self, if_true, after_singleton]
  exact ⟨rfl, doc.selected_fresh _, accepted, doc.whole accepted⟩

theorem Selected.clearPending (selected : Selected idf d) :
    Selected idf (after d (clearPending env d)) := by
  obtain ⟨pending, same⟩ := after_clearPending env d
  rw [same]
  exact ⟨selected.boot, selected.state, selected.slot, selected.whole⟩

theorem found_of_ok {reads : Bool} {file : Option Bytes}
    (ok : verifyFile idf.sha256 reads file = .ok) : ∃ image, file = some image := by
  cases file with
  | none => cases ok
  | some image => exact ⟨image, rfl⟩

theorem restoreGood_spec {ending : Ending}
    (doc : idf.Documented) (call : restoreGood idf env target d = (ending, trail)) :
    (∀ m ∈ trail, InstallMoment idf d m) ∧
      (ending = .restart → Selected idf (after d trail)) ∧
      (env = Env.fine → GoodVerifies idf d → nameGet d.good ≠ target → ending = .restart) := by
  simp only [restoreGood] at call
  split at call
  · rename_i refused
    cases call
    refine ⟨by simp, by simp, ?_⟩
    rintro rfl ⟨named, -, image, found, verifies, -⟩ other
    simp [named, other, found, Env.fine, verifies] at refused
  · rename_i verified
    simp only [not_or, ne_eq, not_not] at verified
    obtain ⟨-, -, verifies⟩ := verified
    obtain ⟨image, found⟩ := found_of_ok verifies
    rw [found] at verifies
    generalize install : installFile idf env.second (bootPath (nameGet d.good)) d = result at call
    obtain ⟨done, steps⟩ := result
    obtain ⟨moments, success, fine⟩ := installFile_spec doc found (blocks_pos verifies) install
    cases done with
    | true =>
      cases call
      exact ⟨moments, fun _ => success rfl, fun _ _ _ => rfl⟩
    | false =>
      cases call
      refine ⟨moments, by simp, ?_⟩
      rintro rfl ⟨-, -, image', found', -, accepted⟩ -
      rw [found] at found'
      cases found'
      exact absurd (fine.mpr (takes_fine accepted)) (by simp)

theorem GoodVerifies.accepted {image : Bytes} (good : GoodVerifies idf d)
    (same : target = nameGet d.good) (found : d.files (resolve target) = some image) :
    idf.imageVerify ⟨image, blocks image⟩ = true := by
  obtain ⟨-, name, image', found', -, accepted⟩ := good
  rw [same, resolve, if_neg name, found'] at found
  cases found
  exact accepted

theorem safe_clear (member : m ∈ clearPending env d) : SafeSelect idf m := by
  rw [mem_clearPending member]
  intro fresh was act
  cases act

theorem installTarget_spec {image : Bytes} {ending : Ending}
    (doc : idf.Documented) (found : d.files (resolve target) = some image)
    (verifies : verifyFile idf.sha256 env.reads (some image) = .ok) (good : GoodVerifies idf d)
    (call : installTarget idf env target d = (ending, trail)) :
    (∀ m ∈ trail, SafeSelect idf m ∧ m.2.good = d.good ∧ m.2.files = d.files) ∧
      ((d.state.failed = true ∨ Queued idf d) →
        (Takes idf env.first image ∨ d.state.failed = true ∨ env.clears = false) →
        ∀ m ∈ trail, Recoverable idf m.2) ∧
      (ending = .restart → Selected idf (after d trail)) ∧
      (env = Env.fine → (d.state.failed = true → target = nameGet d.good) → ending = .restart) := by
  simp only [installTarget] at call
  generalize install : installFile idf env.first (resolve target) d = result at *
  obtain ⟨done, steps⟩ := result
  obtain ⟨moments, success, takes⟩ := installFile_spec doc found (blocks_pos verifies) install
  obtain ⟨same_good, same_files⟩ := after_install_same moments
  obtain ⟨pending, cleared⟩ := after_clearPending env (after d steps)
  have of_clear : ∀ m ∈ clearPending env (after d steps),
      SafeSelect idf m ∧ m.2.good = d.good ∧ m.2.files = d.files := by
    intro m member
    refine ⟨safe_clear member, ?_⟩
    rw [mem_clearPending member]
    exact ⟨same_good, same_files⟩
  cases done with
  | true =>
    cases call
    have selected := success rfl
    refine ⟨?_, ?_, fun _ => ?_, fun _ _ => rfl⟩
    · intro m member
      rcases List.mem_append.mp member with step | clear
      · exact (moments m step).kept
      · exact of_clear m clear
    · intro reason _ m member
      rcases List.mem_append.mp member with step | clear
      · exact (moments m step).recoverable doc good reason
      · rw [mem_clearPending clear]
        exact ⟨good.congr same_good same_files, Or.inr (Or.inr selected.slot)⟩
    · rw [after_append]
      exact selected.clearPending
  | false =>
    have refused : ¬ Takes idf env.first image := by simpa using takes
    simp only at call
    split at call
    · rename_i failed
      cases call
      refine ⟨fun m member => (moments m member).kept, ?_, by simp, ?_⟩
      · intro reason _ m member
        exact (moments m member).recoverable doc good reason
      · rintro rfl restoring
        exact absurd (takes_fine (good.accepted (restoring failed) found)) refused
    · rename_i not_failed
      generalize restore : restoreGood idf env target _ = result at call
      obtain ⟨ending', rest⟩ := result
      cases call
      obtain ⟨moments', success', fine'⟩ := restoreGood_spec doc restore
      have good' : GoodVerifies idf { after d steps with pending } :=
        good.congr same_good same_files
      refine ⟨?_, ?_, ?_, ?_⟩
      · rw [after_append, cleared] at moments'
        intro m member
        rcases List.mem_append.mp member with cleared | later
        · rcases List.mem_append.mp cleared with step | clear
          · exact (moments m step).kept
          · exact of_clear m clear
        · exact ⟨(moments' m later).safe, (moments' m later).good.trans same_good,
            (moments' m later).files.trans same_files⟩
      · rintro reason (wrong | failed | keeps)
        · exact absurd wrong refused
        · exact absurd failed not_failed
        · -- `pending` stays, and with it what is queued
          have queued := reason.resolve_left not_failed
          have none : clearPending env (after d steps) = [] := by simp [clearPending, keeps]
          rw [none, List.append_nil] at moments' ⊢
          intro m member
          rcases List.mem_append.mp member with step | later
          · exact (moments m step).recoverable doc good reason
          · refine (moments' m later).recoverable doc (good.congr same_good same_files) (Or.inr ?_)
            exact queued.congr (after_install_pending moments) same_files
      · intro restart
        rw [after_append]
        exact success' restart
      · rw [after_append, cleared] at fine'
        rintro rfl -
        refine fine' rfl good' fun same => ?_
        have target_good : target = nameGet d.good := by
          rw [← same, same_good]
        exact absurd (takes_fine (good.accepted target_good found)) refused

theorem dropPending_safe (doc : idf.Documented) (sound : d.state.failed = false)
    (member : m ∈ (dropPending idf env d).2) : SafeSelect idf m := by
  rcases List.mem_append.mp member with clear | select
  · exact safe_clear clear
  · obtain ⟨pending, same⟩ := after_clearPending env d
    exact bootKernel_safe doc (by rw [same]; exact sound) select

theorem dropPending_recoverable (good : GoodVerifies idf d)
    (accepted : idf.imageVerify d.slot = true)
    (member : m ∈ (dropPending idf env d).2) : Recoverable idf m.2 := by
  rcases List.mem_append.mp member with clear | select
  · rw [mem_clearPending clear]
    exact ⟨good, Or.inr (Or.inr accepted)⟩
  · obtain ⟨pending, same⟩ := after_clearPending env d
    exact bootKernel_recoverable (by rw [same]; exact good) select

theorem dropPending_selects (doc : idf.Documented) (accepted : idf.imageVerify d.slot = true)
    (boots : env.boots = true) : Selected idf (after d (dropPending idf env d).2) := by
  obtain ⟨pending, same⟩ := after_clearPending env d
  simp only [dropPending, after_append]
  exact bootKernel_selects doc (by rw [same]; exact accepted) boots

/-- What `app_main` goes on to do with its state read and its files there. -/
inductive Goes (idf : Idf) (env : Env) (d : Device) : Ending × List Moment → Prop
  | restores {image} (failed : d.state.failed = true)
      (found : d.files (resolve (nameGet d.good)) = some image)
      (verifies : verifyFile idf.sha256 env.reads (some image) = .ok) :
      Goes idf env d (installTarget idf env (nameGet d.good) d)
  | stalls {why} (failed : d.state.failed = true) (unread : env.reads = false) :
      Goes idf env d (.stall why, [])
  | installs {image} (sound : d.state.failed = false) (queued : Queued idf d)
      (found : d.files (resolve (nameGet d.pending)) = some image)
      (verifies : verifyFile idf.sha256 env.reads (some image) = .ok) :
      Goes idf env d (installTarget idf env (nameGet d.pending) d)
  | drops (sound : d.state.failed = false) (refused : Queued idf d → env.reads = false) :
      Goes idf env d (dropPending idf env d)
  | boots (sound : d.state.failed = false) (empty : ¬ Queued idf d) :
      Goes idf env d (bootKernel idf env d)

theorem reads_of_ok {file : Option Bytes} (ok : verifyFile idf.sha256 env.reads file = .ok) :
    env.reads = true := by
  cases reads : env.reads with
  | true => rfl
  | false =>
    rw [reads] at ok
    cases file with
    | none => cases ok
    | some image =>
      simp only [verifyFile, Bool.not_false, if_true] at ok
      split at ok <;> cases ok

theorem appMain_goes (good : GoodVerifies idf d) (nvs : env.nvs = true)
    (mount : env.mount = true) : Goes idf env d (appMain idf env d) := by
  obtain ⟨named, name, image, found, verifies, -⟩ := good
  have at_boot : d.files (resolve (nameGet d.good)) = some image := by
    rw [resolve, if_neg name]
    exact found
  have aim : ∀ target, targetOf d = some target →
      d.state.failed = true ∧ target = nameGet d.good ∨
        d.state.failed = false ∧ target = nameGet d.pending ∧ target ≠ [] := by
    intro target aimed
    cases failed : d.state.failed <;> simp [targetOf, failed, named] at aimed
    · exact Or.inr ⟨rfl, aimed.2.symm, aimed.2 ▸ aimed.1⟩
    · exact Or.inl ⟨rfl, aimed.symm⟩
  fun_cases appMain idf env d with
  | case1 unready => simp [nvs, mount] at unready
  | case2 _ nothing =>
    cases failed : d.state.failed with
    | true => simp [targetOf, failed, named] at nothing
    | false =>
      refine .boots failed fun queued => ?_
      simp [targetOf, failed, queued.1] at nothing
  | case3 _ target aimed ok =>
    have reads := reads_of_ok ok
    obtain ⟨image', there⟩ := found_of_ok ok
    rw [there] at ok
    rcases aim target aimed with ⟨failed, rfl⟩ | ⟨sound, rfl, named'⟩
    · exact .restores failed there ok
    · refine .installs sound ⟨named', ?_⟩ there ok
      rw [there, ← reads]
      exact ok
  | case4 _ target aimed missing failed =>
    rcases aim target aimed with ⟨-, rfl⟩ | ⟨sound, -⟩
    · rw [at_boot] at missing
      simp only [verifyFile] at missing
      split at missing <;> (try split at missing) <;> (try split at missing) <;> cases missing
    · simp [sound] at failed
  | case5 _ target aimed missing not_failed =>
    rcases aim target aimed with ⟨failed, -⟩ | ⟨sound, rfl, -⟩
    · exact absurd failed not_failed
    · refine .drops sound fun queued => ?_
      by_contra reads
      rw [Bool.not_eq_false] at reads
      rw [reads, queued.2] at missing
      cases missing
  | case6 _ target aimed failed bad =>
    rcases aim target aimed with ⟨-, rfl⟩ | ⟨sound, -⟩
    · refine .stalls failed ?_
      by_contra reads
      rw [Bool.not_eq_false] at reads
      rw [reads, at_boot] at bad
      exact bad verifies
    · simp [sound] at failed
  | case7 _ target aimed not_failed bad =>
    rcases aim target aimed with ⟨failed, -⟩ | ⟨sound, rfl, -⟩
    · exact absurd failed not_failed
    · refine .drops sound fun queued => ?_
      by_contra reads
      rw [Bool.not_eq_false] at reads
      exact bad (by rw [reads]; exact queued.2)

theorem not_ready (unready : ¬ (env.nvs = true ∧ env.mount = true)) :
    appMain idf env d = bootKernel idf env d := by
  rw [appMain, if_pos]
  cases nvs : env.nvs <;> cases mount : env.mount <;> simp_all

theorem kept_of_boot (member : m ∈ (bootKernel idf env d).2) :
    m.2.good = d.good ∧ m.2.files = d.files := by
  rw [(mem_bootKernel member).2]
  exact ⟨rfl, rfl⟩

theorem kept_of_drop (member : m ∈ (dropPending idf env d).2) :
    m.2.good = d.good ∧ m.2.files = d.files := by
  rcases List.mem_append.mp member with clear | select
  · rw [mem_clearPending clear]
    exact ⟨rfl, rfl⟩
  · obtain ⟨pending, same⟩ := after_clearPending env d
    have kept := kept_of_boot select
    rw [same] at kept
    exact kept

theorem appMain_kept (doc : idf.Documented) (good : GoodVerifies idf d)
    (member : m ∈ (appMain idf env d).2) : m.2.good = d.good ∧ m.2.files = d.files := by
  by_cases ready : env.nvs = true ∧ env.mount = true
  · have goes := appMain_goes good ready.1 ready.2
    generalize appMain idf env d = result at goes member
    cases goes with
    | restores _ found verifies | installs _ _ found verifies =>
      exact ((installTarget_spec doc found verifies good rfl).1 m member).2
    | stalls => cases member
    | drops => exact kept_of_drop member
    | boots => exact kept_of_boot member
  · rw [not_ready ready] at member
    exact kept_of_boot member

/-- A failed slot is selected only by a run that could not ask for its state. -/
theorem appMain_safe_iff (doc : idf.Documented) (good : GoodVerifies idf d) :
    (∀ m ∈ (appMain idf env d).2, SafeSelect idf m) ↔ Heeds idf env d := by
  by_cases ready : env.nvs = true ∧ env.mount = true
  · refine iff_of_true (fun m member => ?_) (Or.inl ready)
    have goes := appMain_goes good ready.1 ready.2
    generalize appMain idf env d = result at goes member
    cases goes with
    | restores _ found verifies | installs _ _ found verifies =>
      exact ((installTarget_spec doc found verifies good rfl).1 m member).1
    | stalls => cases member
    | drops sound => exact dropPending_safe doc sound member
    | boots sound => exact bootKernel_safe doc sound member
  · rw [not_ready ready, Heeds, or_iff_right ready]
    cases failed : d.state.failed with
    | false =>
      exact iff_of_true (fun m member => bootKernel_safe doc failed member) (Or.inl rfl)
    | true =>
      cases boots : env.boots <;> cases accepted : idf.imageVerify d.slot
      case true.true =>
        simp [bootKernel, setBoot, boots, accepted, SafeSelect, failed]
      all_goals simp [bootKernel, setBoot, boots, accepted]

theorem appMain_fine (doc : idf.Documented) (inv : Recoverable idf d) :
    Selected idf (after d (appMain idf Env.fine d).2) := by
  have goes := @appMain_goes idf d Env.fine inv.good rfl rfl
  have bootable : d.state.failed = false → ¬ Queued idf d → idf.imageVerify d.slot = true := by
    intro sound empty
    rcases inv.way with failed | queued | bootable
    · rw [sound] at failed
      cases failed
    · exact absurd queued empty
    · exact bootable
  generalize appMain idf Env.fine d = result at goes
  cases goes with
  | restores _ found verifies =>
    obtain ⟨-, -, restarted, fine⟩ := installTarget_spec doc found verifies inv.good rfl
    exact restarted (fine rfl fun _ => rfl)
  | stalls _ unread => cases unread
  | installs sound _ found verifies =>
    obtain ⟨-, -, restarted, fine⟩ := installTarget_spec doc found verifies inv.good rfl
    exact restarted (fine rfl fun failed => by rw [sound] at failed; cases failed)
  | drops sound refused =>
    exact dropPending_selects doc (bootable sound fun queued => by cases refused queued) rfl
  | boots sound empty => exact bootKernel_selects doc (bootable sound empty) rfl

/-- With nothing queued, nothing failed and no bootable slot, no run finds a way back. -/
theorem fine_selects_iff (doc : idf.Documented) (good : GoodVerifies idf d) :
    Selected idf (after d (appMain idf Env.fine d).2) ↔ Recoverable idf d := by
  refine ⟨fun selected => ⟨good, ?_⟩, appMain_fine doc⟩
  by_contra stuck
  simp only [not_or, Bool.not_eq_true] at stuck
  obtain ⟨sound, empty, broken⟩ := stuck
  have goes := @appMain_goes idf d Env.fine good rfl rfl
  have slot := selected.slot
  generalize appMain idf Env.fine d = result at goes slot
  cases goes with
  | restores failed | stalls failed =>
    rw [sound] at failed
    cases failed
  | installs _ queued => exact empty queued
  | drops | boots =>
    simp [dropPending, bootKernel, setBoot, clearPending, Env.fine, after, broken] at slot

theorem recoverable_iff_marked (good : GoodVerifies idf d) (empty : d.pending = []) :
    Recoverable idf d ↔ Marked idf d := by
  refine ⟨?_, fun marked => ⟨good, marked.imp_right Or.inr⟩⟩
  rintro ⟨-, failed | ⟨named, -⟩ | bootable⟩
  · exact Or.inl failed
  · rw [empty] at named
    exact absurd rfl named
  · exact Or.inr bootable

theorem givenUp_same {image : Bytes} :
    (givenUp idf env image d).good = d.good ∧ (givenUp idf env image d).files = d.files := by
  rw [givenUp, Flash.leaves]
  split <;> exact ⟨rfl, rfl⟩

theorem restoreGood_marked (reads : env.reads = true) {image good : Bytes} {n : Nat}
    (verifies : GoodVerifies idf d) (found : d.files (bootPath (nameGet d.good)) = some good) :
    Marked idf (after (givenUp idf env image d)
        ((restoreGood idf env (nameGet d.pending) (givenUp idf env image d)).2.take n)) ↔
      Marked idf (restored idf env image good n d) := by
  obtain ⟨same_good, same_files⟩ := @givenUp_same idf d env image
  obtain ⟨named, -, image', found', ok, accepted⟩ := verifies
  obtain rfl : good = image' := by
    rw [found] at found'
    cases found'
    rfl
  simp only [restoreGood, same_good, same_files, found, reads, ok, named, restored]
  by_cases given_up : nameGet d.good = nameGet d.pending
  · simp [given_up, after]
  · have at_boot : (givenUp idf env image d).files (bootPath (nameGet d.good)) = some good := by
      rw [same_files, found]
    rw [if_neg given_up, ← installFile_marked at_boot (blocks_pos ok) accepted n]
    simp only [given_up, or_self, ne_eq, not_true_eq_false, if_false]
    generalize installFile idf env.second _ _ = result
    obtain ⟨done, steps⟩ := result
    cases done <;> rfl

theorem dropPending_careful (inv : Recoverable idf d) (sound : d.state.failed = false)
    (clears : env.clears = true) (cut : Nat) :
    Recoverable idf (after d ((dropPending idf env d).2.take cut)) ↔
      (0 < cut → idf.imageVerify d.slot = true) := by
  cases accepted : idf.imageVerify d.slot with
  | true =>
    exact iff_of_true (cut_holds inv (fun m => dropPending_recoverable inv.good accepted) cut)
      fun _ => rfl
  | false =>
    have steps : (dropPending idf env d).2 = [(.clear, { d with pending := [] })] := by
      simp [dropPending, clearPending, clears, bootKernel, setBoot, after, accepted]
    rcases cut with - | n
    · exact iff_of_true inv (by simp)
    · rw [steps]
      simp only [List.take_succ_cons, List.take_nil, after_singleton]
      refine iff_of_false ?_ (by simp)
      rw [recoverable_iff_marked (d := { d with pending := [] }) inv.good rfl]
      simp [Marked, sound, accepted]

theorem installTarget_careful {image good : Bytes} (inv : Recoverable idf d)
    (doc : idf.Documented) (sound : d.state.failed = false) (queued : Queued idf d)
    (clears : env.clears = true) (found : d.files (resolve (nameGet d.pending)) = some image)
    (verifies : verifyFile idf.sha256 env.reads (some image) = .ok)
    (at_boot : d.files (bootPath (nameGet d.good)) = some good)
    (refused : ¬ Takes idf env.first image) (cut : Nat) :
    Recoverable idf (after d ((installTarget idf env (nameGet d.pending) d).2.take cut)) ↔
      (env.first.steps image < cut →
        Marked idf (restored idf env image good (cut - env.first.steps image - 1) d)) := by
  have some_blocks := blocks_pos verifies
  have length := @installSteps_length idf d env.first image
  have left : { after d (installSteps idf env.first image d) with pending := [] } =
      givenUp idf env image d := by
    rw [after_installSteps some_blocks, givenUp]
  have trail : (installTarget idf env (nameGet d.pending) d).2 =
      (installSteps idf env.first image d ++ [(.clear, givenUp idf env image d)]) ++
        (restoreGood idf env (nameGet d.pending) (givenUp idf env image d)).2 := by
    simp only [installTarget, installFile_eq found some_blocks, if_neg refused, sound, clearPending,
      clears, if_true, after_append, after_singleton, left]
    rfl
  rw [trail]
  rcases Nat.lt_or_ge (env.first.steps image) cut with past | inside
  · rw [forall_prop_of_true past, ← restoreGood_marked (reads_of_ok verifies) inv.good at_boot,
      List.take_append, List.take_of_length_le (by simp [length]; omega), after_append,
      after_append, after_singleton, List.length_append, length, List.length_singleton,
      Nat.sub_add_eq]
    obtain ⟨moments, -⟩ :=
      @restoreGood_spec _ (nameGet d.pending) idf (givenUp idf env image d) env _ doc rfl
    have good' : GoodVerifies idf (givenUp idf env image d) :=
      inv.good.congr givenUp_same.1 givenUp_same.2
    exact recoverable_iff_marked
      (cut_holds good' (fun m member => good'.congr (moments m member).good
        (moments m member).files) _)
      (@cut_holds _ _ (fun d => d.pending = []) _ _ rfl
        (fun m member => (moments m member).pending) _)
  · refine iff_of_true ?_ fun past => absurd past (by omega)
    rw [List.append_assoc, List.take_append_of_le_length (by omega)]
    exact cut_holds inv (fun m member =>
      (mem_installSteps member).recoverable doc inv.good (Or.inr queued)) cut

theorem step_good {event : Event} (doc : idf.Documented) (good : GoodVerifies idf d)
    (taken : step idf d event = some d') : GoodVerifies idf d' := by
  cases event with
  | fallback =>
    obtain ⟨-, ⟨⟩⟩ := Option.ite_none_right_eq_some.mp taken
    exact good
  | loader env cut =>
    cases taken
    exact cut_holds good (fun m member => good.congr (appMain_kept doc good member).1
      (appMain_kept doc good member).2) cut

theorem careful_of_failed {cut : Nat} (failed : d.state.failed = true) :
    Careful idf d (.loader env cut) := by
  intro _ _ _ sound
  rw [failed] at sound
  cases sound

/-- A loader run leaves a way back exactly if it is careful. -/
theorem step_recoverable_iff {event : Event} (doc : idf.Documented) (inv : Recoverable idf d)
    (taken : step idf d event = some d') : Recoverable idf d' ↔ Careful idf d event := by
  cases event with
  | fallback =>
    obtain ⟨-, ⟨⟩⟩ := Option.ite_none_right_eq_some.mp taken
    exact iff_of_true ⟨inv.good, Or.inl rfl⟩ trivial
  | loader env cut =>
    cases taken
    have all : (∀ m ∈ (appMain idf env d).2, Recoverable idf m.2) →
        Recoverable idf (after d ((appMain idf env d).2.take cut)) :=
      fun moments => cut_holds inv moments cut
    by_cases ready : env.nvs = true ∧ env.mount = true
    swap
    · rw [not_ready ready] at all ⊢
      exact iff_of_true (all fun m => bootKernel_recoverable inv.good)
        fun nvs mount => absurd ⟨nvs, mount⟩ ready
    have goes := appMain_goes inv.good ready.1 ready.2
    generalize appMain idf env d = result at goes all
    cases goes with
    | restores failed found verifies =>
      exact iff_of_true (all ((installTarget_spec doc found verifies inv.good rfl).2.1
        (Or.inl failed) (Or.inr (Or.inl failed)))) (careful_of_failed failed)
    | stalls failed => exact iff_of_true (all (by simp)) (careful_of_failed failed)
    | boots _ empty =>
      exact iff_of_true (all fun m => bootKernel_recoverable inv.good)
        fun _ _ _ _ queued => absurd queued empty
    | drops sound refused =>
      by_cases queued : Queued idf d
      · have unread := refused queued
        cases clears : env.clears with
        | false =>
          refine iff_of_true (all fun m member => ?_) fun _ _ clears' => ?_
          · simp only [dropPending, clearPending, clears, after] at member
            exact bootKernel_recoverable inv.good member
          · rw [clears] at clears'
            cases clears'
        | true =>
          rw [dropPending_careful inv sound clears]
          simp [Careful, ready.1, ready.2, clears, sound, queued, unread]
      · have bootable := (inv.way.resolve_left (by simp [sound])).resolve_left queued
        exact iff_of_true (all fun m => dropPending_recoverable inv.good bootable)
          fun _ _ _ _ queued' => absurd queued' queued
    | @installs image sound queued found verifies =>
      have reads := reads_of_ok verifies
      obtain ⟨-, -, good, at_boot, -⟩ := inv.good
      by_cases safe : Takes idf env.first image ∨ d.state.failed = true ∨ env.clears = false
      · refine iff_of_true (all ((installTarget_spec doc found verifies inv.good rfl).2.1
          (Or.inr queued) safe)) fun _ _ clears _ _ => ⟨fun unread => ?_, ?_⟩
        · rw [reads] at unread
          cases unread
        · intro _ _ found' _ _ refused
          rw [found] at found'
          cases found'
          simp [refused, sound, clears] at safe
      · simp only [not_or, Bool.not_eq_false] at safe
        rw [installTarget_careful inv doc sound queued safe.2.2 found verifies at_boot safe.1]
        simp [Careful, ready.1, ready.2, safe.1, safe.2.2, sound, queued, reads, found, at_boot]

end Recovery

theorem interrupted_loader_recovers {idf : Idf} {d d' : Device} {events : List Event}
    (doc : idf.Documented) (start : Recoverable idf d)
    (careful : Along (step idf) (Careful idf) d events) (ran : run (step idf) d events = some d') :
    Selected idf (after d' (appMain idf Env.fine d').2) ∧
      (∀ event d'', step idf d' event = some d'' →
        (Selected idf (after d'' (appMain idf Env.fine d'').2) ↔ Careful idf d' event)) ∧
      ∀ env, (∀ m ∈ (appMain idf env d').2, SafeSelect idf m) ↔ Heeds idf env d' := by
  have inv : Recoverable idf d' :=
    run_invariant_along
      (fun _ _ _ before ok taken => (step_recoverable_iff doc before taken).mpr ok)
      careful ran start
  refine ⟨appMain_fine doc inv, fun event d'' taken => ?_, fun env => appMain_safe_iff doc inv.good⟩
  rw [fine_selects_iff doc (step_good doc inv.good taken), step_recoverable_iff doc inv taken]

/-- A digest of zeros, and a slot that is bootable once all of its image is there. -/
def plainIdf : Idf :=
  { sha256 := zeroDigest
    imageVerify := fun slot => slot.written == blocks slot.image
    begun := id
    selected := fun _ => .new }

theorem plainIdf_documented : plainIdf.Documented :=
  ⟨fun image written short => by simpa [plainIdf] using Nat.ne_of_lt short, fun _ => rfl,
    fun _ failed => failed⟩

/-- A confirmed kernel is installed and another one is queued; both files verify. -/
def queuedDevice : Device :=
  { slot := ⟨smallImage 1, 1⟩
    state := .valid
    boot := .loader
    good := "g.bin".toList
    pending := "p.bin".toList
    files := fun path =>
      if path = bootPath "g.bin".toList then some (smallImage 1)
      else if path = bootPath "p.bin".toList then some (smallImage 2)
      else none }

theorem queuedDevice_recoverable : Recoverable plainIdf queuedDevice :=
  ⟨⟨by decide, by decide, smallImage 1, by decide, by decide, by
    decide⟩, Or.inr (Or.inr (by decide))⟩

def badWrites : Env := { Env.fine with first := { Flash.fine with failsAt := some 0 } }

theorem badWrites_careful {d : Device} {cut : Nat} (queued : d.pending = "p.bin".toList)
    (good : d.good = "g.bin".toList) (files : d.files = queuedDevice.files)
    (whole : cut ≤ 2 ∨ 5 ≤ cut) : Careful plainIdf d (.loader badWrites cut) := by
  refine fun _ _ _ _ _ => ⟨by simp [badWrites, Env.fine], ?_⟩
  rw [queued, good, files]
  intro image kept found at_boot _ _ late
  rw [show queuedDevice.files (resolve (nameGet "p.bin".toList)) = some (smallImage 2) by decide]
    at found
  rw [show queuedDevice.files (bootPath (nameGet "g.bin".toList)) = some (smallImage 1) by decide]
    at at_boot
  cases found
  cases at_boot
  have steps : badWrites.first.steps (smallImage 2) = 2 := by decide
  rw [steps] at late ⊢
  have written : min (cut - 2 - 1 - 1) (badWrites.second.reach (smallImage 1)) = 1 :=
    Nat.min_eq_right (by change 1 ≤ _; omega)
  right
  rw [restored, queued, good, if_neg (by decide), Flash.leaves, if_pos ⟨rfl, by omega⟩,
    if_neg (by omega), written]
  exact (by decide : plainIdf.imageVerify ⟨smallImage 1, 1⟩ = true)

/-- The first run loses power before it has cleared `pending`, the second with the good
image back in the slot. -/
theorem cut_install_recovers :
    ∃ d, run (step plainIdf) queuedDevice [.loader badWrites 2, .loader badWrites 5] = some d ∧
      d.pending = [] ∧ Selected plainIdf (after d (appMain plainIdf Env.fine d).2) := by
  have careful : Along (step plainIdf) (Careful plainIdf) queuedDevice
      [.loader badWrites 2, .loader badWrites 5] := by
    refine ⟨badWrites_careful rfl rfl rfl (by decide), ?_⟩
    rintro _ ⟨⟩
    exact ⟨badWrites_careful rfl rfl rfl (by decide), fun _ _ => trivial⟩
  exact ⟨_, rfl, by decide,
    (interrupted_loader_recovers plainIdf_documented queuedDevice_recoverable careful rfl).1⟩

/-- The first write of the queued image fails, and power goes right after `pending` is
cleared: the slot is erased, and no later run has a reason to put anything back. -/
theorem cut_after_clear_strands :
    Recoverable plainIdf queuedDevice ∧
      ∃ d, run (step plainIdf) queuedDevice
          [.loader badWrites 3] = some d ∧
        (after d (appMain plainIdf Env.fine d).2).boot = .loader ∧
        plainIdf.imageVerify (after d (appMain plainIdf Env.fine d).2).slot = false :=
  ⟨queuedDevice_recoverable, _, rfl, by decide, by decide⟩

end Espix.Boot.Loader
