import Mathlib.Data.List.Basic

/-! A block device view over a partition.

`components/espix_fs/part.c`. Addresses and sizes are 64-bit words and lengths 32-bit ones. A disk
is asked through any number of views, each of a part of the one below. -/

namespace Espix.Fs.Partition

inductive Err
  | invalidArg
  | notSupported
  | noMem
  deriving DecidableEq, Repr

inductive Command
  | markDeleted
  | eraseContents
  | other (cmd : UInt8)
  deriving DecidableEq, Repr

/-- A call of one of the operations. A buffer is given or NULL, and so are the arguments of `ioctl`.
-/
inductive Request
  | read (dst : Bool) (dstSize : UInt32) (src : UInt64) (len : UInt32)
  | write (src : Bool) (dst : UInt64) (len : UInt32)
  | erase (start : UInt64) (len : UInt32)
  | sync
  | ioctl (cmd : Command) (args : Option (UInt64 × UInt32))
  deriving DecidableEq, Repr

structure Ops where
  read : Bool
  erase : Bool
  sync : Bool
  ioctl : Bool
  deriving DecidableEq, Repr

inductive Device
  | disk (size : UInt64) (readOnly : Bool) (ops : Ops)
  | view (parent : Device) (start size : UInt64) (readOnly : Bool)
  deriving DecidableEq, Repr

namespace Device

def diskSize : Device → UInt64
  | disk size _ _ | view _ _ size _ => size

def readOnly : Device → Bool
  | disk _ readOnly _ | view _ _ _ readOnly => readOnly

def ops : Device → Ops
  | disk _ _ ops => ops
  | view .. => ⟨true, true, true, true⟩

end Device

def partitionView (memory : Bool) (parent : Option Device) (start size : UInt64)
    (readonly : Bool) : Except Err Device :=
  match parent with
  | none => .error .invalidArg
  | some parent =>
    if size == 0 || start ≥ parent.diskSize || size > parent.diskSize - start then
      .error .invalidArg
    else if !parent.ops.read then .error .notSupported
    else if !memory then .error .noMem
    else .ok (.view parent start size (parent.readOnly || readonly))

def within (size addr : UInt64) (len : UInt32) : Bool := addr ≤ size && len.toUInt64 ≤ size - addr

/-- What a view hands to its parent, whose answer is then its own; or its own answer. -/
def partRequest (parent : Device) (start size : UInt64) (readOnly : Bool) : Request →
    Except Err (Option Request)
  | .read dst dstSize src len =>
    if !dst || len > dstSize || !within size src len then .error .invalidArg
    else .ok (some (.read dst dstSize (start + src) len))
  | .write src dst len =>
    if !src || !within size dst len then .error .invalidArg
    else if readOnly then .error .notSupported
    else .ok (some (.write src (start + dst) len))
  | .erase addr len =>
    if !within size addr len then .error .invalidArg
    else if readOnly || !parent.ops.erase then .error .notSupported
    else .ok (some (.erase (start + addr) len))
  | .sync => .ok (if parent.ops.sync then some .sync else none)
  | .ioctl cmd args =>
    if !parent.ops.ioctl then .error .notSupported
    else
      match cmd with
      | .other _ => .ok (some (.ioctl cmd args))
      | _ =>
        match args with
        | none => .error .invalidArg
        | some (addr, len) =>
          if !within size addr len then .error .invalidArg
            else .ok (some (.ioctl cmd (some (start + addr, len))))

def arrives : Device → Request → Option Request
  | .disk .., r => some r
  | .view parent start size readOnly, r =>
    match partRequest parent start size readOnly r with
    | .ok (some forwarded) => arrives parent forwarded
    | _ => none

inductive Built : Device → Prop
  | disk (size : UInt64) (readOnly : Bool) (ops : Ops) : Built (.disk size readOnly ops)
  | view {memory readonly : Bool} {parent d : Device} {start size : UInt64} (built : Built parent)
      (made : partitionView memory (some parent) start size readonly = .ok d) : Built d

def Request.span : Request → Option (Nat × Nat)
  | .read _ _ addr len | .write _ addr len | .erase addr len => some (addr.toNat, len.toNat)
  | .ioctl (.other _) _ | .ioctl _ none | .sync => none
  | .ioctl _ (some (addr, len)) => some (addr.toNat, len.toNat)

def Request.changes : Request → Bool
  | .write .. | .erase .. | .ioctl .markDeleted _ | .ioctl .eraseContents _ => true
  | _ => false

/-- The request is about bytes from `lo` on and before `hi`, or about none. -/
def Request.Inside (r : Request) (lo hi : Nat) : Prop :=
  ∀ addr len, r.span = some (addr, len) → lo ≤ addr ∧ addr + len ≤ hi

def Device.base : Device → Nat
  | .disk .. => 0
  | .view parent start _ _ => parent.base + start.toNat

def Device.bottom : Device → Device
  | .disk size readOnly ops => .disk size readOnly ops
  | .view parent _ _ _ => parent.bottom

structure Contained (parent : Device) (start size : UInt64) (readOnly : Bool)
    (r : Request) : Prop where
  part : start.toNat + size.toNat ≤ parent.diskSize.toNat
  forwarded : ∀ r', partRequest parent start size readOnly r = .ok (some r') →
    r'.Inside start.toNat (start.toNat + size.toNat) ∧
      r'.span = r.span.map fun (addr, len) => (start.toNat + addr, len)
  refused : ¬r.Inside 0 size.toNat → ∃ e, partRequest parent start size readOnly r = .error e
  arrived : ∀ r', arrives (.view parent start size readOnly) r = some r' →
    r'.Inside (parent.base + start.toNat) (parent.base + start.toNat + size.toNat) ∧
      parent.base + start.toNat + size.toNat ≤ parent.bottom.diskSize.toNat
  unwritten : readOnly = true → ∀ r', partRequest parent start size readOnly r = .ok (some r') →
    r'.changes = false

section Views

variable {parent d : Device} {start size addr : UInt64} {len : UInt32} {readOnly : Bool}
    {r r' : Request}

theorem within_iff : within size addr len = true ↔ addr.toNat + len.toNat ≤ size.toNat := by
  rw [within, Bool.and_eq_true, decide_eq_true_eq, decide_eq_true_eq, UInt64.le_iff_toNat_le]
  constructor
  · rintro ⟨before, fits⟩
    rw [UInt64.le_iff_toNat_le, UInt64.toNat_sub_of_le _ _ (UInt64.le_iff_toNat_le.mpr before),
      UInt32.toNat_toUInt64] at fits
    omega
  · intro fits
    have before : addr.toNat ≤ size.toNat := by omega
    refine ⟨before, ?_⟩
    rw [UInt64.le_iff_toNat_le, UInt64.toNat_sub_of_le _ _ (UInt64.le_iff_toNat_le.mpr before),
      UInt32.toNat_toUInt64]
    omega

theorem part_of_made {memory readonly : Bool}
    (made : partitionView memory (some parent) start size readonly = .ok d) :
    d = .view parent start size (parent.readOnly || readonly) ∧
    start.toNat + size.toNat ≤ parent.diskSize.toNat := by
  unfold partitionView at made
  dsimp only at made
  repeat' split at made
  all_goals cases made
  rename_i fits _ _
  simp only [Bool.or_eq_true, beq_iff_eq, decide_eq_true_eq, not_or, ge_iff_le,
    gt_iff_lt, UInt64.not_le, UInt64.not_lt] at fits
  have before := UInt64.le_of_lt fits.1.2
  have room := UInt64.le_iff_toNat_le.mp fits.2
  rw [UInt64.toNat_sub_of_le _ _ before] at room
  have start_le := UInt64.le_iff_toNat_le.mp before
  exact ⟨rfl, by omega⟩

theorem toNat_translated (part : start.toNat + size.toNat ≤ parent.diskSize.toNat)
    (fits : within size addr len = true) :
    (start + addr).toNat = start.toNat + addr.toNat := by
  have inside := within_iff.mp fits
  have bound := parent.diskSize.toNat_lt
  rw [UInt64.toNat_add, Nat.mod_eq_of_lt (by omega)]

theorem forwarded_cases (next : partRequest parent start size readOnly r = .ok (some r')) :
    r' = r ∧ r.span = none ∧ r.changes = false ∨
      ∃ addr len, within size addr len = true ∧ r.span = some (addr.toNat, len.toNat) ∧
        r'.span = some ((start + addr).toNat, len.toNat) ∧ r'.changes = r.changes ∧
        (readOnly = true → r.changes = true → parent.ops.ioctl = true ∧
          ∃ cmd, r = .ioctl cmd (some (addr, len))) := by
  revert next
  fun_cases partRequest parent start size readOnly r with
  | case1 | case3 | case4 | case6 | case7 | case10 | case12 | case13 => exact nofun
  | case2 dst dstSize src len fits =>
    rintro ⟨⟩
    simp only [Bool.or_eq_true, Bool.not_eq_true', not_or, Bool.not_eq_false] at fits
    exact .inr ⟨src, len, fits.2, rfl, rfl, rfl, nofun⟩
  | case5 src dst len fits writable =>
    rintro ⟨⟩
    simp only [Bool.or_eq_true, Bool.not_eq_true', not_or, Bool.not_eq_false] at fits
    exact .inr ⟨dst, len, fits.2, rfl, rfl, rfl, fun locked => absurd locked writable⟩
  | case8 addr len fits erasable =>
    rintro ⟨⟩
    exact .inr ⟨addr, len, by
      simpa using fits, rfl, rfl, rfl, fun locked => absurd (by simp [locked]) erasable⟩
  | case9 =>
    split <;> rintro ⟨⟩
    exact .inl ⟨rfl, rfl, rfl⟩
  | case11 =>
    rintro ⟨⟩
    exact .inl ⟨rfl, rfl, rfl⟩
  | case14 offered cmd special addr len fits =>
    rintro ⟨⟩
    cases cmd with
    | other cmd => exact absurd rfl (special cmd ·)
    | markDeleted | eraseContents =>
      exact .inr ⟨addr, len, by
        simpa using fits, rfl, rfl, rfl, fun _ _ => ⟨by simpa using offered, _, rfl⟩⟩

theorem span_forwarded (part : start.toNat + size.toNat ≤ parent.diskSize.toNat)
    (next : partRequest parent start size readOnly r = .ok (some r')) :
    r.Inside 0 size.toNat ∧ r'.span = r.span.map fun (addr, len) => (start.toNat + addr, len) := by
  rcases forwarded_cases next with ⟨rfl, none, -⟩ | ⟨addr, len, fits, before, after, -⟩
  · rw [Request.Inside, none]
    exact ⟨nofun, rfl⟩
  · have inside := within_iff.mp fits
    rw [Request.Inside, before, after, toNat_translated part fits]
    refine ⟨fun a n same => ?_, rfl⟩
    cases same
    exact ⟨Nat.zero_le _, inside⟩

theorem moved_inside (lo : Nat) {size far : Nat} (inside : r.Inside lo (lo + size))
    (same : r'.span = r.span.map fun (addr, len) => (far + addr, len)) : r'.Inside
    (far + lo) (far + lo + size) := by
  intro addr len found
  rw [same, Option.map_eq_some_iff] at found
  obtain ⟨⟨a, n⟩, before, same⟩ := found
  cases same
  have bounds := inside a len before
  omega

theorem arrives_inside (built : Built d) : d.base + d.diskSize.toNat ≤ d.bottom.diskSize.toNat ∧
    ∀ {lo size : Nat} {r r' : Request}, r.Inside lo (lo + size) → arrives d r = some r' →
      r'.Inside (d.base + lo) (d.base + lo + size) := by
  induction built with
  | disk size readOnly ops =>
    refine ⟨Nat.zero_add _ ▸ Nat.le_refl _, fun inside same => ?_⟩
    cases same
    simpa [Device.base] using inside
  | view built made ih =>
    obtain ⟨rfl, part⟩ := part_of_made made
    refine ⟨?_, fun {lo size r r'} inside next => ?_⟩
    · have below := ih.1
      exact Nat.le_trans (by rw [Device.base, Device.diskSize]; omega) below
    · rw [arrives] at next
      split at next
      · next forwarded found =>
        have moved := moved_inside lo inside (span_forwarded part found).2
        have arrived := ih.2 moved next
        rwa [← Nat.add_assoc] at arrived
      · cases next

def Slips (parent : Device) (size : UInt64) (readOnly : Bool) (r : Request) : Prop :=
  readOnly = true ∧ parent.ops.ioctl = true ∧
    ∃ cmd addr len, r = .ioctl cmd (some (addr, len)) ∧ r.changes = true ∧
    within size addr len = true

theorem refused_of_outside (outside : ¬r.Inside 0 size.toNat) :
    ∃ e, partRequest parent start size readOnly r = .error e := by
  have unfit {addr : UInt64} {len : UInt32} (span : r.span = some (addr.toNat, len.toNat)) :
      within size addr len = false := by
    rw [← Bool.not_eq_true, within_iff]
    refine fun fits => outside fun a n same => ?_
    cases span.symm.trans same
    exact ⟨Nat.zero_le _, fits⟩
  cases r with
  | read dst dstSize src len | write src dst len | erase addr len =>
    exact ⟨.invalidArg, by simp [partRequest, unfit rfl]⟩
  | sync => exact absurd (fun _ _ => nofun) outside
  | ioctl cmd args =>
    dsimp only [partRequest]
    split
    · exact ⟨_, rfl⟩
    · cases cmd with
      | other cmd => exact absurd (fun _ _ => nofun) outside
      | markDeleted | eraseContents =>
        cases args with
        | none => exact ⟨_, rfl⟩
        | some args => exact ⟨_, by simp only [unfit rfl]; rfl⟩

/-- A view is a part of its parent, what reaches the parent lies in that part, what does not fit is
refused, and a read-only view hands on nothing that writes or erases: except for an erase command of
`ioctl`. -/
theorem view_contained_iff (built : Built (.view parent start size readOnly)) (r : Request) :
    Contained parent start size readOnly r ↔ ¬Slips parent size readOnly r := by
  have ⟨inDisk, arrived⟩ := arrives_inside built
  obtain ⟨below, part⟩ : Built parent ∧ start.toNat + size.toNat ≤ parent.diskSize.toNat := by
    cases built with
    | view built made =>
      obtain ⟨same, part⟩ := part_of_made made
      cases same
      exact ⟨built, part⟩
  constructor
  · rintro contained ⟨locked, ioctl, cmd, addr, len, rfl, changes, fits⟩
    have passed : partRequest parent start size readOnly (.ioctl cmd (some (addr, len))) =
        .ok (some (.ioctl cmd (some (start + addr, len)))) := by
      cases cmd <;> simp_all [partRequest, Request.changes]
    have kept := contained.unwritten locked _ passed
    cases cmd <;> cases changes <;> cases kept
  · intro none
    refine ⟨part, fun r' next => ?_, refused_of_outside, fun r' next => ?_,
      fun locked r' next => ?_⟩
    · obtain ⟨inside, same⟩ := span_forwarded part next
      exact ⟨moved_inside 0 (by rwa [Nat.zero_add]) same, same⟩
    · have inside : r.Inside 0 (0 + size.toNat) := by
        rw [Nat.zero_add]
        by_contra outside
        obtain ⟨e, failed⟩ := refused_of_outside outside
        rw [arrives, failed] at next
        cases next
      exact ⟨arrived inside next, inDisk⟩
    · rcases forwarded_cases next with ⟨rfl, -, still⟩ | ⟨addr, len, fits, span, -, same, only⟩
      · exact still
      · rw [same, ← Bool.not_eq_true]
        intro changes
        obtain ⟨offered, cmd, rfl⟩ := only locked changes
        exact none ⟨locked, offered, cmd, addr, len, rfl, changes, fits⟩

theorem view_contained_nested : ∃ inner, partitionView true
    (some (.disk 4096 false ⟨true, true, true, true⟩)) 1024 2048 false = .ok inner ∧
    arrives (.view inner 512 1024 false) (.write true 1000 24) = some (.write true 2536 24) ∧
    Contained inner 512 1024 false (.write true 1000 24) := by
  refine ⟨_, rfl, rfl, (view_contained_iff ?_ _).mpr fun slips => nomatch slips.1⟩
  have inner : Built (.view (.disk 4096 false ⟨true, true, true, true⟩) 1024 2048 false) :=
    .view (.disk 4096 false ⟨true, true, true, true⟩)
    (show partitionView true _ 1024 2048 false = _ from rfl)
  exact .view inner (show partitionView true _ 512 1024 false = _ from rfl)

/-- A read-only view of a disk hands on an erase command. -/
theorem readOnly_view_erases : ∃ d,
    partitionView true (some (.disk 4096 false ⟨true, true, true, true⟩)) 1024 2048 true = .ok d ∧
    d.readOnly = true ∧ arrives d (.ioctl .eraseContents (some (0, 2048))) = some
    (.ioctl .eraseContents (some (1024, 2048))) :=
  ⟨_, rfl, rfl, rfl⟩

end Views

end Espix.Fs.Partition
