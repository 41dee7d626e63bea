import Espix.Proc.Tasks

/-! What the permission check asks of an `open`.

The check turns the flag word into one wanted bit of the owner's triad. Here the bits the
flags ask for are compared with the bits the check looks at. -/

namespace Espix.Fs.OpenMode

open Access Proc.Tasks

def asksRead (flags : OpenFlags) : Bool := !flags.wronly

def asksWrite (flags : OpenFlags) : Bool :=
  flags.wronly || flags.rdwr || flags.append || flags.trunc

theorem asks_something (flags : OpenFlags) : asksRead flags ∨ asksWrite flags := by
  cases only : flags.wronly <;> simp [asksRead, asksWrite, only]

def triad (attr : Attr) (who : Cred) : Nat :=
  if who.uid = attr.uid then attr.mode >>> 6
  else if attr.gid = who.gid ∨ attr.gid ∈ who.groups then attr.mode >>> 3
  else attr.mode

def mayRead (attr : Attr) (who : Cred) : Bool := (triad attr who).testBit 2
def mayWrite (attr : Attr) (who : Cred) : Bool := (triad attr who).testBit 1
def maySearch (attr : Attr) (who : Cred) : Bool := (triad attr who).testBit 0

def dirName (path : Path) : Path :=
  let parent := (path.reverse.dropWhile (· != '/')).tail.reverse
  if parent = [] then ['/'] else parent

/-- A bit the flags ask for is missing, or the directory of a name to be created
lacks write or search. -/
def Lacking (view : View) (who : Cred) (path : Path) (flags : OpenFlags) : Prop :=
  match view path with
  | some attr =>
    (asksRead flags ∧ mayRead attr who = false) ∨ (asksWrite flags ∧ mayWrite attr who = false)
  | none =>
    flags.creat ∧ ∃ dir, view (dirName path) = some dir ∧
      ¬(mayWrite dir who ∧ maySearch dir who)

section Bits

theorem covers_iff (mode want : Nat) :
    (mode &&& want == want) = true ↔ ∀ i, want.testBit i → mode.testBit i := by
  rw [beq_iff_eq]
  constructor
  · intro same i set
    rw [← same, Nat.testBit_and, Bool.and_eq_true] at set
    exact set.1
  · intro all
    apply Nat.eq_of_testBit_eq
    intro i
    rw [Nat.testBit_and]
    cases set : want.testBit i
    · simp
    · simp [all i set]

theorem covers_bit (mode bit : Nat) : (mode &&& 2 ^ bit == 2 ^ bit) = mode.testBit bit := by
  rw [Bool.eq_iff_iff, covers_iff]
  simp [Nat.testBit_two_pow]

theorem covers_or (mode a b : Nat) :
    (mode &&& (a ||| b) == a ||| b) = ((mode &&& a == a) && (mode &&& b == b)) := by
  rw [Bool.eq_iff_iff, Bool.and_eq_true, covers_iff, covers_iff, covers_iff]
  simp only [Nat.testBit_or, Bool.or_eq_true]
  constructor
  · intro all
    exact ⟨fun i set => all i (.inl set), fun i set => all i (.inr set)⟩
  · intro each i set
    exact set.elim (each.1 i) (each.2 i)

end Bits

section Triad

variable (attr : Attr) (who : Cred)

theorem permitted_bit (bit : Nat) :
    permitted attr who (2 ^ (bit + 6)) = (triad attr who).testBit bit := by
  have shifted (n k : Nat) : 2 ^ (n + k) >>> k = 2 ^ n := by
    rw [Nat.shiftRight_eq_div_pow, Nat.pow_add]
    exact Nat.mul_div_cancel _ (by positivity)
  have group : holdsGroup who attr.gid = true ↔ attr.gid = who.gid ∨ attr.gid ∈ who.groups := by
    rw [holdsGroup, Bool.or_eq_true, beq_iff_eq, List.contains_iff_mem, eq_comm]
  unfold permitted triad
  by_cases owner : who.uid = attr.uid
  · rw [if_pos owner, if_pos owner, Nat.testBit_shiftRight, Nat.add_comm]
    exact covers_bit _ _
  · by_cases member : attr.gid = who.gid ∨ attr.gid ∈ who.groups
    · rw [if_neg owner, if_neg owner, if_pos (group.mpr member), if_pos member,
        Nat.testBit_shiftRight, show bit + 6 = bit + 3 + 3 from rfl, Nat.add_comm 3]
      simp only [shifted, covers_bit]
    · rw [if_neg owner, if_neg owner, if_neg (member ∘ group.mp), if_neg member]
      simp only [shifted, covers_bit]

theorem permitted_read : permitted attr who iRUSR = mayRead attr who := permitted_bit attr who 2

theorem permitted_write : permitted attr who iWUSR = mayWrite attr who := permitted_bit attr who 1

theorem permitted_enter :
    permitted attr who (iWUSR ||| iXUSR) = (mayWrite attr who && maySearch attr who) := by
  have split : permitted attr who (iWUSR ||| iXUSR) =
      (permitted attr who iWUSR && permitted attr who iXUSR) := by
    unfold permitted
    simp only [Nat.shiftRight_or_distrib, covers_or]
  rw [split, permitted_write]
  congr 1
  exact permitted_bit attr who 0

end Triad

theorem parentOf_eq_dirName {path : Path} (short : path.length < pathMax) :
    parentOf path = dirName path := by
  have whole : path.take (pathMax - 1) = path := List.take_of_length_le (by omega)
  simp only [parentOf, dirName, whole]

section Check

variable (cfg : Config) (s : State) (view : View) (t : TaskId) {path : Path} (flags : OpenFlags)
variable {who : Cred}

theorem fsAccessCheck_eq (unprivileged : privileged s t = false)
    (subject_is : subject cfg s t = some who) (path : Path) (op : Op) :
    fsAccessCheck cfg s view t path op flags = accessCheck view who path op flags := by
  simp [fsAccessCheck, unprivileged, subject_is]

theorem accessCheck_open_present {attr : Attr} (present : view path = some attr)
    (user : who.uid ≠ 0) :
    accessCheck view who path .open flags =
      if (if asksWrite flags then mayWrite attr who else mayRead attr who) then none
      else some .eacces := by
  have wanted : may view path who (if asksWrite flags then iWUSR else iRUSR) =
      if asksWrite flags then mayWrite attr who else mayRead attr who := by
    rw [may, present]
    cases asksWrite flags
    · exact permitted_read attr who
    · exact permitted_write attr who
  rw [← wanted]
  simp [accessCheck, user, present, asksWrite]

theorem accessCheck_open_absent (absent : view path = none) (short : path.length < pathMax)
    (user : who.uid ≠ 0) :
    accessCheck view who path .open flags = some .eacces ↔ Lacking view who path flags := by
  have parent : may view (parentOf path) who (iWUSR ||| iXUSR) = false ↔
      ∃ dir, view (dirName path) = some dir ∧ ¬(mayWrite dir who ∧ maySearch dir who) := by
    rw [parentOf_eq_dirName short, may]
    cases view (dirName path) with
    | none => simp
    | some dir => simp [permitted_enter, ← Bool.and_eq_true]
  have itself (want : Nat) : may view path who want = true := by rw [may, absent]
  simp only [Lacking, absent, ← parent]
  cases creates : flags.creat <;> simp [accessCheck, user, absent, itself, creates]

/-- The check is exact but for one case: the flags ask for both reading and writing, and
the subject's triad has the write bit alone. -/
theorem open_check_exact_iff (unprivileged : privileged s t = false)
    (subject_is : subject cfg s t = some who) (user : who.uid ≠ 0)
    (short : path.length < pathMax) :
    ((fsAccessCheck cfg s view t path .open flags = none → ∀ attr, view path = some attr →
          (asksRead flags → mayRead attr who) ∧ (asksWrite flags → mayWrite attr who)) ∧
        (fsAccessCheck cfg s view t path .open flags = some .eacces ↔
          Lacking view who path flags)) ↔
      ¬(asksRead flags ∧ asksWrite flags ∧
        ∃ attr, view path = some attr ∧ mayWrite attr who ∧ mayRead attr who = false) := by
  rw [fsAccessCheck_eq cfg s view t flags unprivileged subject_is]
  cases found : view path with
  | none => simp [accessCheck_open_absent view flags found short user]
  | some attr =>
    rw [accessCheck_open_present view flags found user]
    simp only [Lacking, found, Option.some.injEq, forall_eq', exists_eq_left']
    have asked := asks_something flags
    generalize asksRead flags = reading, asksWrite flags = writing, mayRead attr who = r,
      mayWrite attr who = w at asked ⊢
    revert reading writing r w
    decide

end Check

def userTask : State :=
  { boot fun _ => noCred with
    slots := fun i =>
      if i = 0 then some { newSlot .app 1 ⟨1000, 1000, []⟩ none [] with rootActive := true }
      else none }

def readWrite : OpenFlags := ⟨false, true, false, false, false⟩

/-- The owner of a file of mode 0200 may not read it, and opens it for reading and
writing. -/
theorem rdwr_opens_write_only_file :
    fsAccessCheck ⟨1, 1⟩ userTask (fun _ => some ⟨0o200, 1000, 1000⟩) 1 "/home/u/log".toList .open
        readWrite = none ∧
      asksRead readWrite = true ∧ mayRead ⟨0o200, 1000, 1000⟩ ⟨1000, 1000, []⟩ = false := by
  decide

/-- The general statement at a file the owner may both read and write. -/
theorem rdwr_of_readable_file_exact :
    fsAccessCheck ⟨1, 1⟩ userTask (fun _ => some ⟨0o600, 1000, 1000⟩) 1 "/home/u/log".toList .open
          readWrite = some .eacces ↔
      Lacking (fun _ => some ⟨0o600, 1000, 1000⟩)
      ⟨1000, 1000, []⟩ "/home/u/log".toList readWrite := by
  have subject_is : subject ⟨1, 1⟩ userTask 1 = some ⟨1000, 1000, []⟩ := by decide
  apply ((open_check_exact_iff ⟨1, 1⟩ userTask (fun _ => some ⟨0o600, 1000, 1000⟩) 1 readWrite
    (by decide) subject_is (by decide) (by decide)).mpr _).2
  intro ⟨_, _, attr, found, _, unreadable⟩
  cases found
  exact absurd unreadable (by decide)

end Espix.Fs.OpenMode
