import Espix.Ssh.Sftp

/-! What an open of the SFTP server does to the file.

`do_open` of `components/espix_ssh/sftp.c`. What `fopen` and `access` do is for the C library and
for ESP-IDF to say; the table of `components/espix_fs/vfs.c` has no `access_p`. -/

namespace Espix.Ssh.Sftp

open Function
open Lib.Xdr (Bytes)

def fxfRead : Nat := 0

def Mode.reads : Mode → Bool
  | .rb | .updateb => true
  | _ => false

def Mode.writes : Mode → Bool
  | .rb => false
  | _ => true

/-- What `fopen` makes of a file, or of a path where there is none; nothing where it fails. -/
def Mode.opened : Mode → Option Bytes → Option Bytes
  | .rb, file | .updateb, file => file
  | .ab, file => some (file.getD [])
  | .wb, _ => some []

/-- The host's files are those of the C standard, and ESP-IDF has no `access` where the table of a
file system has none. Whether a file may be opened is for the host to say. -/
structure Stdio (host : Host) where
  file : host.State → Bytes → Option Bytes
  may : host.State → Bytes → Mode → Bool
  access_fails : ∀ p s, host.access p s = (false, s)
  refuses : ∀ p m s, may s p m = false ∨ m.opened (file s p) = none →
    ∃ err s', host.fopen p m s = (.error err, s') ∧ file s' p = file s p
  opens : ∀ p m s after, may s p m = true → m.opened (file s p) = some after →
    ∃ f s', host.fopen p m s = (.ok f, s') ∧ file s' p = some after
  reads : ∀ p m s f s', host.fopen p m s = (.ok f, s') →
    (m.reads = true ↔ ∃ n t, (host.fread f n t).1.2 = false)
  writes : ∀ p m s f s', host.fopen p m s = (.ok f, s') →
    ∀ x t, (host.fputc f x t).1 = true → m.writes = true

variable {host : Host}

/-- An open of a path, as version 3 of the protocol has it: the file before and after it, and the
handle if there is one. -/
structure AsDefined (flags : Nat) (before after : Option Bytes) (handle : Option (Handle host)) :
    Prop where
  kept : ∀ file, before = some file → flags.testBit fxfTrunc = false → after = some file
  exclusive : ∀ file, before = some file → flags.testBit fxfCreat = true →
    flags.testBit fxfExcl = true → handle = none ∧ after = some file
  missing : before = none → flags.testBit fxfCreat = false → after = none
  writes : ∀ h f, handle = some h → h.file = some f → ∀ x s, (host.fputc f x s).1 = true →
    flags.testBit fxfWrite = true ∨ flags.testBit fxfAppend = true
  reads : ∀ h f, handle = some h → h.file = some f → ∀ n s, (host.fread f n s).1.2 = false →
    flags.testBit fxfRead = true

/-- The flags ask for no more than the mode they are turned into does. -/
def Fair (flags : Nat) : Option Bytes → Prop
  | some file => ¬(flags.testBit fxfCreat = true ∧ flags.testBit fxfExcl = true) ∧
      ((openMode flags).reads = true → flags.testBit fxfRead = true) ∧
      (openMode flags = .wb → flags.testBit fxfTrunc = true ∨ file = [])
  | none => flags.testBit fxfCreat = true

theorem writes_openMode {flags : Nat} (writes : (openMode flags).writes = true) :
    flags.testBit fxfWrite = true := by
  by_contra never
  rw [openMode, if_neg never] at writes
  cases writes

section Stream

variable {flags : Nat} {before : Option Bytes} {h : Handle host} {f : host.File}
  (stream : h.file = some f) (made : (openMode flags).opened before ≠ none)

include stream made

theorem AsDefined.fair
    (defined : AsDefined flags before ((openMode flags).opened before) (some h))
    (reads : (openMode flags).reads = true → ∃ n t, (host.fread f n t).1.2 = false) :
    Fair flags before := by
  cases before with
  | some old =>
    refine ⟨fun both => ?_, fun reading => ?_, fun emptied => ?_⟩
    · cases (defined.exclusive old rfl both.1 both.2).1
    · obtain ⟨n, t, read⟩ := reads reading
      exact defined.reads h f rfl stream n t read
    · by_contra not
      rw [not_or, Bool.not_eq_true] at not
      have kept := defined.kept old rfl not.1
      rw [emptied, Mode.opened] at kept
      exact not.2 (Option.some.inj kept).symm
  | none =>
    by_contra never
    exact made (defined.missing rfl (Bool.not_eq_true _ ▸ never))

theorem Fair.asDefined (fair : Fair flags before)
    (reads : ∀ n t, (host.fread f n t).1.2 = false → (openMode flags).reads = true)
    (writes : ∀ x t, (host.fputc f x t).1 = true → (openMode flags).writes = true) :
    AsDefined flags before ((openMode flags).opened before) (some h) := by
  refine ⟨?_, ?_, ?_, ?_, ?_⟩
  · rintro old rfl untouched
    cases mode : openMode flags with
    | wb =>
      rcases fair.2.2 mode with trunc | rfl
      · cases untouched.symm.trans trunc
      · rfl
    | rb | ab | updateb => rfl
  · rintro old rfl creat excl
    exact absurd ⟨creat, excl⟩ fair.1
  · rintro rfl creat
    cases creat.symm.trans fair
  · rintro _ f' ⟨⟩ same x t written
    cases stream.symm.trans same
    exact .inl (writes_openMode (writes x t written))
  · rintro _ f' ⟨⟩ same n t read
    cases stream.symm.trans same
    have reading := reads n t read
    cases before with
    | some old => exact fair.2.1 reading
    | none =>
      cases mode : openMode flags <;> rw [mode] at made reading
      case wb | ab => cases reading
      all_goals exact absurd rfl made

end Stream

def handed (reply : Reply) (core : Core host) : Option (Handle host) :=
  match reply with
  | .handle _ index => core.handles index
  | _ => none

/-- There is a handle left, and the host opens the file in the mode of the flags. -/
def Opens (stdio : Stdio host) (core : Core host) (path : Bytes) (flags : Nat) : Prop :=
  (∃ i < sftpHandles, core.handles i = none) ∧ stdio.may core.sys path (openMode flags) = true ∧
    (openMode flags).opened (stdio.file core.sys path) ≠ none

theorem handleAlloc_isSome (core : Core host) :
    (handleAlloc core).isSome = true ↔ ∃ i < sftpHandles, core.handles i = none := by
  simp [handleAlloc, List.find?_isSome]

section

variable (stdio : Stdio host) (id : Nat) {b b' : In} {given path : Bytes}
  (taken : takePath b = (some given, b')) (resolved : Sftp.resolve host given = some path)
  (core : Core host)

include taken resolved

theorem doOpen_cases :
    (¬Opens stdio core path (getU32 b').1 ∧
        stdio.file (doOpen id b core).2.sys path = stdio.file core.sys path ∧
        handed (doOpen id b core).1 (doOpen id b core).2 = none) ∨
      Opens stdio core path (getU32 b').1 ∧ ∃ f s',
        host.fopen path (openMode (getU32 b').1) core.sys = (.ok f, s') ∧
        (openMode (getU32 b').1).opened (stdio.file core.sys path) =
          stdio.file (doOpen id b core).2.sys path ∧
        handed (doOpen id b core).1 (doOpen id b core).2 = some ⟨false, some f, none, path⟩ := by
  unfold doOpen Opens
  rw [taken, ← handleAlloc_isSome]
  simp only [bind, StateT.bind, get, getThe, MonadStateOf.get, StateT.get, pure, resolved]
  cases handleAlloc core with
  | none => exact .inl ⟨by simp, rfl, rfl⟩
  | some index =>
    have probe := stdio.access_fails path core.sys
    have unasked : (StateT.pure false core : Id (Bool × Core host)) = (false, core) := rfl
    by_cases may : stdio.may core.sys path (openMode (getU32 b').1) = true ∧
        (openMode (getU32 b').1).opened (stdio.file core.sys path) ≠ none
    · obtain ⟨after, made⟩ := Option.ne_none_iff_exists'.mp may.2
      obtain ⟨f, s', opened, now⟩ := stdio.opens _ _ _ _ may.1 made
      refine .inr ⟨⟨rfl, may⟩, f, s', opened, ?_⟩
      rw [made]
      split <;> simp [bind, StateT.bind, onHost, probe, unasked, opened] <;>
        exact ⟨now.symm, update_self ..⟩
    · have refused : stdio.may core.sys path (openMode (getU32 b').1) = false ∨
          (openMode (getU32 b').1).opened (stdio.file core.sys path) = none := by
        rwa [not_and_or, Bool.not_eq_true, not_not] at may
      obtain ⟨err, s', failed, same⟩ := stdio.refuses _ _ _ refused
      refine .inl ⟨fun opens => may opens.2, ?_⟩
      split <;> simp [bind, StateT.bind, onHost, probe, unasked, failed] <;> exact ⟨same, rfl⟩

end

def memory : Host where
  State := Bytes → Option Bytes
  File := Bytes × Mode
  Dir := Empty
  resolve := some
  strerror _ := ""
  stat p s := (match s p with
    | some file => .ok ⟨file.length, false, 0o644, 0⟩
    | none => .error 2, s)
  access _ s := (false, s)
  fopen p m s :=
    match m.opened (s p) with
    | none => (.error 2, s)
    | some file => (.ok (p, m), Function.update s p (some file))
  opendir _ s := (.error 20, s)
  readdir _ dir := nomatch dir
  fseek _ _ s := (true, s)
  fread f n s := ((if f.2.reads then ((s f.1).getD []).take n else [], !f.2.reads), s)
  fputc f x s :=
    if f.2.writes then (true, Function.update s f.1 (some ((s f.1).getD [] ++ [x]))) else (false, s)
  fclose _ s := (0, s)
  closedir dir := nomatch dir
  chmod _ _ s := (.ok, s)
  unlink p s := (0, Function.update s p none)
  mkdir _ s := (1, s)
  rmdir _ s := (1, s)
  rename _ _ s := (1, s)
  send s := (true, s)

theorem memory_file {p : Bytes} {m : Mode} {s s' : memory.State} {f : memory.File}
    (opened : memory.fopen p m s = (.ok f, s')) : f = (p, m) := by
  dsimp only [memory] at opened
  split at opened <;> cases opened
  rfl

def memoryStdio : Stdio memory where
  file s := s
  may _ _ _ := true
  access_fails _ _ := rfl
  refuses p m s refused := by
    have none_made : m.opened (s p) = none := refused.resolve_left (by simp)
    exact ⟨2, s, by simp [memory, none_made], rfl⟩
  opens p m s after _ made := by
    have some_made : m.opened (s p) = some after := made
    exact ⟨(p, m), update s p (some after), by simp only [memory, some_made], update_self ..⟩
  reads p m s f s' opened := by
    obtain rfl := memory_file opened
    exact ⟨fun reads => ⟨0, s, by simp [memory, reads]⟩, fun ⟨n, t, read⟩ => by
      simpa [memory] using read⟩
  writes p m s f s' opened x t written := by
    obtain rfl := memory_file opened
    by_contra refused
    simp [memory, refused] at written

def oneByte : Core memory := ⟨fun p => if p = [97] then some [7] else none, fun _ => none⟩

def openOne (flags : UInt8) : In := readFrom [0, 0, 0, 1, 97, 0, 0, 0, flags]

end Espix.Ssh.Sftp
