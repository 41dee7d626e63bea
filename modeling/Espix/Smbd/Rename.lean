import Espix.Smbd.Confine

/-! What a rename does to the file behind a handle.

The handler closes the file, renames it and opens it again with the flags it was created
with. The file system is taken to do what its manual says; the flags are what decides
whether the file and the handle are the same afterwards. -/

namespace Espix.Smbd.Rename

open Lib.CText Lib.PathText Server Handlers Confine

/-- What there is to see of a file system: the file a path names, what the files hold, and
the file and the access of an open descriptor. -/
structure FileView (S : Type) where
  look : S → Path → Option Nat
  isDirectory : S → Nat → Bool
  data : S → Nat → List UInt8
  entries : S → Nat → List (List Char)
  handle : S → Nat → Option (Nat × Bool)

section View

variable {S : Type} (view : FileView S)

def FileView.Same (s t : S) : Prop :=
  view.look t = view.look s ∧ view.isDirectory t = view.isDirectory s ∧ view.data t = view.data s ∧
    view.entries t = view.entries s

def FileView.Named (s : S) (file : Nat) (path : Path) : Prop :=
  ∀ other, view.look s other = some file ↔ normalise other = normalise path

def FileView.Unchanged (s t : S) (file : Nat) : Prop :=
  view.isDirectory t file = view.isDirectory s file ∧ view.data t file = view.data s file ∧
    view.entries t file = view.entries s file

end View

/-- A file system whose calls do what their manual says. What `O_TRUNC` does without
write access is left open there. -/
structure PosixFs (S : Type) extends Vfs S, FileView S where
  close_same : ∀ s fd, toFileView.Same s (close s fd)
  rename_failed : ∀ s old new s' e, rename s old new = (s', some e) → toFileView.Same s s'
  rename_done : ∀ s old new s' file, rename s old new = (s', none) → toFileView.Named s file old →
    normalise new ≠ normalise old → toFileView.Named s' file new ∧ toFileView.Unchanged s s' file
  open_existing : ∀ s path flags file, look s path = some file → isDirectory s file = false →
    (flags.creat && flags.excl) = false → ∃ s' fd, openFile s path flags = (s', .ok fd) ∧
      handle s' fd = some (file, flags.rdwr) ∧ look s' = look s ∧ isDirectory s' = isDirectory s ∧
      (flags.trunc = false → data s' file = data s file) ∧
      (flags.trunc = true → flags.rdwr = true → data s' file = [])
  open_exclusive : ∀ s path flags file, look s path = some file →
    (flags.creat && flags.excl) = true →
    openFile s path flags = (s, .error .exist)
  opendir_existing : ∀ s path file, look s path = some file → isDirectory s file = true →
    ∃ s', opendir s path = (s', .ok (entries s file)) ∧ toFileView.Same s s'
  pread_handle : ∀ s fd length offset file writes, handle s fd = some (file, writes) →
    (pread s fd length offset).2 = .ok (((data s file).drop offset).take length)
  pwrite_handle : ∀ s fd bytes offset file, handle s fd = some (file, true) →
    (pwrite s fd bytes offset).2 = .ok bytes.length

def Refers {S : Type} (fs : PosixFs S) (s : S) (o : Slot) (file : Nat) (writes : Bool) : Prop :=
  o.pipe = none ∧
    if fs.isDirectory s file then o.isDir = true ∧ ∃ d, o.dir = some d ∧ d.all = fs.entries s file
    else o.isDir = false ∧ o.dir = none ∧ ∃ fd, o.fd = some fd ∧
      fs.handle s fd = some (file, writes)

/-- Reads and writes through the descriptor of a file go through. -/
def Serves {S : Type} (fs : PosixFs S) (s : S) (o : Slot) (file : Nat) (writes : Bool) : Prop :=
  ∀ fd, o.fd = some fd → fs.isDirectory s file = false →
    (∀ length offset, (fs.pread s fd length offset).2 =
        .ok (((fs.data s file).drop offset).take length)) ∧
      (writes = true → ∀ bytes offset, (fs.pwrite s fd bytes offset).2 = .ok bytes.length)

section Handles

variable {S : Type} {fs : PosixFs S} {w : World S} {id : FileId} {i file : Nat}
    {o o' : Slot} {writes : Bool}

theorem refers_file_iff {s : S} (is_file : fs.isDirectory s file = false) :
    Refers fs s o file writes ↔ o.pipe = none ∧ o.isDir = false ∧ o.dir = none ∧
      ∃ fd, o.fd = some fd ∧ fs.handle s fd = some (file, writes) := by
  rw [Refers, is_file, if_neg Bool.false_ne_true]

theorem Refers.serves {s : S} (refers : Refers fs s o file writes) : Serves fs s o file writes := by
  intro fd opened is_file
  obtain ⟨-, -, -, fd', opened', handle⟩ := (refers_file_iff is_file).mp refers
  rw [opened] at opened'
  cases opened'
  refine ⟨fun length offset => fs.pread_handle _ _ _ _ _ _ handle, ?_⟩
  rintro rfl bytes offset
  exact fs.pwrite_handle _ _ _ _ _ handle

theorem update_update (c : Conn) (i : Nat) (a b : Slot) :
    (c.update i fun _ => a).update i (fun _ => b) = c.update i fun _ => b := by
  simp only [Conn.update, List.modify_modify_eq]
  rfl

theorem openFind_update {c : Conn}
    (used : o'.used = (c.slot i).used) (number : o'.id = (c.slot i).id)
    (key : UInt64) : openFind (c.update i fun _ => o') key = openFind c key := by
  have asked : ∀ opens : List Slot, opens.findIdx? (fun o => o.used && o.id = key) =
      (opens.map fun o => o.used && decide (o.id = key)).findIdx? id := by
    intro opens
    rw [List.findIdx?_map]
    rfl
  rw [openFind, openFind, asked, asked]
  congr 1
  apply List.ext_getElem?
  intro j
  simp only [Conn.update, List.getElem?_map, List.getElem?_modify, Option.map_eq_map,
    Option.map_map]
  cases here : c.opens[j]? with
  | none => rfl
  | some slot =>
    simp only [Option.map_some, Function.comp, Option.some.injEq]
    split
    · rename_i same
      subst same
      have current : c.slot i = slot := by simp [Conn.slot, List.getD_eq_getElem?_getD, here]
      rw [used, number, current]
    · rfl

theorem findOpen_update {c : Conn} (found : findOpen c id = some (i, o)) (used : o'.used = o.used)
    (number : o'.id = o.id) : findOpen (c.update i fun _ => o') id = some (i, o') := by
  obtain ⟨j, place, same⟩ := Option.map_eq_some_iff.mp found
  cases same
  have kept := openFind_update used number
  have bound : i < c.opens.length := by
    by_contra outside
    have used_slot := (findOpen_used found).2
    rw [Conn.slot, List.getD_eq_getElem?_getD, List.getElem?_eq_none (by omega)] at used_slot
    cases used_slot
  have slot : (c.update i fun _ => o').slot i = o' := by
    simp [Conn.slot, Conn.update, List.getD_eq_getElem?_getD, bound]
  have same_place : openFindAny (c.update i fun _ => o') id = openFindAny c id := by
    rw [openFindAny, openFindAny, kept]
    split
    · rfl
    · split
      · exact kept _
      · rfl
  rw [findOpen, same_place, place, Option.map_some, slot]

end Handles

section Rename

variable {S : Type} {fs : PosixFs S} {w : World S} {i file : Nat} {was o : Slot} {newpath : Path}

theorem FileView.Same.named {view : FileView S} {s t : S} {path : Path} (same : view.Same s t)
    (named : view.Named s file path) : view.Named t file path := by
  intro other
  rw [same.1]
  exact named other

theorem FileView.Same.unchanged {view : FileView S} {s t : S} (same : view.Same s t) :
    view.Unchanged s t file := by
  refine ⟨?_, ?_, ?_⟩
  · rw [same.2.1]
  · rw [same.2.2.1]
  · rw [same.2.2.2]

theorem FileView.Unchanged.trans {view : FileView S} {s t u : S} (first : view.Unchanged s t file)
    (second : view.Unchanged t u file) : view.Unchanged s u file :=
  ⟨second.1.trans first.1, second.2.1.trans first.2.1, second.2.2.trans first.2.2⟩

theorem closeForRename_run : ∃ s, fs.Same w.fs s ∧
    (closeForRename fs.toVfs was).run w = pure ((), { w with fs := s }) := by
  have same : fs.Same w.fs w.fs := ⟨rfl, rfl, rfl, rfl⟩
  rw [closeForRename]
  split
  · exact ⟨w.fs, same, rfl⟩
  · rw [closeDescriptor]
    split
    · rename_i fd opened
      exact ⟨_, fs.close_same w.fs fd, rfl⟩
    · exact ⟨w.fs, same, rfl⟩

def released (was : Slot) (path : Path) : Slot :=
  { was with fd := none, dir := none, isDir := false, path := path }

/-- Up to the reopening: the handle is let go, and the file is as it was but for its name. -/
structure Moved (fs : PosixFs S) (w w₂ : World S) (i file : Nat) (was : Slot)
    (path : Path) : Prop where
  conn : w₂.conn = w.conn.update i fun _ => released was path
  named : fs.Named w₂.fs file path
  unchanged : fs.Unchanged w.fs w₂.fs file

theorem renameOpen_reopens (named : fs.Named w.fs file was.path)
    (moves : normalise newpath ≠ normalise was.path) :
    ∃ reply path w₂, (renameOpen fs.toVfs i was newpath).run w =
        pure (reply, ((reopen fs.toVfs i was (released was path)).run w₂).2) ∧
      path = (if reply = .done then newpath else was.path) ∧ Moved fs w w₂ i file was path := by
  obtain ⟨s₁, same, closed⟩ := @closeForRename_run S fs
    { w with conn := w.conn.update i fun _ => released was was.path } was
  have shut : (renameOpen fs.toVfs i was newpath).run w =
      (moveClosed fs.toVfs i was (released was was.path) newpath).run
        { w with fs := s₁, conn := w.conn.update i fun _ => released was was.path } := by
    simp only [renameOpen, StateT.run_bind, modifySlot_run, pure_bind]
    exact congrArg (· >>= fun p =>
      (moveClosed fs.toVfs i was (released was was.path) newpath).run p.2) closed
  rw [shut]
  have path : (released was was.path).path = was.path := rfl
  cases renamed : fs.rename s₁ was.path newpath with
  | mk s₂ answer =>
    cases answer with
    | some e =>
      have same₂ := fs.rename_failed _ _ _ _ _ renamed
      refine ⟨.fail (statusOfErrno e), was.path,
        { fs := s₂, conn := w.conn.update i fun _ => released was was.path
          calls := w.calls ++ [.rename was.path newpath] }, ?_, rfl, rfl,
        same₂.named (same.named named), same.unchanged.trans same₂.unchanged⟩
      simp only [moveClosed, StateT.run_bind, rename, call_run, pure_bind, path, renamed]
      rfl
    | none =>
      obtain ⟨named₂, unchanged⟩ := fs.rename_done _ _ _ _ _ renamed (same.named named) moves
      refine ⟨.done, newpath,
        { fs := s₂, conn := w.conn.update i fun _ => released was newpath
          calls := w.calls ++ [.rename was.path newpath] }, ?_, rfl, rfl, named₂,
        same.unchanged.trans unchanged⟩
      simp only [moveClosed, StateT.run_bind, rename, call_run, pure_bind, path, renamed,
        modifySlot_run,
        update_update]
      rfl

theorem reopen_directory {o : Slot} (is_dir : was.isDir = true)
    (found : fs.look w.fs o.path = some file)
    (directory : fs.isDirectory w.fs file = true) :
    ∃ s calls, ((reopen fs.toVfs i was o).run w).2 =
        { fs := s, calls := calls
          conn := w.conn.update i fun _ =>
            { o with dir := some ⟨fs.entries w.fs file, fs.entries w.fs file⟩, isDir := true } } ∧
      fs.Same w.fs s := by
  obtain ⟨s, answer, same⟩ := fs.opendir_existing w.fs o.path file found directory
  refine ⟨s, w.calls ++ [.opendir o.path], ?_, same⟩
  simp only [reopen, is_dir, if_true, StateT.run_bind, opendir, call_run, answer,
    pure_bind, modifySlot_run]
  rfl

theorem reopen_file {o : Slot} {fd : Nat} (no_dir : was.isDir = false) (opened : was.fd = some fd)
    (found : fs.look w.fs o.path = some file) (is_file : fs.isDirectory w.fs file = false)
    (shared : (o.flags.creat && o.flags.excl) = false) :
    ∃ s calls fd', ((reopen fs.toVfs i was o).run w).2 =
        { fs := s, calls := calls, conn := w.conn.update i fun _ => { o with fd := some fd' } } ∧
      fs.handle s fd' = some (file, o.flags.rdwr) ∧ fs.look s = fs.look w.fs ∧
      fs.isDirectory s = fs.isDirectory w.fs ∧
      (o.flags.trunc = false → fs.data s file = fs.data w.fs file) ∧
      (o.flags.trunc = true → o.flags.rdwr = true → fs.data s file = []) := by
  obtain ⟨s, fd', answer, handle, look, kind, kept, cut⟩ :=
    fs.open_existing w.fs o.path o.flags file found is_file shared
  refine ⟨s, w.calls ++ [.openFile o.path], fd', ?_, handle, look, kind, kept, cut⟩
  simp only [reopen, no_dir, opened, Bool.false_eq_true, if_false, Option.isSome_some, if_true,
    StateT.run_bind, openFile, call_run, answer, pure_bind, modifySlot_run]
  rfl

theorem reopen_exclusive {o : Slot} {fd : Nat} (no_dir : was.isDir = false)
    (opened : was.fd = some fd)
    (found : fs.look w.fs o.path = some file) (exclusive : (o.flags.creat && o.flags.excl) = true) :
    ((reopen fs.toVfs i was o).run w).2.conn = w.conn := by
  have answer := fs.open_exclusive w.fs o.path o.flags file found exclusive
  simp only [reopen, no_dir, opened, Bool.false_eq_true, if_false, Option.isSome_some, if_true,
    StateT.run_bind, openFile, call_run, answer, pure_bind]
  rfl

end Rename

/-- A code unit of the basic plane as the file system writes it. -/
def utf8 (unit : Nat) : List Char :=
  if unit < 0x80 then [Char.ofNat unit]
  else if unit < 0x800 then [Char.ofNat (0xc0 + unit / 64), Char.ofNat (0x80 + unit % 64)]
  else
    [Char.ofNat (0xe0 + unit / 4096), Char.ofNat (0x80 + unit / 64 % 64),
      Char.ofNat (0x80 + unit % 64)]

def sentPath (root : Path) (bytes : List UInt8) : Path :=
  fullPath root ((sentUnits bytes).flatMap utf8)

def truncates : Disposition → Bool
  | .fileOverwrite | .fileOverwriteIf | .fileSupersede => true
  | _ => false

/-- An open handle on a file, with the flags its create gave it. -/
structure OpenOn {S : Type} (fs : PosixFs S) (w : World S) (id : FileId) (i : Nat)
    (o : Slot) (file : Nat)
    (disposition : Disposition) (writes : Bool) : Prop where
  found : findOpen w.conn id = some (i, o)
  refers : Refers fs w.fs o file writes
  named : fs.Named w.fs file o.path
  flags : o.flags = openFlags disposition writes

structure Renames (cfg : Config) (req : SetInfoRequest) (bytes : List UInt8)
    (newpath : Path) : Prop where
  infoFile : req.infoFile = true
  infoClass : req.infoClass = .rename
  read : renameBytes req.input = some bytes
  even : bytes.length % 2 = 0
  no_zero : 0 ∉ codeUnits bytes
  resolved : resolvePath cfg.root ((sentUnits bytes).map narrow) pathMax = some newpath

/-- Only the name is another one, and the handle is as good as before. -/
structure Kept {S : Type} (fs : PosixFs S) (w w' : World S) (id : FileId) (file : Nat)
    (writes : Bool)
    (path : Path) : Prop where
  data : fs.data w'.fs file = fs.data w.fs file
  named : fs.Named w'.fs file path
  handle : ∃ i o, findOpen w'.conn id = some (i, o) ∧ Refers fs w'.fs o file writes ∧
    Serves fs w'.fs o file writes

section Main

variable {S : Type} {fs : PosixFs S} {cfg : Config} {w : World S} {req : SetInfoRequest}
    {i file : Nat}
  {o : Slot} {bytes : List UInt8} {newpath : Path} {disposition : Disposition} {writes : Bool}

theorem sentPath_eq (request : Renames cfg req bytes newpath)
    (ascii : ∀ unit ∈ codeUnits bytes, unit < 0x80) : sentPath cfg.root bytes = newpath := by
  have same : (sentUnits bytes).flatMap utf8 = (sentUnits bytes).map narrow := by
    rw [List.map_eq_flatMap, sentUnits_eq request.even]
    apply List.flatMap_congr
    intro unit member
    rw [utf8, narrow, if_pos (ascii unit member), if_pos (ascii unit member)]
  rw [sentPath, same, (resolvePath_spec request.resolved).1]

theorem hSetInfo_renames (found : findOpen w.conn req.id = some (i, o))
    (request : Renames cfg req bytes newpath) :
    (hSetInfo fs.toVfs cfg req).run w = (renameOpen fs.toVfs i o newpath).run w := by
  have name := sent_name request.read request.even request.no_zero
  simp only [hSetInfo, StateT.run_bind, StateT.run_get, pure_bind, found, setOpen, request.infoFile,
    request.infoClass, Bool.not_true, Bool.false_eq_true, if_false, setRename, request.read, name,
    request.resolved]

theorem hSetInfo_reopens (opened : OpenOn fs w req.id i o file disposition writes)
    (request : Renames cfg req bytes newpath) (moves : normalise newpath ≠ normalise o.path) :
    ∃ reply path w₂, (hSetInfo fs.toVfs cfg req).run w =
        pure (reply, ((reopen fs.toVfs i o (released o path)).run w₂).2) ∧
      path = (if reply = .done then newpath else o.path) ∧ Moved fs w w₂ i file o path := by
  rw [hSetInfo_renames opened.found request]
  exact renameOpen_reopens opened.named moves

section Reopened

variable {path name : Path} {w₂ : World S}

theorem FileView.Named.rename_iff {view : FileView S} {s : S} (named : view.Named s file path) :
    view.Named s file name ↔ normalise name = normalise path := by
  refine ⟨fun also => (also path |>.mp ((named path).mpr rfl)).symm, fun same other => ?_⟩
  rw [same]
  exact named other

theorem directory_kept_iff (opened : OpenOn fs w req.id i o file disposition writes)
    (moved : Moved fs w w₂ i file o path) (directory : fs.isDirectory w.fs file = true) :
    Kept fs w ((reopen fs.toVfs i o (released o path)).run w₂).2 req.id file writes name ↔
      normalise name = normalise path := by
  obtain ⟨conn, named, unchanged⟩ := moved
  obtain ⟨no_pipe, rest⟩ := opened.refers
  rw [directory, if_pos rfl] at rest
  obtain ⟨s, calls, ran, same⟩ := @reopen_directory S fs w₂ i file o (released o path) rest.1
    ((named path).mpr rfl) (unchanged.1.trans directory)
  rw [ran, conn, update_update]
  have refers : Refers fs s { released o path with
      dir := some ⟨fs.entries w₂.fs file, fs.entries w₂.fs file⟩, isDir := true } file writes := by
    refine ⟨no_pipe, ?_⟩
    rw [if_pos (by rw [same.unchanged.1, unchanged.1, directory])]
    exact ⟨rfl, _, rfl, same.unchanged.2.2.symm⟩
  have still : fs.Named s file name ↔ _ := (same.named named).rename_iff
  exact ⟨fun kept => still.mp kept.named, fun known => ⟨same.unchanged.2.1.trans unchanged.2.1,
    still.mpr known, i, _, findOpen_update opened.found rfl rfl, refers, refers.serves⟩⟩

theorem exclusive_lost (opened : OpenOn fs w req.id i o file .fileCreate writes)
    (moved : Moved fs w w₂ i file o path) (is_file : fs.isDirectory w.fs file = false) :
    ¬ Kept fs w ((reopen fs.toVfs i o (released o path)).run w₂).2 req.id file writes name := by
  obtain ⟨-, no_dir, -, fd, was_open, -⟩ := (refers_file_iff is_file).mp opened.refers
  have exclusive : ((released o path).flags.creat && (released o path).flags.excl) = true := by
    simp only [released, opened.flags, openFlags, Bool.and_self]
  have same := @reopen_exclusive S fs w₂ i file o (released o path) fd no_dir was_open
    ((moved.named path).mpr rfl) exclusive
  rintro ⟨-, -, j, o', found, ⟨-, refers⟩, -⟩
  have slot : findOpen (w.conn.update i fun _ => released o path) req.id =
      some (i, released o path) :=
    findOpen_update opened.found rfl rfl
  rw [same, moved.conn, slot] at found
  cases found
  -- the handle has neither a descriptor nor a directory
  split at refers
  · cases refers.1
  · obtain ⟨-, -, fd', lost, -⟩ := refers
    cases lost

theorem file_kept_iff (opened : OpenOn fs w req.id i o file disposition writes)
    (moved : Moved fs w w₂ i file o path) (is_file : fs.isDirectory w.fs file = false)
    (shared : disposition ≠ .fileCreate) (defined : truncates disposition = true → writes = true) :
    Kept fs w ((reopen fs.toVfs i o (released o path)).run w₂).2 req.id file writes name ↔
      (truncates disposition = true → fs.data w.fs file = []) ∧
        normalise name = normalise path := by
  obtain ⟨conn, named, unchanged⟩ := moved
  obtain ⟨no_pipe, no_dir, -, fd, was_open, -⟩ := (refers_file_iff is_file).mp opened.refers
  have flags : ((released o path).flags.creat && (released o path).flags.excl) = false ∧
      (released o path).flags.trunc = truncates disposition ∧
      (released o path).flags.rdwr = writes := by
    simp only [released, opened.flags]
    cases disposition <;> simp_all [openFlags, truncates]
  obtain ⟨s, calls, fd', ran, handle, look, kind, kept, cut⟩ :=
    @reopen_file S fs w₂ i file o (released o path) fd no_dir was_open ((named path).mpr rfl)
      (unchanged.1.trans is_file) flags.1
  rw [flags.2.1] at kept cut
  rw [flags.2.2] at handle cut
  rw [ran, conn, update_update]
  have still : fs.Named s file name ↔ normalise name = normalise path :=
    FileView.Named.rename_iff fun other => by rw [look]; exact named other
  constructor
  · rintro ⟨data, known, -⟩
    refine ⟨fun cuts => ?_, still.mp known⟩
    rw [← data]
    exact cut cuts (defined cuts)
  · rintro ⟨empty, known⟩
    have still_file : fs.isDirectory s file = false := by rw [kind, unchanged.1, is_file]
    have refers := (@refers_file_iff S fs file { released o path with fd := some fd' } writes s
      still_file).mpr ⟨no_pipe, rfl, rfl, fd', rfl, handle⟩
    refine ⟨?_, still.mpr known, i, _, findOpen_update opened.found rfl rfl, refers,
      refers.serves⟩
    cases cuts : truncates disposition with
    | true =>
      rw [empty cuts]
      exact cut cuts (defined cuts)
    | false => exact (kept cuts).trans unchanged.2.1

end Reopened

/-- A rename changes only the name exactly when the flags of the create do not ask for a
new file, and do not empty one that holds something, and the name is the one that was sent. -/
theorem rename_keeps_file_iff (fs : PosixFs S) (cfg : Config) (w : World S) (req : SetInfoRequest)
    (bytes : List UInt8) (newpath : Path) (i : Nat) (o : Slot) (file : Nat)
    (disposition : Disposition)
    (writes : Bool) (opened : OpenOn fs w req.id i o file disposition writes)
    (request : Renames cfg req bytes newpath) (moves : normalise newpath ≠ normalise o.path)
    (defined : truncates disposition = true → writes = true) :
    Kept fs w ((hSetInfo fs.toVfs cfg req).run w).2 req.id file writes
        (if ((hSetInfo fs.toVfs cfg req).run w).1 = .done then
          sentPath cfg.root bytes else o.path) ↔
      (fs.isDirectory w.fs file = true ∨
        disposition ≠ .fileCreate ∧ (truncates disposition = true → fs.data w.fs file = [])) ∧
      (((hSetInfo fs.toVfs cfg req).run w).1 = .done →
        normalise (sentPath cfg.root bytes) = normalise newpath) := by
  obtain ⟨reply, path, w₂, ran, at_path, moved⟩ := hSetInfo_reopens opened request moves
  have state : ((hSetInfo fs.toVfs cfg req).run w).2 =
      ((reopen fs.toVfs i o (released o path)).run w₂).2 := by rw [ran]; rfl
  have answer : ((hSetInfo fs.toVfs cfg req).run w).1 = reply := by rw [ran]; rfl
  have named : (reply = .done → normalise (sentPath cfg.root bytes) = normalise newpath) ↔
      normalise (if reply = .done then sentPath cfg.root bytes else o.path) = normalise path := by
    rw [at_path]
    split <;> simp [*]
  rw [state, answer, named]
  cases kind : fs.isDirectory w.fs file with
  | true => simpa using directory_kept_iff opened moved kind
  | false =>
    simp only [Bool.false_eq_true, false_or]
    by_cases create : disposition = .fileCreate
    · subst create
      simpa using exclusive_lost opened moved kind
    · rw [file_kept_iff opened moved kind create defined]
      simp [create]

end Main

structure Memory where
  names : List (List Char) → Option Nat
  files : Nat → List UInt8
  handles : Nat → Option (Nat × Bool)
  next : Nat

def Memory.blank : Memory :=
  { names := fun _ => none, files := fun _ => [], handles := fun _ => none, next := 0 }

def Memory.openFile (s : Memory) (path : Path) (flags : Flags) : Memory × Except Errno Nat :=
  match s.names (normalise path) with
  | some file =>
    if flags.creat && flags.excl then (s, .error .exist)
    else
      ({ s with
          files := if flags.trunc && flags.rdwr then Function.update s.files file [] else s.files
          handles := Function.update s.handles s.next (some (file, flags.rdwr)), next :=
            s.next + 1 },
        .ok s.next)
  | none =>
    if flags.creat then
      ({ names := Function.update s.names (normalise path) (some s.next)
         files := Function.update s.files s.next []
         handles := Function.update s.handles s.next (some (s.next, flags.rdwr)), next :=
           s.next + 1 },
        .ok s.next)
    else (s, .error .noent)

def Memory.rename (s : Memory) (old new : Path) : Memory × Option Errno :=
  match s.names (normalise old) with
  | none => (s, some .noent)
  | some file =>
    ({ s with
        names := Function.update (Function.update s.names (normalise old) none) (normalise new)
          (some file) },
      none)

def Memory.resize (bytes : List UInt8) (size : Nat) : List UInt8 :=
  bytes.take size ++ List.replicate (size - bytes.length) 0

def Memory.pwrite (s : Memory) (fd : Nat) (bytes : List UInt8) (offset : Nat) :
    Memory × Except Errno Nat :=
  match s.handles fd with
  | some (file, true) =>
    ({ s with
        files := Function.update s.files file (Memory.resize (s.files file) offset ++ bytes ++
          (s.files file).drop (offset + bytes.length)) },
      .ok bytes.length)
  | _ => (s, .error (.other 9))

def memory : PosixFs Memory where
  stat s path := (s, if (s.names (normalise path)).isSome then .ok .file else .error .noent)
  openFile := Memory.openFile
  opendir s _ := (s, .error .notdir)
  mkdir s _ := (s, some .acces)
  rename := Memory.rename
  unlink s path := ({ s with names := Function.update s.names (normalise path) none }, none)
  rmdir s _ := (s, some .notdir)
  utime s _ := (s, none)
  close s fd := { s with handles := Function.update s.handles fd none }
  ftruncate s fd size :=
    match s.handles fd with
    | some (file, true) =>
      ({ s with files := Function.update s.files file (Memory.resize (s.files file) size) }, none)
    | _ => (s, some (.other 9))
  pread s fd length offset :=
    (s, match s.handles fd with
      | some (file, _) => .ok (((s.files file).drop offset).take length)
      | none => .error (.other 9))
  pwrite := Memory.pwrite
  entry_component := nofun
  look s path := s.names (normalise path)
  isDirectory _ _ := false
  data s file := s.files file
  entries _ _ := []
  handle s fd := s.handles fd
  close_same _ _ := ⟨rfl, rfl, rfl, rfl⟩
  rename_failed := by
    intro s old new s' e failed
    simp only [Memory.rename] at failed
    split at failed
    · cases failed
      exact ⟨rfl, rfl, rfl, rfl⟩
    · cases failed
  rename_done := by
    intro s old new s' file renamed named moves
    have here : s.names (normalise old) = some file := (named old).mpr rfl
    simp only [Memory.rename, here] at renamed
    cases renamed
    refine ⟨fun other => ?_, rfl, rfl, rfl⟩
    by_cases new_name : normalise other = normalise new
    · simp [new_name]
    · by_cases old_name : normalise other = normalise old
      · simp [old_name, Ne.symm moves]
      · have elsewhere := (named other).not.mpr old_name
        simpa [Function.update_of_ne new_name, Function.update_of_ne old_name,
          new_name] using elsewhere
  open_existing := by
    intro s path flags file found _ shared
    refine ⟨_, s.next, by
      simp only [Memory.openFile, found, shared, Bool.false_eq_true, if_false]; rfl, ?_⟩
    refine ⟨by simp, rfl, rfl, ?_, ?_⟩
    · intro kept
      simp [kept]
    · intro cut writes
      simp [cut, writes]
  open_exclusive := by
    intro s path flags file found exclusive
    simp [Memory.openFile, found, exclusive]
  opendir_existing := nofun
  pread_handle := by
    intro s fd length offset file writes handle
    simp [handle]
  pwrite_handle := by
    intro s fd bytes offset file handle
    simp [Memory.pwrite, handle]

def written (disposition : Disposition) : World Memory :=
  let created := ((serve memory.toVfs home (.create
    { tree := 1, name := ['a'], disposition := disposition, directoryFile := false
      nonDirectoryFile := false, writes := true } true)).run (start Memory.blank)).2
  ((serve memory.toVfs home (.write ⟨1, 0⟩ 0 [7])).run created).2

def writtenSlot : Slot :=
  { Slot.empty with
    used := true, id := 1, fd := some 0, path := "/home/a".toList, flags :=
      openFlags .fileOpenIf true }

theorem opened_file_renamed :
    ((hSetInfo memory.toVfs home (moveTo [98, 0])).run (written .fileOpenIf)).1 = .done ∧
      memory.data (written .fileOpenIf).fs 0 = [7] ∧
      Kept memory (written .fileOpenIf)
        ((hSetInfo memory.toVfs home (moveTo [98, 0])).run (written .fileOpenIf)).2 ⟨1, 0⟩ 0 true
        (if ((hSetInfo memory.toVfs home (moveTo [98, 0])).run (written .fileOpenIf)).1 = .done then
          sentPath home.root [98, 0] else "/home/a".toList) := by
  have opened : OpenOn memory (written .fileOpenIf) ⟨1, 0⟩ 0 writtenSlot 0 .fileOpenIf true := by
    refine ⟨rfl, ⟨rfl, rfl, rfl, 0, rfl, rfl⟩, fun other => ?_, rfl⟩
    have names : (written .fileOpenIf).fs.names =
        Function.update (fun _ => none) (normalise "/home/a".toList) (some 0) := rfl
    change (written .fileOpenIf).fs.names (normalise other) = some 0 ↔ _
    rw [names, Function.update_apply]
    split <;> simp_all [writtenSlot]
  have request : Renames home (moveTo [98, 0]) [98, 0] "/home/b".toList :=
    ⟨rfl, rfl, by decide, by decide, by decide, by decide⟩
  refine ⟨by decide, by decide, ?_⟩
  exact (rename_keeps_file_iff memory home _
    (moveTo [98, 0]) _ _ _ _ _ _ _ opened request (by decide)
    nofun).mpr ⟨Or.inr ⟨nofun, nofun⟩, fun _ => by rw [sentPath_eq request (by decide)]⟩

/-- A file that was to be overwritten is emptied, one that was to be new is lost to its
handle, and a name outside ASCII is another name. -/
theorem rename_loses_file :
    (memory.data (written .fileOverwriteIf).fs 0 = [7] ∧
      memory.data
      ((hSetInfo memory.toVfs home (moveTo [98, 0])).run (written .fileOverwriteIf)).2.fs 0 = []) ∧
    ((hSetInfo memory.toVfs home (moveTo [98, 0])).run (written .fileCreate)).1 = .done ∧
    ((hRead memory.toVfs ⟨1, 0⟩ 0 1).run
      ((hSetInfo memory.toVfs home (moveTo [98, 0])).run (written .fileCreate)).2).1 =
        .fail .invalidDeviceRequest ∧
    ((hSetInfo memory.toVfs home (moveTo [233, 0])).run (written .fileOpenIf)).1 = .done ∧
    memory.look ((hSetInfo memory.toVfs home (moveTo [233, 0])).run (written .fileOpenIf)).2.fs
      (sentPath home.root [233, 0]) = none ∧
    memory.look ((hSetInfo memory.toVfs home (moveTo [233, 0])).run (written .fileOpenIf)).2.fs
      "/home/?".toList = some 0 := by
  decide

end Espix.Smbd.Rename
