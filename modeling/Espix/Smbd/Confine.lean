import Espix.Lib.PathText
import Espix.Lib.Programs
import Espix.Lib.Run
import Espix.Smbd.Handlers

/-! Every path the SMB server uses stays below the share, whatever it is asked for.

A resolved name stays below the share because no part of it goes up. Handles keep such
paths, and every later request uses the path of its handle. -/

namespace Espix.Smbd.Confine

open Lib.CText Lib.PathText Lib.Programs Lib.Run Server Handlers

def fullPath (root : Path) (name : List Char) : Path :=
  if name = [] then root
  else (if root ≠ [] ∧ root.getLast? ≠ some '/' then root ++ ['/'] else root) ++ name.map slash

section Names

variable {root out path : Path} {name : List Char} {len : Nat}

theorem copyName_spec (copied : copyName len out name = some path) :
    path = out ++ name.map slash ∧ ∀ suffix, suffix <:+ name → upAt suffix = false := by
  induction name generalizing out with
  | nil =>
    cases copied
    exact ⟨by simp, fun suffix ends => by rw [List.suffix_nil.mp ends]; rfl⟩
  | cons c rest ih =>
    simp only [copyName] at copied
    split at copied
    · cases copied
    · rename_i here
      split at copied
      · cases copied
      · obtain ⟨shape, later⟩ := ih copied
        refine ⟨by simp [shape], fun suffix ends => ?_⟩
        rcases List.suffix_cons_iff.mp ends with rfl | inner
        · simpa using here
        · exact later suffix inner

theorem resolvePath_spec (resolved : resolvePath root name len = some path) :
    path = fullPath root name ∧ ∀ suffix, suffix <:+ name → upAt suffix = false := by
  revert resolved
  fun_cases resolvePath root name len with
  | case1 | case3 | case4 => exact nofun
  | case2 =>
    rintro ⟨⟩
    exact ⟨rfl, fun suffix ends => by rw [List.suffix_nil.mp ends]; rfl⟩
  | case5 _ c rest _ unfinished =>
    rw [fullPath, if_neg (List.cons_ne_nil c rest), if_pos unfinished]
    exact copyName_spec
  | case6 _ c rest _ finished =>
    rw [fullPath, if_neg (List.cons_ne_nil c rest), if_neg finished]
    exact copyName_spec

theorem slash_eq_dot {c : Char} (dot : slash c = '.') : c = '.' := by
  rw [slash] at dot
  split at dot
  · cases dot
  · exact dot

theorem isSep_of_slash {c : Char} (sep : slash c = '/') : isSep c = true := by
  rw [slash] at sep
  split at sep
  · rename_i back
    simp [isSep, back]
  · simp [isSep, sep]

theorem no_up (clean : ∀ suffix, suffix <:+ name → upAt suffix = false) :
    ['.', '.'] ∉ (name.map slash).splitOn '/' := by
  intro up
  obtain ⟨pre, post, shape, follows, -⟩ := exists_of_mem_splitOn up
  obtain ⟨before, behind, rfl, start, rfl⟩ := List.map_eq_append_iff.mp shape
  obtain ⟨first, dots, rfl, -, two⟩ := List.map_eq_append_iff.mp start
  obtain ⟨a, rest, rfl, dot_a, two⟩ := List.map_eq_cons_iff.mp two
  obtain ⟨b, rest, rfl, dot_b, done⟩ := List.map_eq_cons_iff.mp two
  rw [List.map_eq_nil_iff.mp done, slash_eq_dot dot_a, slash_eq_dot dot_b] at clean
  have here := clean (['.', '.'] ++ behind) ⟨first, by simp⟩
  cases behind with
  | nil => cases here
  | cons c behind =>
    have sep : isSep c = true := isSep_of_slash (follows _ rfl)
    simp [upAt, sep] at here

theorem fullPath_below (clean : ∀ suffix, suffix <:+ name → upAt suffix = false) :
    Below root (fullPath root name) := by
  have down := no_up clean
  rw [fullPath]
  split
  · exact Below.refl root
  · split
    · simpa using (Below.refl root).join down
    · rename_i closed
      by_cases empty : root = []
      · subst empty
        exact ⟨List.nil_prefix, by simp [normalise, push, List.splitOn_nil]⟩
      · have ends : root.getLast? = some '/' := by
          by_contra other
          exact closed ⟨empty, other⟩
        obtain ⟨base, rfl⟩ := List.getLast?_eq_some_iff.mp ends
        refine ⟨List.prefix_append _ _, ?_⟩
        rw [normalise_trailing, List.append_assoc]
        exact normalise_below down

end Names

/-- The whole of a name that was asked for, or the share itself. -/
def Direct (root : Path) (names : List (List Char)) (path : Path) : Prop :=
  Below root path ∧ ∃ name ∈ [] :: names, path = fullPath root name

def Listed {S : Type} (v : Vfs S) (entry : List Char) : Prop :=
  ∃ s path entries, (v.opendir s path).2 = .ok entries ∧ entry ∈ entries

/-- A path as it was asked for, or a name it was said to hold behind it. -/
def Whole {S : Type} (v : Vfs S) (root : Path) (names : List (List Char)) (path : Path) : Prop :=
  ∃ name ∈ [] :: names,
    path = fullPath root name ∨ ∃ entry, Listed v entry ∧ path = fullPath root name ++ '/' :: entry

def Confined {S : Type} (v : Vfs S) (root : Path) (names : List (List Char)) (path : Path) : Prop :=
  Below root path ∧ Whole v root names path

structure SlotSafe {S : Type} (v : Vfs S) (root : Path)
    (names : List (List Char)) (o : Slot) : Prop where
  path : o.path ≠ [] → Direct root names o.path
  named : o.used = true → o.pipe = none → Direct root names o.path
  listed : o.isDir = true → Direct root names o.path
  stream : ∀ d, o.dir = some d → (∀ name ∈ d.all, Listed v name) ∧ ∀ name ∈ d.rest, Listed v name
  pending : o.havePending = true → Listed v o.pending

structure Safe {S : Type} (v : Vfs S) (root : Path)
    (names : List (List Char)) (w : World S) : Prop where
  calls : ∀ c ∈ w.calls, ∀ path ∈ c.paths, Confined v root names path
  opens : ∀ o ∈ w.conn.opens, SlotSafe v root names o

variable {c conn : Conn} {f : Slot → Slot} {id : FileId}

section Steps

variable {S A : Type} {v : Vfs S} {root path : Path} {names : List (List Char)}

theorem Direct.confined (direct : Direct root names path) : Confined v root names path := by
  obtain ⟨below, name, member, shape⟩ := direct
  exact ⟨below, name, member, Or.inl shape⟩

theorem direct_root : Direct root names root := ⟨Below.refl root, [], List.mem_cons_self, rfl⟩

theorem direct_of_resolved {name : List Char} {len : Nat} (asked : name ∈ names)
    (resolved : resolvePath root name len = some path) : Direct root names path := by
  obtain ⟨shape, clean⟩ := resolvePath_spec resolved
  exact ⟨shape ▸ fullPath_below clean, name, List.mem_cons_of_mem _ asked, shape⟩

theorem Listed.component {entry : List Char} (listed : Listed v entry) : '/' ∉ entry ∧
    entry.length ≤ 255 := by
  obtain ⟨s, path, entries, answer, member⟩ := listed
  exact v.entry_component s path entries answer entry member

theorem Direct.entry {entry : List Char} (direct : Direct root names path) (listed : Listed v entry)
    (down : entry ≠ ['.', '.']) : Confined v root names (path ++ '/' :: entry) := by
  obtain ⟨below, name, member, shape⟩ := direct
  refine ⟨below.join ?_, name, member, Or.inr ⟨entry, listed, by rw [shape]⟩⟩
  rw [List.splitOn_eq_singleton listed.component.1, List.mem_singleton]
  exact Ne.symm down

theorem slotSafe_empty : SlotSafe v root names Slot.empty :=
  ⟨fun some_path => absurd rfl some_path, nofun, nofun, nofun, nofun⟩

theorem Safe.slot {w : World S} (safe : Safe v root names w) (i : Nat) :
    SlotSafe v root names (w.conn.slot i) := by
  rw [Conn.slot, List.getD_eq_getElem?_getD]
  cases found : w.conn.opens[i]? with
  | none => exact slotSafe_empty
  | some o => exact safe.opens o (List.mem_of_getElem? found)

theorem mem_modify {i : Nat} {o : Slot} (member : o ∈ (c.update i f).opens) :
    o ∈ c.opens ∨ ∃ o' ∈ c.opens, o = f o' := by
  obtain ⟨j, here⟩ := List.mem_iff_getElem?.mp member
  rw [Conn.update, List.getElem?_modify, Option.map_eq_map, Option.map_eq_some_iff] at here
  obtain ⟨o', found, rfl⟩ := here
  split
  · exact Or.inr ⟨o', List.mem_of_getElem? found, rfl⟩
  · exact Or.inl (List.mem_of_getElem? found)

theorem findOpen_used {i : Nat} {o : Slot} (found : findOpen c id = some (i, o)) :
    o = c.slot i ∧ o.used = true := by
  obtain ⟨j, place, same⟩ := Option.map_eq_some_iff.mp found
  cases same
  refine ⟨rfl, ?_⟩
  have used : ∀ key, openFind c key = some i → (c.slot i).used = true := by
    intro key at_key
    obtain ⟨bound, holds, -⟩ := List.findIdx?_eq_some_iff_getElem.mp at_key
    rw [Conn.slot, List.getD_eq_getElem?_getD, List.getElem?_eq_getElem bound]
    exact ((Bool.and_eq_true _ _).mp holds).1
  rw [openFindAny] at place
  split at place
  · rename_i k at_key
    cases place
    exact used _ at_key
  · split at place
    · exact used _ place
    · cases place

theorem keeps_call {c : Call} {f : S → S × A} {P : A → Prop}
    (confined : ∀ path ∈ c.paths, Confined v root names path) (result : ∀ s, P (f s).2) :
    Keeps (Safe v root names) (call c f) P := by
  intro w safe
  refine ⟨⟨fun c' member => ?_, safe.opens⟩, result w.fs⟩
  rcases List.mem_append.mp member with before | new
  · exact safe.calls c' before
  · rw [List.mem_singleton.mp new]
    exact confined

theorem keeps_callFd {f : S → S × A} : Stable (Safe v root names) (callFd f) :=
  fun _ safe => ⟨⟨safe.calls, safe.opens⟩, trivial⟩

theorem keeps_modifySlot {i : Nat}
    (step : ∀ o, SlotSafe v root names o → SlotSafe v root names (f o)) :
    Stable (Safe v root names) (modifySlot i f : ServerM S Unit) := by
  refine Keeps.modify fun w safe => ⟨safe.calls, fun o member => ?_⟩
  rcases mem_modify member with same | ⟨o', before, rfl⟩
  · exact safe.opens o same
  · exact step o' (safe.opens o' before)

theorem keeps_setConn (opens : ∀ o ∈ conn.opens, SlotSafe v root names o) :
    Stable (Safe v root names) (setConn conn : ServerM S Unit) :=
  Keeps.modify fun _ safe => ⟨safe.calls, opens⟩

theorem keeps_getSlot (i : Nat) :
    Keeps (Safe v root names) (getSlot i : ServerM S Slot) (SlotSafe v root names) :=
  Keeps.bind Keeps.get fun _ safe => Keeps.pure (safe.slot i)

end Steps

variable {rest entries : List (List Char)} {was : Slot}

section Handlers

variable {S : Type} {v : Vfs S} {cfg : Config} {path : Path}
    {names : List (List Char)} {i : Nat} {o : Slot}

abbrev Tame {A : Type} (v : Vfs S) (cfg : Config)
    (names : List (List Char)) (prog : ServerM S A) : Prop :=
  Stable (Safe v cfg.root names) prog

theorem keeps_opendir (direct : Direct cfg.root names path) :
    Keeps (Safe v cfg.root names) (opendir v path) fun answer =>
      ∀ entries, answer = .ok entries → ∀ name ∈ entries, Listed v name :=
  keeps_call (by simpa [Call.paths] using direct.confined) fun s entries answer name member =>
    ⟨s, path, entries, answer, member⟩

theorem keeps_cachedStat (confined : Confined v cfg.root names path) :
    Tame v cfg names (cachedStat v path) :=
  keeps_call (by simpa [Call.paths] using confined) fun _ => trivial

theorem keeps_closeDescriptor (o : Slot) :
    Tame v cfg names (closeDescriptor v o) := by
  rw [closeDescriptor]
  split
  · exact keeps_callFd
  · exact stable_pure _

theorem keeps_openClear (i : Nat) : Tame v cfg names (openClear v i) := by
  refine (keeps_getSlot i).bind fun o safe => ?_
  have deleted : Tame v cfg names (deleteClosed v o) := by
    rw [deleteClosed]
    split
    · rename_i asked
      have confined : Confined v cfg.root names o.path := (safe.path asked.2).confined
      split <;> exact keeps_call (by simpa [Call.paths] using confined) fun _ => trivial
    · exact stable_pure _
  refine (keeps_closeDescriptor o).bind fun _ _ => deleted.bind fun _ _ => ?_
  exact keeps_modifySlot fun o safe => ⟨safe.path, nofun, nofun, nofun, nofun⟩

theorem keeps_createFailed (e : Errno) : Tame v cfg names (createFailed v i e) :=
  Keeps.done (keeps_openClear i)

theorem keeps_connFree : Tame v cfg names (connFree v) :=
  Keeps.forM fun i _ => (keeps_getSlot i).bind fun _ _ => stable_when (keeps_openClear i)

theorem openAlloc_opens {w : World S} (safe : Safe v cfg.root names w)
    (taken : openAlloc w.conn = some (i, conn))
    (fresh : ∀ id, SlotSafe v cfg.root names (f { Slot.empty with used := true, id := id })) :
    ∀ o ∈ (conn.update i f).opens, SlotSafe v cfg.root names o := by
  rw [openAlloc] at taken
  split at taken
  · cases taken
  · rename_i j free
    cases taken
    intro o member
    obtain ⟨k, here⟩ := List.mem_iff_getElem?.mp member
    simp only [Conn.update, List.getElem?_modify, List.getElem?_set, Option.map_eq_map,
      Option.map_eq_some_iff] at here
    obtain ⟨o', found, rfl⟩ := here
    split at found
    · rename_i same
      subst same
      split at found
      · cases found
        simpa using fresh _
      · cases found
    · rename_i other
      simpa [other] using safe.opens o' (List.mem_of_getElem? found)

theorem openAlloc_slot (taken : openAlloc c = some (i, conn)) :
    conn.slot i = { Slot.empty with used := true, id := conn.lastId } := by
  rw [openAlloc] at taken
  split at taken
  · cases taken
  · rename_i j free
    cases taken
    obtain ⟨bound, -⟩ := List.findIdx?_eq_some_iff_getElem.mp free
    simp [Conn.slot, List.getD_eq_getElem?_getD, bound]

theorem keeps_createPipe (name : List Char) (room : Bool) :
    Tame v cfg names (createPipe name room : ServerM S Reply) := by
  rw [createPipe]
  split
  · exact stable_pure _
  · refine Keeps.bind Keeps.get fun w safe => ?_
    split
    · exact stable_pure _
    · rename_i i conn taken
      -- with room or without, the slot has no path
      split <;>
        exact Keeps.done (keeps_setConn (openAlloc_opens safe taken fun _ =>
          ⟨fun some_path => absurd rfl some_path, nofun, nofun, nofun, nofun⟩))

theorem keeps_openOrMakeDir (direct : Direct cfg.root names path) (disposition : Disposition) :
    Keeps (Safe v cfg.root names) (openOrMakeDir v disposition path) fun answer =>
      ∀ entries, answer = .ok entries → ∀ name ∈ entries, Listed v name := by
  refine (keeps_opendir direct).bind fun first component => ?_
  split
  · exact Keeps.pure component
  · split
    · refine Keeps.bind (P := fun _ => True)
        (keeps_call (by simpa [Call.paths] using direct.confined)
        fun _ => trivial) fun made _ => ?_
      split
      · exact keeps_opendir direct
      · exact Keeps.pure nofun
    · exact Keeps.pure nofun

theorem keeps_createDir (safe : SlotSafe v cfg.root names o) (direct : Direct cfg.root names o.path)
    (disposition : Disposition) (found : Bool) :
    Tame v cfg names (createDir v disposition found i o) := by
  refine (keeps_openOrMakeDir direct disposition).bind fun answer component => ?_
  split
  · exact keeps_createFailed _
  · rename_i entries
    refine (keeps_modifySlot fun _ _ => ?_).bind fun _ _ =>
      Keeps.done (keeps_cachedStat direct.confined)
    refine ⟨safe.path, safe.named, fun _ => direct, ?_, safe.pending⟩
    rintro d ⟨rfl⟩
    exact ⟨component entries rfl, component entries rfl⟩

theorem keeps_openFile (direct : Direct cfg.root names path) (flags : Flags) :
    Tame v cfg names (openFile v path flags) :=
  keeps_call (by simpa [Call.paths] using direct.confined) fun _ => trivial

theorem keeps_createFile (safe : SlotSafe v cfg.root names o)
    (direct : Direct cfg.root names o.path)
    (disposition : Disposition) (writes : Bool) :
    Tame v cfg names (createFile v disposition writes i o) := by
  refine (keeps_openFile direct _).bind fun answer _ => ?_
  split
  · exact keeps_createFailed _
  · refine (keeps_modifySlot fun _ _ => ?_).bind fun _ _ =>
      Keeps.done (keeps_cachedStat direct.confined)
    exact { safe with }

theorem keeps_hCreate (req : CreateRequest) (room : Bool) (asked : req.name ∈ names) :
    Tame v cfg names (hCreate v cfg req room) := by
  refine Keeps.bind Keeps.get fun _ _ => ?_
  split
  · exact keeps_createPipe req.name room
  · split
    · exact stable_pure _
    · rename_i path resolved
      have direct := direct_of_resolved asked resolved
      refine (keeps_cachedStat direct.confined).bind fun st _ => ?_
      split
      · exact stable_pure _
      · refine Keeps.bind Keeps.get fun w safe => ?_
        split
        · exact stable_pure _
        · rename_i i conn taken
          have fresh : SlotSafe v cfg.root names { conn.slot i with path := path } := by
            rw [openAlloc_slot taken]
            exact ⟨fun _ => direct, fun _ _ => direct, nofun, nofun, nofun⟩
          refine (keeps_setConn (openAlloc_opens safe taken fun _ => fresh)).bind fun _ _ => ?_
          split
          · exact keeps_createDir fresh direct _ _
          · exact keeps_createFile fresh direct _ _

theorem Safe.found {w : World S} (safe : Safe v cfg.root names w)
    (found : findOpen w.conn id = some (i, o)) :
    SlotSafe v cfg.root names o ∧ (o.pipe = none → Direct cfg.root names o.path) := by
  obtain ⟨rfl, used⟩ := findOpen_used found
  exact ⟨safe.slot i, (safe.slot i).named used⟩

theorem keeps_hClose (id : FileId) : Tame v cfg names (hClose v id) := by
  refine Keeps.bind Keeps.get fun w safe => ?_
  split
  · exact stable_pure _
  · rename_i i o found
    have closed : Tame v cfg names (do openClear v i; return Reply.done) :=
      Keeps.done (keeps_openClear i)
    split
    · exact closed
    · rename_i no_pipe
      have direct := (safe.found found).2 (by simpa using no_pipe)
      exact (keeps_cachedStat direct.confined).bind fun _ _ => closed

theorem keeps_hRead (id : FileId) (offset length : Nat) :
    Tame v cfg names (hRead v id offset length) := by
  refine Keeps.bind Keeps.get fun w _ => ?_
  split
  · exact stable_pure _
  · split
    · exact stable_pure _
    · split
      · refine Keeps.bind keeps_callFd fun answer _ => ?_
        split
        · exact stable_pure _
        · split <;> exact stable_pure _
      · exact stable_pure _

theorem keeps_hWrite (id : FileId) (offset : Nat) (bytes : List UInt8) :
    Tame v cfg names (hWrite v id offset bytes) := by
  refine Keeps.bind Keeps.get fun w _ => ?_
  split
  · exact stable_pure _
  · split
    · exact stable_pure _
    · split
      · refine Keeps.bind keeps_callFd fun answer _ => ?_
        split <;> exact stable_pure _
      · exact stable_pure _

theorem keeps_hQueryInfo (id : FileId) : Tame v cfg names (hQueryInfo v cfg id) := by
  refine Keeps.bind Keeps.get fun w safe => ?_
  split
  · rename_i i o found
    split
    · exact stable_pure _
    · rename_i no_pipe
      have direct := (safe.found found).2 (by simpa using no_pipe)
      refine (keeps_cachedStat direct.confined).bind fun answer _ => ?_
      split <;> exact stable_pure _
  · split
    · refine (keeps_cachedStat direct_root.confined).bind fun answer _ => ?_
      split <;> exact stable_pure _
    · exact stable_pure _

theorem keeps_hTreeConnect (tree : UInt32) (name : List Char) :
    Tame v cfg names (hTreeConnect cfg tree name : ServerM S Reply) := by
  rw [hTreeConnect]
  split
  · exact stable_pure _
  · refine Keeps.bind Keeps.get fun w safe => ?_
    split
    · exact stable_pure _
    · rename_i conn added
      obtain ⟨k, -, rfl⟩ := Option.map_eq_some_iff.mp added
      exact Keeps.done (keeps_setConn safe.opens)

theorem keeps_setRest (component : ∀ name ∈ rest, Listed v name) :
    Tame v cfg names (setRest i rest : ServerM S Unit) := by
  refine keeps_modifySlot fun o safe => ⟨safe.path, safe.named, safe.listed, ?_, safe.pending⟩
  intro d restored
  obtain ⟨before, stream, rfl⟩ := Option.map_eq_some_iff.mp restored
  exact ⟨(safe.stream before stream).1, component⟩

theorem keeps_offerEntry {entry : List Char} (direct : Direct cfg.root names path)
    (listed : Listed v entry) (down : entry ≠ ['.', '.']) (req : QueryDirectoryRequest)
    (listing : Listing) : Tame v cfg names (offerEntry v cfg req i path entry listing) := by
  refine stable_unless (stable_unless ((keeps_cachedStat (direct.entry listed down)).bind fun _ _ =>
    stable_unless ?_))
  exact (keeps_getSlot i).bind fun _ _ => Keeps.done (keeps_modifySlot fun o safe => { safe with })

theorem keeps_listEntries (direct : Direct cfg.root names path) (req : QueryDirectoryRequest)
    (component : ∀ name ∈ entries, Listed v name) (listing : Listing) :
    Tame v cfg names (listEntries v cfg req i path entries listing) := by
  induction entries generalizing listing with
  | nil => exact Keeps.done (keeps_setRest nofun)
  | cons name rest ih =>
    obtain ⟨here, later⟩ := List.forall_mem_cons.mp component
    rw [listEntries]
    split
    · exact ih later listing
    · rename_i dots
      have down : name ≠ ['.', '.'] := by
        rintro rfl
        exact dots rfl
      rw [List.take_of_length_le here.component.2]
      refine (keeps_offerEntry direct here down req listing).bind fun offer _ => ?_
      split
      · exact ih later listing
      · refine (keeps_modifySlot fun o safe => ?_).bind fun _ _ =>
          Keeps.done (keeps_setRest later)
        exact { safe with pending := fun _ => here }
      · split
        · exact Keeps.done (keeps_setRest later)
        · exact ih later _

theorem keeps_listFrom (safe : SlotSafe v cfg.root names o) (listed : o.isDir = true)
    (req : QueryDirectoryRequest) (component : ∀ name ∈ entries, Listed v name) :
    Tame v cfg names (listFrom v cfg req i o entries) := by
  have waiting : ∀ name ∈ (if o.havePending then [o.pending] else []) ++
      entries, Listed v name := by
    intro name member
    rcases List.mem_append.mp member with carried | listed
    · split at carried
      · rename_i carries
        rw [List.mem_singleton.mp carried]
        exact safe.pending carries
      · cases carried
    · exact component name listed
  refine (keeps_modifySlot fun o safe => ?_).bind fun _ _ =>
    (keeps_listEntries (safe.listed listed) req waiting _).bind fun listing _ => ?_
  · exact { safe with pending := nofun }
  · split <;> exact stable_pure _

theorem skipEntries_subset {pattern : List Char} {skip : Nat}
    (skipped : skipEntries pattern skip entries = some rest) : rest ⊆ entries := by
  fun_induction skipEntries pattern skip entries with
  | case1 entries =>
    cases skipped
    exact List.Subset.refl _
  | case2 => cases skipped
  | case3 skip name entries passed ih | case4 skip name entries counted ih =>
    exact List.subset_cons_of_subset _ (ih skipped)

theorem restartStream_safe (safe : SlotSafe v cfg.root names o) :
    SlotSafe v cfg.root names (restartStream o) := by
  refine ⟨safe.path, safe.named, safe.listed, ?_, nofun⟩
  intro d restarted
  obtain ⟨before, stream, rfl⟩ := Option.map_eq_some_iff.mp restarted
  exact ⟨(safe.stream before stream).1, (safe.stream before stream).1⟩

theorem keeps_listDirectory (safe : SlotSafe v cfg.root names o) (listed : o.isDir = true)
    (req : QueryDirectoryRequest) :
    Tame v cfg names (listDirectory v cfg req i o) := by
  have component : (∀ name ∈ (o.dir.getD ⟨[], []⟩).all, Listed v name) ∧
      ∀ name ∈ (o.dir.getD ⟨[], []⟩).rest, Listed v name := by
    cases stream : o.dir with
    | none => exact ⟨nofun, nofun⟩
    | some d => exact safe.stream d stream
  refine (keeps_modifySlot fun _ _ => ?_).bind fun _ _ => ?_
  · exact { safe with }
  · dsimp only
    split
    · split
      · exact Keeps.done (keeps_setRest nofun)
      · rename_i rest skipped
        refine (keeps_modifySlot fun o safe => ?_).bind fun _ _ =>
          keeps_listFrom safe listed req fun name member =>
            component.1 name (skipEntries_subset skipped member)
        exact { safe with }
    · exact keeps_listFrom safe listed req component.2

theorem keeps_hQueryDirectory (req : QueryDirectoryRequest) :
    Tame v cfg names (hQueryDirectory v cfg req) := by
  refine Keeps.bind Keeps.get fun w safe => ?_
  split
  · exact stable_pure _
  · rename_i i o found
    split
    · exact stable_pure _
    · rename_i is_dir
      have listed : o.isDir = true := by simp_all
      split
      · exact stable_pure _
      · split
        · exact keeps_listDirectory (restartStream_safe (safe.found found).1) listed req
        · exact keeps_listDirectory (safe.found found).1 listed req

theorem keeps_reopen (safe : SlotSafe v cfg.root names o) (direct : Direct cfg.root names o.path) :
    Tame v cfg names (reopen v i was o) := by
  rw [reopen]
  split
  · refine (keeps_opendir direct).bind fun answer component => ?_
    split
    · rename_i entries
      refine keeps_modifySlot fun _ _ => ⟨safe.path, safe.named, fun _ => direct, ?_, safe.pending⟩
      rintro d ⟨rfl⟩
      exact ⟨component entries rfl, component entries rfl⟩
    · exact stable_pure _
  · split
    · refine (keeps_openFile direct _).bind fun answer _ => ?_
      split
      · exact keeps_modifySlot fun _ _ => { safe with }
      · exact stable_pure _
    · exact stable_pure _

theorem keeps_renameOpen {newpath : Path} (safe : SlotSafe v cfg.root names was)
    (old : Direct cfg.root names was.path) (new : Direct cfg.root names newpath) :
    Tame v cfg names (renameOpen v i was newpath) := by
  have closed : SlotSafe v cfg.root names { was with fd := none, dir := none, isDir := false } :=
    ⟨safe.path, safe.named, nofun, nofun, safe.pending⟩
  have moved : SlotSafe v cfg.root names
      { was with fd := none, dir := none, isDir := false, path := newpath } :=
    ⟨fun _ => new, fun _ _ => new, nofun, nofun, safe.pending⟩
  have released : Tame v cfg names (closeForRename v was) := by
    rw [closeForRename]
    split
    · exact stable_pure _
    · exact keeps_closeDescriptor was
  have renamed : Tame v cfg names (rename v was.path newpath) :=
    keeps_call (by simpa [Call.paths] using ⟨old.confined, new.confined⟩) fun _ => trivial
  refine (keeps_modifySlot fun _ _ => closed).bind fun _ _ => Keeps.bind released fun _ _ => ?_
  refine Keeps.bind renamed fun answer _ => ?_
  split
  · exact Keeps.done (keeps_reopen closed old)
  · exact (keeps_modifySlot fun _ _ => moved).bind fun _ _ =>
      Keeps.done (keeps_reopen moved new)

theorem keeps_setBasic (direct : Direct cfg.root names o.path) (input : List UInt8) :
    Tame v cfg names (setBasic v o input) :=
  stable_unless (stable_when (Keeps.done (P := fun _ => True)
    (keeps_call (by simpa [Call.paths] using direct.confined) fun _ => trivial)))

theorem keeps_setEndOfFile (o : Slot) (input : List UInt8) :
    Tame v cfg names (setEndOfFile v o input) := by
  rw [setEndOfFile]
  split
  · split
    · exact stable_pure _
    · refine Keeps.bind keeps_callFd fun answer _ => ?_
      split <;> exact stable_pure _
  · exact stable_pure _

end Handlers

def sentUnits : List UInt8 → List Nat
  | [] => []
  | [last] => [last.toNat]
  | low :: high :: rest => (low.toNat + 256 * high.toNat) :: sentUnits rest

def asked : Request → List (List Char)
  | .create req _ => [req.name]
  | .setInfo req =>
    if req.infoClass = .rename then
      ((renameBytes req.input).map fun bytes => (sentUnits bytes).map narrow).toList
    else []
  | _ => []

/-- A pipe is not renamed or given times, and a new name is whole code units without a
null among them. -/
def Fair {S : Type} (w : World S) : Request → Prop
  | .setInfo req =>
    (req.infoClass = .rename ∨ req.infoClass = .basic →
      ∀ i o, findOpen w.conn req.id = some (i, o) → o.pipe = none) ∧
    (req.infoClass = .rename → ∀ bytes, renameBytes req.input = some bytes →
      bytes.length % 2 = 0 ∧ 0 ∉ codeUnits bytes)
  | _ => True

def start {S : Type} (fs : S) : World S := { fs := fs, conn := Conn.new, calls := [] }

def step {S : Type} (v : Vfs S) (cfg : Config) (w : World S) (req : Request) : Option (World S) :=
  some ((serve v cfg req).run w).2

variable {req : SetInfoRequest}

section Requests

variable {S : Type} {v : Vfs S} {cfg : Config} {names : List (List Char)} {bytes input : List UInt8}

theorem codeUnits_length (bytes : List UInt8) : (codeUnits bytes).length = bytes.length / 2 := by
  fun_induction codeUnits bytes with
  | case1 low high rest ih =>
    simp only [List.length_cons, ih]
    omega
  | case2 bytes short =>
    match bytes with
    | [] => rfl
    | [_] => simp
    | low :: high :: rest => exact absurd rfl (short low high rest)

theorem sentUnits_eq (even : bytes.length % 2 = 0) : sentUnits bytes = codeUnits bytes := by
  fun_induction sentUnits bytes with
  | case1 => rfl
  | case2 last => simp at even
  | case3 low high rest ih =>
    rw [codeUnits, ih]
    simp only [List.length_cons] at even
    omega

theorem renameBytes_length (read : renameBytes input = some bytes) :
    bytes.length ≤ 2 * (pathMax - 1) := by
  simp only [renameBytes] at read
  split at read
  · cases read
  · split at read
    · cases read
    · cases read
      rw [List.length_take]
      omega

theorem narrow_ne_nul {unit : Nat} (nonzero : unit ≠ 0) : narrow unit ≠ '\x00' := by
  have small : ∀ u < 0x80, u ≠ 0 → Char.ofNat u ≠ '\x00' := by decide
  rw [narrow]
  split
  · exact small unit ‹_› nonzero
  · decide

theorem sent_name (read : renameBytes input = some bytes) (even : bytes.length % 2 = 0)
    (no_nul : 0 ∉ codeUnits bytes) :
    cstr (((codeUnits bytes).take (pathMax - 1)).map narrow) = (sentUnits bytes).map narrow := by
  have length := renameBytes_length read
  rw [List.take_of_length_le (by rw [codeUnits_length]; omega), sentUnits_eq even, cstr_of_no_nul]
  intro member
  obtain ⟨unit, inside, zero⟩ := List.mem_map.mp member
  exact narrow_ne_nul (fun same => no_nul (same ▸ inside)) zero

theorem keeps_setRename {i : Nat} {o : Slot} (safe : SlotSafe v cfg.root names o)
    (direct : Direct cfg.root names o.path)
    (fair : ∀ bytes, renameBytes input = some bytes → bytes.length % 2 = 0 ∧ 0 ∉ codeUnits bytes)
    (listed : ∀ bytes, renameBytes input = some bytes → (sentUnits bytes).map narrow ∈ names) :
    Tame v cfg names (setRename v cfg i o input) := by
  rw [setRename]
  split
  · exact stable_pure _
  · rename_i bytes read
    obtain ⟨even, no_nul⟩ := fair bytes read
    dsimp only
    rw [sent_name read even no_nul]
    split
    · exact stable_pure _
    · rename_i newpath resolved
      exact keeps_renameOpen safe direct (direct_of_resolved (listed bytes read) resolved)

theorem keeps_setOpen {w : World S} {i : Nat} {o : Slot}
    (safe : Safe v cfg.root names w) (found : findOpen w.conn req.id = some (i, o))
    (fair : Fair w (.setInfo req)) (listed : asked (.setInfo req) ⊆ names) :
    Tame v cfg names (setOpen v cfg req i o) := by
  obtain ⟨slot, direct⟩ := safe.found found
  rw [setOpen]
  split
  · exact stable_pure _
  · split
    · exact keeps_setEndOfFile o req.input
    · exact stable_pure _
    · rename_i basic
      exact keeps_setBasic (direct (fair.1 (Or.inr basic) i o found)) req.input
    · split
      · exact stable_pure _
      · exact Keeps.done (keeps_modifySlot fun o safe => { safe with })
    · rename_i renames
      apply keeps_setRename slot (direct (fair.1 (Or.inl renames) i o found)) (fair.2 renames)
      intro bytes read
      exact listed (by simp [asked, renames, read])
    · exact stable_pure _

theorem hSetInfo_safe {w : World S} (safe : Safe v cfg.root names w)
    (fair : Fair w (.setInfo req)) (listed : asked (.setInfo req) ⊆ names) :
    Safe v cfg.root names ((hSetInfo v cfg req).run w).2 := by
  cases found : findOpen w.conn req.id with
  | none =>
    simp only [hSetInfo, StateT.run_bind, StateT.run_get, pure_bind, found]
    exact safe
  | some place =>
    obtain ⟨i, o⟩ := place
    simp only [hSetInfo, StateT.run_bind, StateT.run_get, pure_bind, found]
    exact (keeps_setOpen safe found fair listed w safe).1

theorem serve_safe {w w' : World S} {req : Request} (safe : Safe v cfg.root names w)
    (fair : Fair w req)
    (listed : asked req ⊆ names)
    (served : step v cfg w req = some w') : Safe v cfg.root names w' := by
  suffices kept : Safe v cfg.root names ((serve v cfg req).run w).2 by
    cases served
    exact kept
  cases req with
  | treeConnect tree name => exact (keeps_hTreeConnect tree name w safe).1
  | treeDisconnect tree => exact ⟨safe.calls, safe.opens⟩
  | create req room => exact (keeps_hCreate req room (listed List.mem_cons_self) w safe).1
  | close id => exact (keeps_hClose id w safe).1
  | read id offset length => exact (keeps_hRead id offset length w safe).1
  | write id offset bytes => exact (keeps_hWrite id offset bytes w safe).1
  | queryDirectory req => exact (keeps_hQueryDirectory req w safe).1
  | queryInfo id => exact (keeps_hQueryInfo id w safe).1
  | setInfo req => exact hSetInfo_safe safe fair listed
  | destruction => exact (keeps_connFree.done w safe).1

/-- Along every run, a path given to the file system is the share or below it, and whole. -/
theorem served_paths_confined (v : Vfs S) (cfg : Config) (fs : S) (reqs : List Request)
    (w : World S)
    (fair : Along (step v cfg) Fair (start fs) reqs)
    (served : run (step v cfg) (start fs) reqs = some w) :
    ∀ c ∈ w.calls, ∀ path ∈ c.paths,
      Below cfg.root path ∧ Whole v cfg.root (reqs.flatMap asked) path := by
  have begins : Safe v cfg.root (reqs.flatMap asked) (start fs) := by
    refine ⟨nofun, fun o member => ?_⟩
    rw [List.eq_of_mem_replicate member]
    exact slotSafe_empty
  have ends : Safe v cfg.root (reqs.flatMap asked) w := by
    refine run_invariant_along (fun w req w' safe ok served => ?_)
      (fair.mem (List.Subset.refl reqs)) served
      begins
    exact serve_safe safe ok.1 (fun name member => List.mem_flatMap.mpr ⟨req, ok.2, member⟩) served
  exact ends.calls

end Requests

def emptyFs : Vfs Unit where
  stat _ _ := ((), .error .noent)
  openFile _ _ _ := ((), .ok 3)
  opendir _ _ := ((), .ok [])
  mkdir _ _ := ((), none)
  rename _ _ _ := ((), none)
  unlink _ _ := ((), none)
  rmdir _ _ := ((), none)
  utime _ _ := ((), none)
  close _ _ := ()
  ftruncate _ _ _ := ((), none)
  pread _ _ _ _ := ((), .ok [])
  pwrite _ _ bytes _ := ((), .ok bytes.length)
  entry_component := by
    rintro s path names ⟨rfl⟩
    exact nofun

def home : Config :=
  { root := "/home".toList, share := "home".toList, scratch := 65536, stride := 128 }

def opening (name : String) : Request :=
  .create { tree := 1, name := name.toList, disposition := .fileOpenIf, directoryFile := false
            nonDirectoryFile := false, writes := true } true

def setting (infoClass : InfoClass) (input : List UInt8) : SetInfoRequest :=
  { id := ⟨1, 0⟩, infoFile := true, infoClass := infoClass, input := input }

def moveTo (bytes : List UInt8) : SetInfoRequest :=
  setting .rename (List.replicate 16 0 ++ [bytes.length.toUInt8, 0, 0, 0] ++ bytes)

theorem renamed_file_confined :
    ∃ w, run (step emptyFs home) (start ())
    [opening "a\\b", .setInfo (moveTo [99, 0]), .close ⟨1, 0⟩] = some w ∧
      .rename "/home/a/b".toList "/home/c".toList ∈ w.calls ∧
      ∀ c ∈ w.calls, ∀ path ∈ c.paths, Below home.root path ∧
        Whole emptyFs home.root
          ([opening "a\\b", .setInfo (moveTo [99, 0]), .close ⟨1, 0⟩].flatMap asked) path := by
  refine ⟨_, rfl, by decide, served_paths_confined emptyFs home () _ _ ?_ rfl⟩
  refine ⟨trivial, ?_⟩
  rintro _ ⟨rfl⟩
  refine ⟨⟨fun _ i o found => ?_, fun _ bytes read => ?_⟩, fun _ _ => ⟨trivial, fun _ _ => trivial⟩⟩
  · cases found
    rfl
  · cases read
    decide

/-- A pipe is given times by the empty path, and a name is cut at a null. -/
theorem pipe_path_escapes :
    (∃ w, run (step emptyFs home) (start ()) [.treeConnect 1 "IPC$".toList, opening "srvsvc",
        .setInfo (setting .basic (List.replicate 36 1))] = some w ∧
      ∃ c ∈ w.calls, ∃ path ∈ c.paths, ¬ Below home.root path) ∧
    ∃ w, run (step emptyFs home) (start ())
    [opening "x", .setInfo (moveTo [97, 0, 0, 0, 98, 0])] = some w ∧
      ∃ c ∈ w.calls, ∃ path ∈ c.paths,
        ¬ Whole emptyFs home.root
        ([opening "x", .setInfo (moveTo [97, 0, 0, 0, 98, 0])].flatMap asked) path := by
  refine ⟨⟨_, rfl, .utime [], by decide, [], by simp [Call.paths], ?_⟩,
    _, rfl, .rename "/home/x".toList "/home/a".toList, by decide, "/home/a".toList, by
      simp [Call.paths], ?_⟩
  · rintro ⟨starts, -⟩
    exact absurd (List.prefix_nil.mp starts) (by decide)
  · rintro ⟨name, member, same | ⟨entry, ⟨s, path, entries, ⟨rfl⟩, inside⟩, -⟩⟩
    · have none_is :
        ∀ name ∈ [] :: [opening "x", .setInfo (moveTo [97, 0, 0, 0, 98, 0])].flatMap asked,
          "/home/a".toList ≠ fullPath home.root name := by
        decide
      exact none_is name member same
    · cases inside

end Espix.Smbd.Confine
