import Espix.Fs.Vfs
import Espix.Lib.Tally

/-! What an operation of the root VFS can do: whom it calls, and what it leaves alone.

Every operation but a mount's coming and going writes down calls to mounts that are there, and
keeps the books of each file system: an open is paid for by a close or by a slot. -/

namespace Espix.Fs.Effects

open Access Vfs Lib.Tally
open Proc.Root (noFlags)

variable {i : Nat}

section Lookup

def claims (s : State) (p : Path) (i : Nat) : Option Nat :=
  (s.mounts i).bind fun m => if beginsWith p m.point true then some m.point.length else none

theorem closer_eq (s : State) (p : Path) : closer s p = longer (claims s p) := by
  funext best i
  unfold closer longer claims
  cases s.mounts i with
  | none => rfl
  | some m => cases claimed : beginsWith p m.point true <;> simp [claimed]

theorem mountByPath_eq (s : State) (p : Path) :
    mountByPath s p = (mountIndices.foldl (longer (claims s p)) (0, 0)).1 := by
  rw [mountByPath, closer_eq, mountIndices]

theorem mountByPath_used (s : State) (p : Path) :
    mountByPath s p = 0 ∨ mountByPath s p ∈ mountIndices ∧ s.mounts (mountByPath s p) ≠ none := by
  rw [mountByPath_eq]
  refine (longest_place (claims s p) (0, 0) mountIndices).imp_right fun found => ⟨found.1, ?_⟩
  intro unused
  exact found.2 (by simp [claims, unused])

theorem mountAt_used {s : State} {point : Path} (found : mountAt s point = some i) :
    i ∈ mountIndices ∧ ∃ m, s.mounts i = some m ∧ m.point = point := by
  refine ⟨List.mem_of_find?_eq_some found, ?_⟩
  have here := List.find?_some found
  cases used : s.mounts i with
  | none => simp [used] at here
  | some m => exact ⟨m, rfl, by simpa [used] using here⟩

end Lookup

variable {note : Note}

section Books

def opened (log : List Note) (id f : Nat) : Nat :=
  log.countP fun note =>
    match note with
    | .called j .open (.file _ result) => j == id && result == some f
    | _ => false

def closed (log : List Note) (id f : Nat) : Nat := log.count (.called id .close (.fd f))

def live (s : State) (i f : Nat) : Nat :=
  tally fdPlaces s.fds fun slot => slot.mount == i && slot.lowerFd == f

def plain : Note → Bool
  | .called _ .open _ => false
  | .called _ .close _ => false
  | _ => true

theorem opened_plain {log : List Note} (other : plain note = true) (id f : Nat) :
    opened (log ++ [note]) id f = opened log id f := by
  cases note with
  | called j cb arg => cases cb <;> simp_all [opened, plain]
  | checked op p flags result => simp [opened]
  | stamped p stamp => simp [opened]
  | fault => simp [opened]

theorem closed_plain {log : List Note} (other : plain note = true) (id f : Nat) :
    closed (log ++ [note]) id f = closed log id f := by
  have different : note ≠ .called id .close (.fd f) := by
    intro same
    subst same
    cases other
  rw [closed, closed, List.count_append, List.count_singleton, if_neg (by simpa using different),
    Nat.add_zero]

end Books

def ofDir : Callback → Bool
  | .readdir => true
  | .readdirR => true
  | .telldir => true
  | .seekdir => true
  | .closedir => true
  | _ => false

/-- A call goes to a mount that is there and has the function, and to a dead one only for a tracked
directory. -/
def Allowed (s : State) : Note → Prop
  | .called id cb _ =>
    ∃ i m, s.mounts i = some m ∧ m.id = id ∧ m.has cb = true ∧
      (m.dead = false ∨ ofDir cb = true ∧ ∃ k d, k < dirsMax ∧ s.dirMap k = some ⟨d, i⟩)
  | .fault => False
  | _ => True

def Descends (s : State) (key : Nat) (slot : Slot) : Prop :=
  (∃ refs, s.fds key = some { slot with refs := refs }) ∨
    fdOurs key = true ∧ ∃ m, s.mounts slot.mount = some m ∧ m.dead = false

/-- What a part of an operation does that neither mounts nor tracks. -/
structure Moves (s u : State) : Prop where
  mounts : u.mounts = s.mounts
  dirMap : u.dirMap = s.dirMap
  nextId : u.nextId = s.nextId
  slots : ∀ key slot, u.fds key = some slot → Descends s key slot
  log : ∃ new, u.log = s.log ++ new ∧ ∀ note ∈ new, Allowed s note

structure Acts (s u : State) : Prop extends Moves s u where
  books : ∀ i m f, s.mounts i = some m → m.dead = false → m.has .close = true →
    opened u.log m.id f + closed s.log m.id f + live s i f =
      opened s.log m.id f + closed u.log m.id f + live u i f

structure Notes (s u : State) : Prop extends Acts s u where
  fds : u.fds = s.fds
  table : u.table = s.table

def Distinct (s : State) : Prop :=
  ∀ i j m n, s.mounts i = some m → s.mounts j = some n → m.id = n.id → i = j

/-- What the tables refer to is there, and every open is paid for. -/
structure Sound (s : State) : Prop where
  root : s.mounts 0 ≠ none
  slots : ∀ key slot, s.fds key = some slot → fdOurs key = true ∧ s.mounts slot.mount ≠ none
  dirs : ∀ k entry, k < dirsMax → s.dirMap k = some entry → s.mounts entry.mount ≠ none
  ids : ∀ i m, s.mounts i = some m → m.id < s.nextId
  distinct : Distinct s
  noted : ∀ id cb arg, .called id cb arg ∈ s.log → id < s.nextId
  no_fault : .fault ∉ s.log
  books : ∀ i m f, s.mounts i = some m → m.dead = false → m.has .close = true →
    opened s.log m.id f = closed s.log m.id f + live s i f

variable {key : Nat} {slot : Slot} {cb : Callback}

section Acts

variable {s u v : State}

theorem Descends.refl (used : s.fds key = some slot) :
    Descends s key slot := .inl ⟨slot.refs, used⟩

theorem Moves.refl (s : State) : Moves s s where
  mounts := rfl
  dirMap := rfl
  nextId := rfl
  slots _ _ := Descends.refl
  log := ⟨[], by simp, by simp⟩

theorem Acts.refl (s : State) : Acts s s := ⟨Moves.refl s, fun _ _ _ _ _ _ => rfl⟩

theorem Allowed.of_same (mounts : u.mounts = s.mounts) (dirMap : u.dirMap = s.dirMap)
    (allowed : Allowed u note) : Allowed s note := by
  cases note with
  | called id cb arg => simpa only [Allowed, mounts, dirMap] using allowed
  | checked op p flags result => trivial
  | stamped p stamp => trivial
  | fault => exact allowed

theorem Moves.trans (first : Moves s u) (second : Moves u v) : Moves s v where
  mounts := second.mounts.trans first.mounts
  dirMap := second.dirMap.trans first.dirMap
  nextId := second.nextId.trans first.nextId
  slots key slot used := by
    rcases second.slots key slot used with ⟨refs, earlier⟩ | ⟨ours, alive⟩
    · rcases first.slots key _ earlier with ⟨older, earliest⟩ | fresh
      · exact .inl ⟨older, earliest⟩
      · exact .inr fresh
    · rw [first.mounts] at alive
      exact .inr ⟨ours, alive⟩
  log := by
    obtain ⟨new, wrote, allowed⟩ := first.log
    obtain ⟨more, wrote_more, allowed_more⟩ := second.log
    refine ⟨new ++ more, by rw [wrote_more, wrote, List.append_assoc], ?_⟩
    intro note member
    rcases List.mem_append.mp member with early | late
    · exact allowed note early
    · exact (allowed_more note late).of_same first.mounts first.dirMap

theorem Acts.trans (first : Acts s u) (second : Acts u v) : Acts s v where
  toMoves := first.toMoves.trans second.toMoves
  books i m f used alive has := by
    have earlier := first.books i m f used alive has
    have later := second.books i m f (by rw [first.mounts, used]) alive has
    omega

theorem Notes.refl (s : State) : Notes s s := ⟨Acts.refl s, rfl, rfl⟩

theorem Notes.trans (first : Notes s u) (second : Notes u v) : Notes s v :=
  ⟨first.toActs.trans second.toActs, second.fds.trans first.fds, second.table.trans first.table⟩

theorem Sound.acts (sound : Sound s) (acts : Acts s u) : Sound u where
  root := by
    rw [acts.mounts]
    exact sound.root
  slots key slot used := by
    rw [acts.mounts]
    rcases acts.slots key slot used with ⟨refs, earlier⟩ | ⟨ours, m, mounted, _⟩
    · exact ⟨(sound.slots key _ earlier).1, (sound.slots key _ earlier).2⟩
    · exact ⟨ours, by simp [mounted]⟩
  dirs k entry within tracked := by
    rw [acts.mounts]
    exact sound.dirs k entry within (acts.dirMap ▸ tracked)
  ids i m used := by
    rw [acts.nextId]
    exact sound.ids i m (acts.mounts ▸ used)
  distinct i j m n used other := by
    rw [acts.mounts] at used other
    exact sound.distinct i j m n used other
  noted id cb arg member := by
    obtain ⟨new, wrote, allowed⟩ := acts.log
    rw [wrote] at member
    rw [acts.nextId]
    rcases List.mem_append.mp member with old | fresh
    · exact sound.noted id cb arg old
    · obtain ⟨i, m, used, named, _⟩ := allowed _ fresh
      exact named ▸ sound.ids i m used
  no_fault member := by
    obtain ⟨new, wrote, allowed⟩ := acts.log
    rw [wrote] at member
    rcases List.mem_append.mp member with old | fresh
    · exact sound.no_fault old
    · exact allowed _ fresh
  books i m f used alive has := by
    rw [acts.mounts] at used
    have before := sound.books i m f used alive has
    have kept := acts.books i m f used alive has
    omega

theorem acts_table (s : State) (table : Nat → Option Entry) : Acts s { s with table } where
  mounts := rfl
  dirMap := rfl
  nextId := rfl
  slots _ _ := Descends.refl
  log := ⟨[], by simp, by simp⟩
  books _ _ _ _ _ _ := rfl

theorem moves_note (allowed : Allowed s note) : Moves s (s.note [note]) where
  mounts := rfl
  dirMap := rfl
  nextId := rfl
  slots _ _ := Descends.refl
  log := ⟨[note], rfl, by simpa using allowed⟩

theorem notes_note (other : plain note = true) (allowed : Allowed s note) :
    Notes s (s.note [note]) where
  toMoves := moves_note allowed
  books i m f _ _ _ := by
    have opens : opened (s.note [note]).log m.id f = opened s.log m.id f :=
      opened_plain other m.id f
    have closes : closed (s.note [note]).log m.id f = closed s.log m.id f :=
      closed_plain other m.id f
    rw [opens, closes]
    rfl
  fds := rfl
  table := rfl

theorem moves_setFd {entry : Option Slot}
    (kept : ∀ slot, entry = some slot → Descends s key slot) : Moves s (setFd s key entry) where
  mounts := rfl
  dirMap := rfl
  nextId := rfl
  slots other slot held := by
    by_cases here : other = key
    · subst here
      simp only [setFd, Function.update_self] at held
      exact kept slot held
    · simp only [setFd, Function.update_of_ne here] at held
      exact Descends.refl held
  log := ⟨[], by simp [setFd], by simp⟩

theorem acts_refs {refs : Nat} (used : s.fds key = some slot) :
    Acts s (setFd s key (some { slot with refs := refs })) where
  toMoves := moves_setFd fun now held => by
    cases held
    exact .inl ⟨slot.refs, used⟩
  books i m f _ _ _ := by
    have same : live (setFd s key (some { slot with refs := refs })) i f = live s i f :=
      tally_update_same (by rw [used]; rfl) fdPlaces
    rw [same]
    rfl

theorem call_cases (used : s.mounts i ≠ none) (cb : Callback) (arg : Arg) :
    call s i cb arg = s ∧ reaches s i cb = false ∨
      ∃ m, s.mounts i = some m ∧ m.dead = false ∧ m.has cb = true ∧
        call s i cb arg = s.note [.called m.id cb arg] := by
  obtain ⟨m, mounted⟩ := Option.ne_none_iff_exists'.mp used
  simp only [call, reaches, mounted, Option.any_some]
  cases dead : m.dead <;> cases has : m.has cb <;> simp [dead, has]

@[simp] theorem call_fds (s : State) (i : Nat) (cb : Callback) (arg : Arg) :
    (call s i cb arg).fds = s.fds := by
  unfold call
  split
  · rfl
  · split <;> rfl

@[simp] theorem call_table (s : State) (i : Nat) (cb : Callback) (arg : Arg) :
    (call s i cb arg).table = s.table := by
  unfold call
  split
  · rfl
  · split <;> rfl

theorem reaches_used (reached : reaches s i cb = true) : s.mounts i ≠ none := by
  intro unused
  simp [reaches, unused] at reached

theorem reaches_alive (reached : reaches s i cb = true) :
    ∃ m, s.mounts i = some m ∧ m.dead = false := by
  obtain ⟨m, mounted⟩ := Option.ne_none_iff_exists'.mp (reaches_used reached)
  simp only [reaches, mounted, Option.any_some, Bool.and_eq_true, Bool.not_eq_true'] at reached
  exact ⟨m, mounted, reached.1⟩

theorem moves_call (used : s.mounts i ≠ none) (cb : Callback) (arg : Arg) :
    Moves s (call s i cb arg) := by
  rcases call_cases used cb arg with ⟨same, _⟩ | ⟨m, mounted, alive, has, wrote⟩
  · rw [same]
    exact Moves.refl s
  · rw [wrote]
    exact moves_note ⟨i, m, mounted, rfl, has, .inl alive⟩

theorem notes_call (used : s.mounts i ≠ none) (cb : Callback) (not_open : cb ≠ .open)
    (not_close : cb ≠ .close) (arg : Arg) : Notes s (call s i cb arg) := by
  rcases call_cases used cb arg with ⟨same, _⟩ | ⟨m, mounted, alive, has, wrote⟩
  · rw [same]
    exact Notes.refl s
  · rw [wrote]
    refine notes_note ?_ ⟨i, m, mounted, rfl, has, .inl alive⟩
    cases cb <;> first | rfl | contradiction

theorem notes_callDir {k d : Nat} (sound : Sound s) (within : k < dirsMax)
    (tracked : s.dirMap k = some ⟨d, i⟩)
    (of_dir : ofDir cb = true) : Notes s (callDir s i cb d) := by
  obtain ⟨m, mounted⟩ := Option.ne_none_iff_exists'.mp (sound.dirs k _ within tracked)
  simp only [callDir, mounted]
  by_cases answers : m.has cb = true
  · rw [if_pos answers]
    refine notes_note ?_ ⟨i, m, mounted, rfl, answers, .inr ⟨of_dir, k, d, within, tracked⟩⟩
    cases cb <;> first | rfl | contradiction
  · rw [if_neg answers]
    exact Notes.refl s

end Acts

variable {j fd : Nat}

section Files

variable {s : State}

theorem fdOurs_lt (ours : fdOurs key = true) : key < fdPlaces := by
  simp only [fdOurs, Bool.and_eq_true, decide_eq_true_eq] at ours
  exact ours.2

theorem live_setFd (ours : fdOurs key = true) (s : State) (entry : Option Slot)
    (i f : Nat) :
    live (setFd s key entry) i f + ((s.fds key).any fun slot => slot.mount == i &&
      slot.lowerFd == f).toNat =
      live s i f + (entry.any fun slot => slot.mount == i && slot.lowerFd == f).toNat :=
  tally_update (fdOurs_lt ours) s.fds entry _

theorem closed_call (distinct : Distinct s) {f g : Nat} {m : Mount} (used : s.mounts i = some m)
    (alive : m.dead = false) (has : m.has .close = true) (there : s.mounts j ≠ none) :
    closed (call s j .close (.fd g)).log m.id f =
      closed s.log m.id f + (decide (j = i) && decide (g = f)).toNat := by
  rcases call_cases there .close (.fd g) with ⟨same, unreached⟩ | ⟨n, mounted, _, _, wrote⟩
  · have other : j ≠ i := by
      intro here
      subst here
      simp [reaches, used, alive, has] at unreached
    rw [same]
    simp [other]
  · rw [wrote, State.note, closed, closed, List.count_append, List.count_singleton]
    by_cases here : j = i
    · subst here
      rw [used, Option.some.injEq] at mounted
      subst mounted
      by_cases number : g = f <;> simp [number]
    · have different : n.id ≠ m.id := fun same => here (distinct j i n m mounted used same)
      simp [here, different]

theorem opened_close {g : Nat} (there : s.mounts j ≠ none) (id f : Nat) :
    opened (call s j .close (.fd g)).log id f = opened s.log id f := by
  rcases call_cases there .close (.fd g) with ⟨same, _⟩ | ⟨n, _, _, _, wrote⟩
  · rw [same]
  · rw [wrote]
    simp [State.note, opened]

theorem acts_release (sound : Sound s) (ours : fdOurs key = true) (used : s.fds key = some slot) :
    Acts s (setFd (call s slot.mount .close (.fd slot.lowerFd)) key none) := by
  have there := (sound.slots key slot used).2
  have below := moves_call there .close (.fd slot.lowerFd)
  refine ⟨below.trans (moves_setFd fun _ impossible => by cases impossible), ?_⟩
  intro i m f mounted alive has
  have closes := closed_call sound.distinct (f := f) (g := slot.lowerFd) mounted alive has there
  have opens := opened_close (g := slot.lowerFd) there m.id f
  have slots := live_setFd ours (call s slot.mount .close (.fd slot.lowerFd)) none i f
  have unmoved : live (call s slot.mount .close (.fd slot.lowerFd)) i f = live s i f := by
    simp [live]
  rw [call_fds, used, unmoved] at slots
  simp only [Option.any_some, Option.any_none, Bool.toNat_false, Nat.add_zero,
    beq_eq_decide] at slots
  change opened (call s slot.mount .close (.fd slot.lowerFd)).log m.id f + _ + _ =
    _ + closed (call s slot.mount .close (.fd slot.lowerFd)).log m.id f + _
  omega

theorem acts_vfsClose (sound : Sound s) (key : Nat) : Acts s (vfsClose s key) := by
  fun_cases vfsClose s key with
  | case1 | case2 => exact Acts.refl s
  | case3 ours slot used => exact acts_refs used
  | case4 ours slot used => exact acts_release sound (by simp_all) used

theorem opened_call (distinct : Distinct s) {f : Nat} {m : Mount} (used : s.mounts i = some m)
    (reached : reaches s j .open = true) (p : Path) (answer : Option Nat) :
    opened (call s j .open (.file p answer)).log m.id f =
      opened s.log m.id f + (decide (j = i) && decide (answer = some f)).toNat := by
  have there := reaches_used reached
  rcases call_cases there .open (.file p answer) with ⟨_, unreached⟩ | ⟨n, mounted, _, _, wrote⟩
  · rw [reached] at unreached
    cases unreached
  · rw [wrote, State.note, opened, opened, List.countP_append, List.countP_singleton]
    by_cases here : j = i
    · subst here
      rw [used, Option.some.injEq] at mounted
      subst mounted
      by_cases number : answer = some f <;> simp [number]
    · have different : n.id ≠ m.id := fun same => here (distinct j i n m mounted used same)
      simp [here, different]

theorem closed_open (there : s.mounts j ≠ none) (arg : Arg) (id f : Nat) :
    closed (call s j .open arg).log id f = closed s.log id f := by
  rcases call_cases there .open arg with ⟨same, _⟩ | ⟨n, _, _, _, wrote⟩
  · rw [same]
  · rw [wrote]
    simp [State.note, closed]

theorem notes_fsClaim (env : Env) (s : State) (p : Path) (mode : Nat) :
    Notes s (fsClaim env s p mode) := by
  fun_cases fsClaim env s p mode with
  | case4 => exact notes_note rfl trivial
  | _ => exact Notes.refl s

theorem fdSlotAlloc_spec {lowerFd mount : Nat} {owner : Option Nat} {u : State}
    (found : fdSlotAlloc s lowerFd mount owner = some (key, u)) :
    fdOurs key = true ∧ s.fds key = none ∧ u = setFd s key (some ⟨lowerFd, mount, owner, 1⟩) := by
  obtain ⟨free, first, given⟩ := Option.map_eq_some_iff.mp found
  obtain ⟨rfl, rfl⟩ := Prod.mk.inj given
  have within := List.mem_range'_1.mp (List.mem_of_find?_eq_some first)
  have unused := List.find?_some first
  refine ⟨?_, by simpa using unused, rfl⟩
  simp only [fdOurs, Bool.and_eq_true, decide_eq_true_eq]
  exact within

/-- What an open hands to ESP-IDF: nothing, a slot of a tree, or the key of a new slot. -/
inductive Gives (s u : State) : Option Nat → Prop
  | nothing (same : u.fds = s.fds) : Gives s u none
  | tree (key : Nat) (other : fdOurs key = false) (same : u.fds = s.fds) : Gives s u (some key)
  | file (key : Nat) (slot : Slot) (ours : fdOurs key = true) (free : s.fds key = none)
      (one : slot.refs = 1) (taken : u.fds = Function.update s.fds key (some slot)) :
      Gives s u (some key)

theorem Gives.of_same {u v : State} {given : Option Nat} (gives : Gives u v given)
    (same : u.fds = s.fds) : Gives s v given := by
  cases gives with
  | nothing kept => exact .nothing (kept.trans same)
  | tree key other kept => exact .tree key other (kept.trans same)
  | file key slot ours free one taken =>
    exact .file key slot ours (same ▸ free) one (same ▸ taken)

structure Opening (s u : State) (i fd : Nat) : Prop extends Moves s u where
  fds : u.fds = s.fds
  alive : ∃ m, s.mounts i = some m ∧ m.dead = false
  opens : ∀ j m f, s.mounts j = some m →
    opened u.log m.id f = opened s.log m.id f + (decide (i = j) && decide (fd = f)).toNat
  closes : ∀ j m f, s.mounts j = some m → closed u.log m.id f = closed s.log m.id f

theorem opening_call (sound : Sound s) (reached : reaches s i .open = true) (p : Path)
    (fd : Nat) : Opening s (call s i .open (.file p (some fd))) i fd where
  toMoves := moves_call (reaches_used reached) .open _
  fds := call_fds s i .open _
  alive := reaches_alive reached
  opens j m f used := by simpa using opened_call sound.distinct used reached p (some fd)
  closes j m f _ := closed_open (reaches_used reached) _ m.id f

theorem Opening.closed_again {u : State} (sound : Sound s) (opening : Opening s u i fd) :
    Acts s (call u i .close (.fd fd)) := by
  have there : u.mounts i ≠ none := by
    obtain ⟨m, mounted, _⟩ := opening.alive
    simp [opening.mounts, mounted]
  have distinct : Distinct u := by
    unfold Distinct
    rw [opening.mounts]
    exact sound.distinct
  refine ⟨opening.toMoves.trans (moves_call there .close (.fd fd)), ?_⟩
  intro j m f used alive has
  have mounted : u.mounts j = some m := by rw [opening.mounts, used]
  have closes := closed_call distinct (f := f) (g := fd) mounted alive has there
  have opens := opened_close (g := fd) there m.id f
  have slots : live (call u i .close (.fd fd)) j f = live s j f := by simp [live, opening.fds]
  have opens_first := opening.opens j m f used
  have closes_first := opening.closes j m f used
  omega

theorem Opening.held {u : State} (opening : Opening s u i fd)
    (ours : fdOurs key = true) (free : u.fds key = none) (owner : Option Nat) :
    Acts s (setFd u key (some ⟨fd, i, owner, 1⟩)) := by
  have alive : Descends u key ⟨fd, i, owner, 1⟩ := by
    rw [Descends, opening.mounts]
    exact .inr ⟨ours, opening.alive⟩
  refine ⟨opening.toMoves.trans (moves_setFd fun slot same => by cases same; exact alive), ?_⟩
  intro j m f used _ _
  have slots := live_setFd ours u (some ⟨fd, i, owner, 1⟩) j f
  have unmoved : live u j f = live s j f := by simp [live, opening.fds]
  simp only [free, Option.any_none, Option.any_some, Bool.toNat_false, Nat.add_zero, beq_eq_decide]
    at slots
  have opens := opening.opens j m f used
  have closes := opening.closes j m f used
  change opened u.log m.id f + _ + _ = _ + closed u.log m.id f + _
  omega

theorem keepOpened_spec (sound : Sound s) {u : State} (opening : Opening s u i fd)
    (env : Env) (p : Path) (flags : OpenFlags) (mode : Nat) :
    Acts s (keepOpened env u p flags mode i fd).1 ∧
      Gives s (keepOpened env u p flags mode i fd).1 (keepOpened env u p flags mode i fd).2 := by
  have nowhere : Gives s (call u i .close (.fd fd)) none := .nothing (by rw [call_fds, opening.fds])
  unfold keepOpened
  split
  · exact ⟨opening.closed_again sound, nowhere⟩
  · split
    · exact ⟨opening.closed_again sound, nowhere⟩
    · rename_i key w found
      obtain ⟨ours, free, rfl⟩ := fdSlotAlloc_spec found
      have held := opening.held ours free env.pid
      have file : Gives s (setFd u key (some ⟨fd, i, env.pid, 1⟩)) (some key) :=
        .file key _ ours (by rw [← opening.fds, free]) rfl (by rw [setFd, opening.fds])
      split
      · refine ⟨held.trans (notes_fsClaim env _ p mode).toActs, ?_⟩
        exact .file key _ ours (by rw [← opening.fds, free]) rfl
          (by rw [(notes_fsClaim ..).fds, setFd, opening.fds])
      · exact ⟨held, file⟩

theorem openBelow_spec (sound : Sound s) (env : Env) (p : Path) (flags : OpenFlags) (mode : Nat)
    (lower : Option Nat) :
    Acts s (openBelow env s p flags mode lower).1 ∧
      Gives s (openBelow env s p flags mode lower).1 (openBelow env s p flags mode lower).2 := by
  unfold openBelow
  dsimp only
  split
  · rename_i reached
    cases lower with
    | none =>
      have there := reaches_used reached
      refine ⟨⟨moves_call there .open _, ?_⟩, .nothing (call_fds s _ .open _)⟩
      intro j m f used _ _
      dsimp only
      have opens := opened_call sound.distinct (f := f) used reached p none
      have closes := closed_open there (.file p none) m.id f
      have slots : live (call s (mountByPath s p) .open (.file p none)) j f = live s j f := by
        simp [live]
      simp only [reduceCtorEq, decide_false, Bool.and_false, Bool.toNat_false] at opens
      omega
    | some fd => exact keepOpened_spec sound (opening_call sound reached p fd) env p flags mode
  · exact ⟨Acts.refl s, .nothing rfl⟩

end Files

section Paths

variable {s : State} (sound : Sound s) (t : Trees) (env : Env)

include sound

theorem Sound.mounted (p : Path) : s.mounts (mountByPath s p) ≠ none := by
  rcases mountByPath_used s p with root | other
  · rw [root]
    exact sound.root
  · exact other.2

theorem notes_onPath (p : Path) (cb : Callback) (not_open : cb ≠ .open) (not_close : cb ≠ .close)
    (arg : Arg) : Notes s (call s (mountByPath s p) cb arg) :=
  notes_call (sound.mounted p) cb not_open not_close arg

omit sound in
theorem notes_checked (s : State) (op : Op) (p : Path) (flags : OpenFlags) (result : Option Errno) :
    Notes s (s.note [.checked op p flags result]) := notes_note rfl trivial

theorem notes_onName (refused : Path → Bool) (op : Op) (not_open : cb ≠ .open)
    (not_close : cb ≠ .close) (path : Path) : Notes s (onName env refused op cb s path) := by
  fun_cases onName env refused op cb s path with
  | case1 | case2 => exact Notes.refl s
  | case3 p => exact notes_checked s op p noFlags _
  | case4 p _ _ result =>
    have asked := notes_checked s op p noFlags result
    exact asked.trans (notes_onPath (sound.acts asked.toActs) p cb not_open not_close (.path p))

theorem notes_vfsRename (src dst : Path) : Notes s (vfsRename t env s src dst) := by
  have asked := fun p => notes_checked s .rename p noFlags (fsAccessCheck env p .rename noFlags)
  have again :=
    fun p q =>
    (asked p).trans (notes_checked _ .rename q noFlags (fsAccessCheck env q .rename noFlags))
  fun_cases vfsRename t env s src dst with
  | case1 | case6 => exact Notes.refl s
  | case2 p => exact asked p
  | case3 p q | case5 p q => exact again p q
  | case4 p q =>
    exact (again p q).trans (notes_onPath (sound.acts (again p q).toActs) p .rename
      (by decide) (by decide) _)

theorem notes_vfsMkdir (path : Path) (mode : Nat) (made : Bool) :
    Notes s (vfsMkdir env s path mode made) := by
  have asked := fun p => notes_checked s .mkdir p noFlags (fsAccessCheck env p .mkdir noFlags)
  have below := fun p =>
    (asked p).trans (notes_onPath (sound.acts (asked p).toActs) p .mkdir (by decide)
      (by decide) (.path p))
  fun_cases vfsMkdir env s path mode made with
  | case1 | case2 => exact Notes.refl s
  | case3 p => exact asked p
  | case4 p => exact (below p).trans (notes_fsClaim env _ p mode)
  | case5 p => exact below p

theorem notes_vfsUtime (path : Path) : Notes s (vfsUtime t env s path) := by
  fun_cases vfsUtime t env s path with
  | case1 | case2 => exact Notes.refl s
  | case3 p => exact notes_onPath sound p .utime (by decide) (by decide) _

theorem notes_vfsStat (path : Path) : Notes s (vfsStat t env s path) := by
  fun_cases vfsStat t env s path with
  | case1 | case2 => exact Notes.refl s
  | case3 p => exact notes_onPath sound p .stat (by decide) (by decide) _

theorem vfsOpen_spec (path : Path) (flags : OpenFlags) (mode : Nat) (answer : OpenAnswer) :
    Acts s (vfsOpen t env s path flags mode answer).1 ∧
      Gives s (vfsOpen t env s path flags mode answer).1
      (vfsOpen t env s path flags mode answer).2 := by
  have asked := fun p => (notes_checked s .open p flags (fsAccessCheck env p .open flags)).toActs
  fun_cases vfsOpen t env s path flags mode answer with
  | case1 => exact ⟨Acts.refl s, .nothing rfl⟩
  | case2 p | case4 p => exact ⟨asked p, .nothing rfl⟩
  | case3 p =>
    cases answer.synth with
    | none => exact ⟨asked p, .nothing rfl⟩
    | some n =>
      refine ⟨asked p, .tree (synthFdBase + n) ?_ rfl⟩
      rw [fdOurs, Bool.and_eq_false_iff]
      exact .inr (decide_eq_false (by unfold fdBase fdMax synthFdBase; omega))
  | case5 p =>
    have below := openBelow_spec (sound.acts (asked p)) env p flags mode answer.lower
    exact ⟨(asked p).trans below.1, below.2.of_same rfl⟩

end Paths

end Espix.Fs.Effects
