import Espix.Nfsd.Confine

/-! Where `fh_make` puts a handle, and whether the handle leads back.

The encoder writes `FH_LEN` bytes wherever its caller points. The NFS procedures pass arrays of
that length; `handle_mount` passes one of sixteen. -/

namespace Espix.Nfsd.Minting

open Fs.Access (Path)
open Lib.Run Lib.SlotTable Exports
open Handles hiding Event step boot
open Confine (length_asked_le)
open Requests

def mountCap : Nat := 16

/-- The stores of `fh_make`, as offsets in its caller's buffer: the clearing, then the bytes. -/
def fhStores (fh : Handle) : List (Nat × UInt8) :=
  (List.range fhLen).map (fun i => (i, 0)) ++ fh.zipIdx.map fun b => (b.2, b.1)

def store (mem : Nat → UInt8) (s : Nat × UInt8) : Nat → UInt8 := Function.update mem s.1 s.2

def load (mem : Nat → UInt8) (n : Nat) : List UInt8 := (List.range n).map mem

def made (w : World) : Event → List Handle
  | .nfs peer call answers =>
    (makeAll answers.heap (asked w.server peer answers call).1 w.server.table
      (asked w.server peer answers call).2).2
  | .mnt src dir heap =>
    match mountable w.server src dir with
    | none => []
    | some (e, path) => (fhMake heap w.server.table e path).2.toList
  | .umnt .. | .umntall _ | .reload _ => []

/-- The room that a step's caller of `fh_make` has: `child[FH_LEN]` and `cfh[FH_LEN]` in the NFS
procedures. -/
def callerCap (cap : Nat) : Event → Nat
  | .mnt .. => cap
  | _ => fhLen

def InBuffer (cap : Nat) (w : World) (e : Event) : Prop :=
  ∀ fh ∈ made w e, ∀ s ∈ fhStores fh, s.1 < callerCap cap e

def RoundTrip (w : World) (e : Event) : Prop :=
  ∀ src dir heap exp path fh, e = .mnt src dir heap →
  mountable w.server src dir = some (exp, path) →
    (fhMake heap w.server.table exp path).2 = some fh → ∀ w', step w e = some w' → ∀ mem cred,
      ∃ rule, fhResolve w'.server.exports ⟨src, cred⟩ w'.server.table
        (load ((fhStores fh).foldl store mem) fhLen) = some ⟨exp, path, rule⟩

/-- A new slot's number is not zero, or no other slot is unused. -/
def Recalls (heap : Bool) (t : Table) (path : Path) : Prop :=
  ∀ slots, slotsEnsure heap t = some slots → holder slots path = none → t.nextId % idBound = 0 →
    ∀ slot ∈ slots.dropLast, slot.id ≠ 0

/-- The buffer of MNT holds a handle, and the number in it stands for one path. -/
def Sized (cap : Nat) (w : World) (e : Event) : Prop :=
  ∀ src dir heap exp path slots, e = .mnt src dir heap →
    mountable w.server src dir = some (exp, path) → slotsEnsure heap w.server.table = some slots →
      fhLen ≤ cap ∧ Recalls heap w.server.table path

/-- `s_cursor` does not overflow. -/
def Room (w : World) : Event → Prop
  | .nfs _ _ answers => w.server.table.cursor + (answers.listing.length + 1) ≤ cursorMax
  | .mnt .. => w.server.table.cursor + 1 ≤ cursorMax
  | .umnt .. | .umntall _ | .reload _ => True

section Stores

variable {fh : Handle} {mem : Nat → UInt8}

theorem foldl_store_zipIdx (bytes : List UInt8) (mem : Nat → UInt8) (k i : Nat) :
    ((bytes.zipIdx k).map fun b => (b.2, b.1)).foldl store mem i =
      if k ≤ i then (bytes[i - k]?).getD (mem i) else mem i := by
  induction bytes generalizing mem k with
  | nil => simp
  | cons b bytes ih =>
    simp only [List.zipIdx_cons, List.map_cons, List.foldl_cons]
    rw [ih]
    rcases Nat.lt_trichotomy i k with below | rfl | above
    · have other : i ≠ k := below.ne
      simp [store, Nat.not_le.mpr below, Nat.not_le.mpr (Nat.lt_succ_of_lt below),
        Function.update_of_ne other]
    · simp [store]
    · have other : i ≠ k := above.ne'
      have shift : i - k = (i - (k + 1)) + 1 := by omega
      simp [store, above.le, Nat.succ_le_of_lt above, shift, Function.update_of_ne other]

theorem load_fhStores (length : fh.length = fhLen) (mem : Nat → UInt8) :
    load ((fhStores fh).foldl store mem) fhLen = fh := by
  apply List.ext_getElem
  · simp [load, length]
  · intro i inside _
    have below : i < fh.length := by simpa [load, length] using inside
    simp only [load, List.getElem_map, List.getElem_range, fhStores, List.foldl_append]
    rw [foldl_store_zipIdx]
    simp [below]

theorem fhStores_inside {cap : Nat} (length : fh.length = fhLen) :
    (∀ s ∈ fhStores fh, s.1 < cap) ↔ fhLen ≤ cap := by
  constructor
  · intro inside
    have last :=
      inside (fhLen - 1, 0) (List.mem_append_left _ (List.mem_map.mpr ⟨fhLen - 1, by decide, rfl⟩))
    simp only [fhLen] at last ⊢
    omega
  · intro fits s member
    refine Nat.lt_of_lt_of_le ?_ fits
    rcases List.mem_append.mp member with clearing | byte
    · obtain ⟨i, inside, rfl⟩ := List.mem_map.mp clearing
      exact List.mem_range.mp inside
    · obtain ⟨⟨b, i⟩, indexed, rfl⟩ := List.mem_map.mp byte
      obtain ⟨_, below, _⟩ := List.mem_zipIdx indexed
      rw [length] at below
      simpa using below

end Stores

/-- A slot that no turn has used is empty: the turns with number zero are the last slot's. -/
def Blank (slots : List (Slot Path)) : Prop :=
  ∀ i slot, slots[i]? = some slot → slot.id = 0 → i + 1 < pathSlots → slot.val = []

structure Ready (t : Table) : Prop where
  counted : Counted t
  blank : ∀ slots, t.slots = some slots → Blank slots

section Table

variable {t u : Table} {heap : Bool} {exp : Nat} {path : Path} {fh : Handle}
    {slots : List (Slot Path)}

theorem Ready.ensure (ready : Ready t) (table : slotsEnsure heap t = some slots) : Blank slots := by
  rcases slotsEnsure_some table with present | rfl
  · exact ready.blank _ present
  · intro i slot here _ _
    rw [(List.mem_replicate.mp (List.mem_of_getElem? here)).2]

theorem last_turn (counted : Counted t) (zero : t.nextId % idBound = 0) :
    t.cursor % pathSlots = pathSlots - 1 := by
  rw [counted.next] at zero
  simp only [idBound, pathSlots] at *
  omega

theorem Ready.make (ready : Ready t) (small : t.cursor < cursorMax) :
    Ready (fhMake heap t exp path).1 := by
  refine ⟨ready.counted.make small, ?_⟩
  fun_cases fhMake heap t exp path with
  | case1 => exact ready.blank
  | case2 old table =>
    rintro _ ⟨⟩
    exact ready.ensure table
  | case3 old table =>
    obtain ⟨length, -⟩ := ready.counted.ensure table
    rintro _ ⟨⟩
    intro i slot here zero inside
    rw [getElem?_put, length] at here
    split at here
    · rename_i own
      split at here
      · cases here
        have last := last_turn ready.counted zero
        omega
      · cases here
    · exact ready.ensure table i slot here zero inside

theorem lookup_zero (length : slots.length = pathSlots) {turn : Nat}
    (last : turn % pathSlots = pathSlots - 1) :
    lookup (put slots turn 0 path) 0 =
      some (((slots.dropLast.find? (·.id == 0)).map (·.val)).getD path) := by
  have split_last : put slots turn 0 path = slots.dropLast ++ [⟨0, path⟩] := by
    have some_slot : slots ≠ [] := by
      rintro rfl
      simp [pathSlots] at length
    have place : turn % slots.length = slots.dropLast.length := by
      rw [length, last, List.length_dropLast, length]
    calc put slots turn 0 path
      _ = (slots.dropLast ++ [slots.getLast some_slot]).set slots.dropLast.length ⟨0, path⟩ := by
        rw [put, place, List.dropLast_append_getLast some_slot]
      _ = slots.dropLast ++ [slots.getLast some_slot].set 0 ⟨0, path⟩ := by
        rw [List.set_append_right _ _ le_rfl, Nat.sub_self]
      _ = slots.dropLast ++ [⟨0, path⟩] := rfl
  rw [lookup, split_last, List.find?_append]
  cases slots.dropLast.find? (·.id == 0) <;> simp

theorem lookup_zero_iff (blank : Blank slots) (length : slots.length = pathSlots) {turn : Nat}
    (last : turn % pathSlots = pathSlots - 1) (named : path ≠ []) :
    lookup (put slots turn 0 path) 0 = some path ↔ ∀ slot ∈ slots.dropLast, slot.id ≠ 0 := by
  rw [lookup_zero length last]
  cases found : slots.dropLast.find? (·.id == 0) with
  | none =>
    rw [List.find?_eq_none] at found
    simpa using found
  | some slot =>
    have member := List.mem_of_find?_eq_some found
    have zero : slot.id = 0 := by simpa using List.find?_some found
    obtain ⟨i, inside, here⟩ := List.mem_iff_getElem.mp member
    have empty : slot.val = [] := by
      rw [List.length_dropLast, length] at inside
      refine blank i slot ?_ zero (by omega)
      rw [← here, List.getElem_dropLast]
      exact List.getElem?_eq_getElem _
    constructor
    · intro same
      exact absurd (Option.some.inj same) (by simpa [empty] using named.symm)
    · intro used
      exact absurd zero (used slot member)

theorem made_recalls_iff (ready : Ready t) (fits : path.length < pathCap) (named : path ≠ [])
    (minted : fhMake heap t exp path = (u, some fh)) :
    fh.length = fhLen ∧ ∃ id slots, fhKey fh = some (exp % 256, id) ∧ u.slots = some slots ∧
      (lookup slots id = some path ↔ Recalls heap t path) := by
  have room : pathSlots ≤ idBound := by decide
  revert minted
  fun_cases fhMake heap t exp path with
  | case1 => rintro ⟨⟩
  | case2 old table slot held =>
    rintro ⟨⟩
    obtain ⟨length, numbered⟩ := ready.counted.ensure table
    obtain ⟨only, -, turn, -, -, number⟩ := numbered.only_holder (by omega) held
    have short : slot.id < idBound := by
      rw [number]
      exact Nat.mod_lt _ (by decide)
    obtain ⟨member, -, value⟩ := holder_spec held
    have present : ⟨slot.id, path⟩ ∈ old := value ▸ member
    refine ⟨length_fhBytes _ _ _, slot.id, old, fhKey_fhBytes exp path short, rfl, ?_⟩
    refine iff_of_true (only.lookup_mem present) ?_
    intro slots again fresh
    rw [table] at again
    cases again
    rw [held] at fresh
    cases fresh
  | case3 old table held id =>
    obtain ⟨length, numbered⟩ := ready.counted.ensure table
    rw [List.take_of_length_le (by omega)]
    rintro ⟨⟩
    refine ⟨length_fhBytes _ _ _, id, _, fhKey_fhBytes exp path (Nat.mod_lt _ (by decide)), rfl, ?_⟩
    by_cases zero : id = 0
    · rw [zero, lookup_zero_iff (ready.ensure table) length (last_turn ready.counted zero) named]
      constructor
      · intro used slots again _ _
        rw [table] at again
        cases again
        exact used
      · intro recalls
        exact recalls old table held zero
    · refine iff_of_true ?_ fun _ _ _ is_zero => absurd is_zero zero
      have inside : t.cursor % old.length < old.length := Nat.mod_lt _ (by rw [length]; decide)
      simp only [id, ready.counted.next] at zero ⊢
      exact (numbered.only_put (by omega) zero).lookup_mem (List.mem_set inside _)

theorem Ready.makeAll (ready : Ready t) (heap : Bool) (exp : Nat) {paths : List Path}
    (small : t.cursor + paths.length ≤ cursorMax) :
    Ready (makeAll heap exp t paths).1 ∧
    ∀ fh ∈ (makeAll heap exp t paths).2, fh.length = fhLen := by
  induction paths generalizing t with
  | nil => exact ⟨ready, nofun⟩
  | cons path paths ih =>
    rw [List.length_cons] at small
    have grows : (fhMake heap t exp path).1.cursor ≤ t.cursor + 1 := by
      unfold fhMake
      split
      · exact Nat.le_succ _
      · split
        · exact Nat.le_succ _
        · exact le_rfl
    have after_one : Ready (fhMake heap t exp path).1 := ready.make (by omega)
    obtain ⟨after, lengths⟩ := ih after_one (by omega)
    refine ⟨after, ?_⟩
    intro fh member
    rcases List.mem_append.mp member with first | later
    · have minted := Option.mem_toList.mp first
      unfold fhMake at minted
      split at minted
      · cases minted
      · split at minted <;>
        · cases minted
          exact length_fhBytes _ _ _
    · exact lengths fh later

end Table

section Steps

variable {w w' : World} {e : Event}

theorem room_asked {peer : Peer} {call : Call} {answers : Answers}
    (room : Room w (.nfs peer call answers)) :
    w.server.table.cursor + (asked w.server peer answers call).2.length ≤ cursorMax := by
  have few : (asked w.server peer answers call).2.length ≤ answers.listing.length + 1 :=
    length_asked_le
  simp only [Room] at room
  omega

structure Served (w : World) : Prop where
  ready : Ready w.server.table
  few : w.server.exports.length ≤ maxExports

theorem served_boot : Served boot := ⟨⟨Counted.boot, nofun⟩, by decide⟩

theorem Served.unmounted (served : Served w) (mounted : List Mount) :
    Served { w with server := unmounted w.server mounted } := by
  unfold Requests.unmounted
  by_cases last : nothingMounted mounted
  · simp only [last, if_true]
    exact ⟨⟨⟨served.ready.counted.next, nofun⟩, nofun⟩, served.few⟩
  · simp only [last]
    exact ⟨served.ready, served.few⟩

theorem served_step (served : Served w) (room : Room w e) (next : step w e = some w') :
    Served w' := by
  revert room next
  fun_cases step w e with
  | case1 peer call answers exp paths asks made =>
    rintro room ⟨⟩
    have few := room_asked room
    rw [asks] at few
    exact ⟨(served.ready.makeAll _ _ few).1, served.few⟩
  | case4 =>
    rintro room ⟨⟩
    exact ⟨served.ready.make (Nat.lt_of_succ_le room), served.few⟩
  | case6 | case7 =>
    rintro - ⟨⟩
    exact served.unmounted _
  | case8 exports =>
    rintro - ⟨⟩
    exact ⟨served.ready, List.length_take_le _ _⟩
  | _ =>
    rintro - ⟨⟩
    exact served

theorem resolves_iff {exports : List Export} {t : Table} {fh : Handle} {src exp id : Nat}
    {x : Export}
    {rule : Client} {slots : List (Slot Path)} (key : fhKey fh = some (exp, id))
    (exported : exports[exp]? = some x)
    (listed : ruleFor x src = some rule) (table : t.slots = some slots) (cred : Option (Nat × Nat))
    (path : Path) :
    (∃ rule, fhResolve exports ⟨src, cred⟩ t fh = some ⟨exp, path, rule⟩) ↔
    lookup slots id = some path := by
  simp only [fhResolve, fhRule, key, exported, listed, table, Option.map_some, Option.bind_some,
    Option.map_eq_some_iff, Resolved.mk.injEq, true_and]
  constructor
  · rintro ⟨_, found, present, rfl, _⟩
    exact present
  · intro present
    exact ⟨rule, path, present, rfl, rfl⟩

theorem mnt_safe_iff (cap : Nat) (served : Served w) {src exp : Nat} {dir path : Path} {heap : Bool}
    {fh : Handle} (mounts : mountable w.server src dir = some (exp, path))
    (minted : (fhMake heap w.server.table exp path).2 = some fh) :
    InBuffer cap w (.mnt src dir heap) ∧ RoundTrip w (.mnt src dir heap) ↔
      fhLen ≤ cap ∧ Recalls heap w.server.table path := by
  obtain ⟨x, rule, exported, rfl, listed⟩ := Confine.mountable_spec mounts
  obtain ⟨length, id, slots, key, table, recalls⟩ :=
    made_recalls_iff served.ready (Nat.lt_trans x.fits (by decide)) x.named (Prod.ext rfl minted)
  have below : exp < maxExports :=
    Nat.lt_of_lt_of_le (List.getElem?_eq_some_iff.mp exported).1 served.few
  rw [Nat.mod_eq_of_lt (by simp only [maxExports] at below; omega)] at key
  have answered : step w (.mnt src dir heap) = some
      ⟨{ w.server with
          table := (fhMake heap w.server.table exp x.path).1
          mounted := mountAdd w.server.mounted src exp }, w.given ++ [fh]⟩ := by
    simp only [step, mounts, minted]
  have only : made w (.mnt src dir heap) = [fh] := by simp [made, mounts, minted]
  refine and_congr ?_ ?_
  · rw [← fhStores_inside length, InBuffer, only]
    exact List.forall_mem_singleton
  · rw [← recalls, ← resolves_iff key exported listed table none x.path]
    constructor
    · intro trip
      obtain ⟨found, resolved⟩ :=
        trip src dir heap exp x.path fh rfl mounts minted _ answered (fun _ => 0) none
      rw [load_fhStores length] at resolved
      exact ⟨found, resolved⟩
    · rintro present _ _ _ _ _ _ ⟨⟩ again made_again w' next mem cred
      rw [mounts] at again
      cases again
      rw [minted] at made_again
      cases made_again
      rw [answered] at next
      cases next
      rw [load_fhStores length, resolves_iff key exported listed table]
      exact (resolves_iff key exported listed table none x.path).mp present

theorem fhMake_some_iff {heap : Bool} {t : Table} {exp : Nat} {path : Path} :
    (∃ fh, (fhMake heap t exp path).2 = some fh) ↔ ∃ slots, slotsEnsure heap t = some slots := by
  rw [fhMake]
  split
  · rename_i none
    simp [none]
  · rename_i slots ensured
    split <;> simp [ensured]

theorem safe_iff (cap : Nat) (served : Served w) (room : Room w e) :
    InBuffer cap w e ∧ RoundTrip w e ↔ Sized cap w e := by
  cases e with
  | mnt src dir heap =>
    by_cases mints : ∃ exp path fh, mountable w.server src dir = some (exp, path) ∧
        (fhMake heap w.server.table exp path).2 = some fh
    · obtain ⟨exp, path, fh, mounts, minted⟩ := mints
      rw [mnt_safe_iff cap served mounts minted]
      constructor
      · rintro both _ _ _ _ _ _ ⟨⟩ found _
        rw [mounts] at found
        cases found
        exact both
      · intro sized
        obtain ⟨slots, ensured⟩ := fhMake_some_iff.mp ⟨fh, minted⟩
        exact sized src dir heap exp path slots rfl mounts ensured
    · refine iff_of_true ⟨fun fh member => ?_, ?_⟩ ?_
      · simp only [made] at member
        split at member
        · cases member
        · rename_i mounts
          exact absurd ⟨_, _, fh, mounts, Option.mem_toList.mp member⟩ mints
      · rintro _ _ _ exp path fh ⟨⟩ mounts minted
        exact absurd ⟨exp, path, fh, mounts, minted⟩ mints
      · rintro _ _ _ exp path slots ⟨⟩ mounts ensured
        obtain ⟨fh, minted⟩ := fhMake_some_iff.mpr ⟨slots, ensured⟩
        exact absurd ⟨exp, path, fh, mounts, minted⟩ mints
  | nfs peer call answers =>
    refine iff_of_true ⟨?_, nofun⟩ nofun
    have lengths := (served.ready.makeAll answers.heap (asked w.server peer answers call).1
      (room_asked room)).2
    intro fh member
    exact (fhStores_inside (lengths fh member)).mpr le_rfl
  | umnt src dir | umntall src | reload exports => exact iff_of_true ⟨nofun, nofun⟩ nofun

end Steps

/-- Along every run, handles are written inside the caller's buffer and lead back from MNT exactly
if MNT's buffer holds one, and no MNT takes the number zero while another slot is unused. -/
theorem minting_safe_iff (cap : Nat) {es : List Event} (room : Along step Room boot es) :
    Along step (fun w e => InBuffer cap w e ∧ RoundTrip w e) boot es ↔
    Along step (Sized cap) boot es :=
  Along.congr (fun _ _ _ served room next => served_step served room next)
    (fun _ _ served room => safe_iff cap served room) served_boot room

/-- With a buffer of the handle's length. -/
theorem mount_in_a_long_buffer :
    Along step Room boot [.reload [wholeDisk], .mnt 0 "/".toList true] ∧
      Along step (fun w e => InBuffer fhLen w e ∧ RoundTrip w e) boot
        [.reload [wholeDisk], .mnt 0 "/".toList true] := by
  have loads : step boot (.reload [wholeDisk]) = some ⟨{ start with exports := [wholeDisk] }, []⟩ :=
    rfl
  have room : Along step Room boot [.reload [wholeDisk], .mnt 0 "/".toList true] := by
    refine ⟨trivial, fun t next => ⟨?_, fun _ _ => trivial⟩⟩
    rw [loads] at next
    cases next
    exact (by decide : 0 + 1 ≤ cursorMax)
  refine ⟨room, (minting_safe_iff fhLen room).mpr ⟨nofun, fun t next => ⟨?_, fun _ _ => trivial⟩⟩⟩
  rw [loads] at next
  cases next
  intro _ _ _ _ _ _ _ _ _
  exact ⟨le_rfl, fun _ _ _ zero => absurd zero (by decide)⟩

/-- The buffer that there is. -/
theorem mount_overruns_its_buffer :
    ∃ w, run step boot [.reload [wholeDisk]] = some w ∧
    ¬ InBuffer mountCap w (.mnt 0 "/".toList true) := by
  refine ⟨⟨{ start with exports := [wholeDisk] }, []⟩, rfl, fun inside => ?_⟩
  have minted : fhMake true start.table 0 "/".toList = _ :=
    fhMake_taken (show slotsEnsure true start.table = some _ from rfl) (holder_unused _ _)
  have member : fhBytes 0 1 "/".toList ∈
      made ⟨{ start with exports := [wholeDisk] }, []⟩ (.mnt 0 "/".toList true) := by
    have mounts : mountable { start with exports := [wholeDisk] } 0 "/".toList =
        some (0, "/".toList) := by
      decide +kernel
    simp only [made, mounts, minted]
    exact List.mem_singleton_self _
  have long := (fhStores_inside (length_fhBytes _ _ _)).mp (inside _ member)
  exact absurd long (by decide)

end Espix.Nfsd.Minting
