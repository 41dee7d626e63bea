import Espix.Lib.Run
import Espix.Lib.SlotTable
import Espix.Nfsd.Exports

/-! `components/espix_nfsd/nfs3.c`: file handles and the table of paths behind them.

A handle carries the export it was made for and the number of a slot. The slot's number is
the low half of a counter, and the slots are used again in turn. -/

namespace Espix.Nfsd.Handles

open Fs.Access (Path)
open Lib.Run Lib.SlotTable Exports

def fhLen : Nat := 28
def pathSlots : Nat := 1024
def pathCap : Nat := 256

/-- `nfs_slot_t.id` is sixteen bits wide, `s_next_id` thirty-two. -/
def idBound : Nat := 2 ^ 16
def counterBound : Nat := 2 ^ 32

/-- `s_cursor` is an `int`. -/
def cursorMax : Nat := 2 ^ 31 - 1

abbrev Handle := List UInt8

structure Table where
  slots : Option (List (Slot Path))
  nextId : Nat
  cursor : Nat

def boot : Table := ⟨none, 1, 0⟩

def slotsCleanup (t : Table) : Table := { t with slots := none }

/-- `slots_ensure`: the table is there, or the heap gives one that is all zero. -/
def slotsEnsure (heap : Bool) (t : Table) : Option (List (Slot Path)) :=
  match t.slots with
  | some slots => some slots
  | none => if heap then some (List.replicate pathSlots ⟨0, []⟩) else none

def pathHash (path : Path) : UInt32 :=
  path.foldl (fun h c => (h ^^^ UInt32.ofNat (c.toNat % 256)) * 16777619) 2166136261

def hashBytes (h : UInt32) : Nat → List UInt8
  | 0 => []
  | left + 1 =>
    (h >>> UInt32.ofNat ((fhLen - (left + 1)) % 4 * 8)).toUInt8 ::
      hashBytes (h * 16777619 + 0x9e3779b9) left

def fhBytes (exp id : Nat) (path : Path) : Handle :=
  [0x45, 0x53, 0x50, 0x58, UInt8.ofNat exp, UInt8.ofNat id, UInt8.ofNat (id >>> 8),
    UInt8.ofNat (id >>> 16), UInt8.ofNat (id >>> 24)] ++ hashBytes (pathHash path) (fhLen - 9)

def nextCounter (n : Nat) : Nat := if (n + 1) % counterBound = 0 then 1 else (n + 1) % counterBound

def fhMake (heap : Bool) (t : Table) (exp : Nat) (path : Path) : Table × Option Handle :=
  match slotsEnsure heap t with
  | none => (t, none)
  | some slots =>
    match holder slots path with
    | some slot => ({ t with slots := some slots }, some (fhBytes exp slot.id path))
    | none =>
      let id := t.nextId % idBound
      ({ slots := some (put slots t.cursor id (path.take (pathCap - 1)))
         nextId := nextCounter t.nextId
         cursor := t.cursor + 1 },
        some (fhBytes exp id path))

/-- The export and the slot number in a handle, if it has the right length and mark. -/
def fhKey : Handle → Option (Nat × Nat)
  | 0x45 :: 0x53 :: 0x50 :: 0x58 :: e :: b0 :: b1 :: b2 :: b3 :: rest =>
    if rest.length = fhLen - 9 then
      some (e.toNat, b0.toNat + b1.toNat * 2 ^ 8 + b2.toNat * 2 ^ 16 + b3.toNat * 2 ^ 24)
    else none
  | _ => none

/-- The part of `fh_resolve` before the search: the handle names an export that lists the
client. From here on the request acts as the client. -/
def fhRule (exports : List Export) (peer : Peer) (t : Table) (fh : Handle) :
    Option (Nat × Nat × Client) :=
  match fhKey fh with
  | none => none
  | some (e, id) =>
    match exports[e]?, t.slots with
    | some x, some _ => (ruleFor x peer.src).map fun rule => (e, id, rule)
    | _, _ => none

/-- What `fh_resolve` leaves: the export, the path, and the rule the client is held to. -/
structure Resolved where
  exp : Nat
  path : Path
  rule : Client
  deriving DecidableEq, Repr

def fhResolve (exports : List Export) (peer : Peer) (t : Table) (fh : Handle) : Option Resolved :=
  match fhRule exports peer t fh with
  | none => none
  | some (e, id, rule) => (t.slots.bind (lookup · id)).map fun path => ⟨e, path, rule⟩

section Bytes

theorem length_hashBytes (h : UInt32) (left : Nat) : (hashBytes h left).length = left := by
  induction left generalizing h with
  | zero => rfl
  | succ left ih => rw [hashBytes, List.length_cons, ih]

theorem length_fhBytes (exp id : Nat) (path : Path) : (fhBytes exp id path).length = fhLen := by
  simp [fhBytes, length_hashBytes, fhLen]

theorem fhKey_fhBytes (exp : Nat) {id : Nat} (path : Path) (short : id < idBound) :
    fhKey (fhBytes exp id path) = some (exp % 256, id) := by
  have bytes : id % 256 + id >>> 8 % 256 * 2 ^ 8 + id >>> 16 % 256 * 2 ^ 16 +
      id >>> 24 % 256 * 2 ^ 24 = id := by
    simp only [idBound, Nat.shiftRight_eq_div_pow] at short ⊢
    omega
  simp only [fhBytes, List.cons_append, List.nil_append, fhKey, length_hashBytes, if_true]
  simpa using bytes

theorem fhResolve_some {exports : List Export} {peer : Peer} {t : Table} {fh : Handle}
    {r : Resolved} (resolves : fhResolve exports peer t fh = some r) :
    ∃ x id slots, fhKey fh = some (r.exp, id) ∧ exports[r.exp]? = some x ∧
      ruleFor x peer.src = some r.rule ∧ t.slots = some slots ∧ lookup slots id = some r.path := by
  unfold fhResolve fhRule at resolves
  cases key : fhKey fh with
  | none => simp [key] at resolves
  | some pair =>
    cases exported : exports[pair.1]? with
    | none => simp [key, exported] at resolves
    | some x =>
      cases table : t.slots with
      | none => simp [key, exported, table] at resolves
      | some slots =>
        cases matched : ruleFor x peer.src with
        | none => simp [key, exported, table, matched] at resolves
        | some rule =>
          simp only [key, exported, table, matched, Option.map_some, Option.bind_some,
            Option.map_eq_some_iff] at resolves
          obtain ⟨path, found, rfl⟩ := resolves
          exact ⟨x, pair.2, slots, rfl, exported, matched, rfl, found⟩

end Bytes

inductive Event
  | make (heap : Bool) (exp : Nat) (path : Path)
  | cleanup

def step (t : Table) : Event → Option Table
  | .make heap exp path => some (fhMake heap t exp path).1
  | .cleanup => some (slotsCleanup t)

/-- The counter and the cursor have kept step, and the slots are numbered by them. -/
structure Counted (t : Table) : Prop where
  next : t.nextId = t.cursor + 1
  numbered : ∀ slots, t.slots = some slots →
    slots.length = pathSlots ∧ Numbered idBound slots t.cursor

/-- A slot's number stands for this path, in the table as it is. -/
def Stands (t : Table) (id : Nat) (path : Path) : Prop :=
  ∀ slots, t.slots = some slots → Only slots id path

def Takes (t : Table) : Event → Prop
  | .make heap _ path => ∃ slots, slotsEnsure heap t = some slots ∧ holder slots path = none
  | .cleanup => False

section Mint

variable {t u : Table} {heap : Bool} {exp id : Nat} {path : Path} {fh : Handle}
variable {slots : List (Slot Path)}

theorem Counted.boot : Counted boot := ⟨rfl, nofun⟩

theorem slotsEnsure_some (ready : slotsEnsure heap t = some slots) :
    t.slots = some slots ∨ slots = List.replicate pathSlots ⟨0, []⟩ := by
  unfold slotsEnsure at ready
  split at ready
  · rename_i present
    cases ready
    exact .inl present
  · split at ready
    · cases ready
      exact .inr rfl
    · cases ready

theorem Counted.ensure (counted : Counted t) (ready : slotsEnsure heap t = some slots) :
    slots.length = pathSlots ∧ Numbered idBound slots t.cursor := by
  rcases slotsEnsure_some ready with present | rfl
  · exact counted.numbered _ present
  · refine ⟨List.length_replicate, InTurn.unused fun slot member => ?_⟩
    rw [(List.mem_replicate.mp member).2]

theorem fhMake_taken (ready : slotsEnsure heap t = some slots) (fresh : holder slots path = none) :
    fhMake heap t exp path =
      ({ slots := some (put slots t.cursor (t.nextId % idBound) (path.take (pathCap - 1)))
         nextId := nextCounter t.nextId
         cursor := t.cursor + 1 },
        some (fhBytes exp (t.nextId % idBound) path)) := by
  simp only [fhMake, ready, fresh]

theorem holder_unused (n : Nat) (path : Path) : holder (List.replicate n ⟨0, []⟩) path = none := by
  apply List.find?_eq_none.mpr
  intro slot member
  rw [(List.mem_replicate.mp member).2]
  simp

theorem nextCounter_eq {n : Nat} (small : n < cursorMax + 1) : nextCounter n = n + 1 := by
  have below : (n + 1) % counterBound = n + 1 := by
    apply Nat.mod_eq_of_lt
    simp only [cursorMax, counterBound] at small ⊢
    omega
  rw [nextCounter, below, if_neg (by omega)]

theorem Counted.make (counted : Counted t) (small : t.cursor < cursorMax) :
    Counted (fhMake heap t exp path).1 := by
  fun_cases fhMake heap t exp path with
  | case1 => exact counted
  | case2 slots ready slot held =>
    refine ⟨counted.next, ?_⟩
    rintro _ ⟨⟩
    exact counted.ensure ready
  | case3 slots ready held id =>
    obtain ⟨length, numbered⟩ := counted.ensure ready
    simp only [id, counted.next]
    refine ⟨nextCounter_eq (by omega), ?_⟩
    rintro _ ⟨⟩
    exact ⟨by rw [length_put, length], numbered.put⟩

theorem step_counted {e : Event} (counted : Counted t) (small : t.cursor < cursorMax)
    (next : step t e = some u) : Counted u := by
  cases e with
  | make heap exp path =>
    cases next
    exact counted.make small
  | cleanup =>
    cases next
    exact ⟨counted.next, nofun⟩

theorem make_stands (counted : Counted t) (fits : path.length < pathCap)
    (not_zero : t.nextId % idBound ≠ 0) (minted : fhMake heap t exp path = (u, some fh)) :
    ∃ id, fhKey fh = some (exp % 256, id) ∧ id ≠ 0 ∧ Stands u id path ∧
      ∃ turn, turn < u.cursor ∧ id = (turn + 1) % idBound := by
  have room : pathSlots ≤ idBound := by decide
  revert minted
  fun_cases fhMake heap t exp path with
  | case1 => rintro ⟨⟩
  | case2 slots ready slot held =>
    rintro ⟨⟩
    obtain ⟨length, numbered⟩ := counted.ensure ready
    obtain ⟨only, used, turn, before, -, number⟩ := numbered.only_holder (by omega) held
    have short : slot.id < idBound := by
      rw [number]
      exact Nat.mod_lt _ (by decide)
    refine ⟨slot.id, fhKey_fhBytes exp path short, used, ?_, turn, before, number⟩
    rintro _ ⟨⟩
    exact only
  | case3 slots ready held id =>
    rintro ⟨⟩
    obtain ⟨length, numbered⟩ := counted.ensure ready
    refine ⟨id, fhKey_fhBytes exp path (Nat.mod_lt _ (by decide)), not_zero, ?_,
      t.cursor, Nat.lt_succ_self _, by rw [← counted.next]⟩
    rintro _ ⟨⟩
    rw [List.take_of_length_le (by omega)]
    simp only [id, counted.next] at not_zero ⊢
    exact numbered.only_put (by omega) not_zero

theorem step_stands {e : Event} (stands : Stands t id path) (used : id ≠ 0)
    (other : Takes t e → t.nextId % idBound ≠ id)
    (next : step t e = some u) : Stands u id path := by
  have ensured (heap : Bool) (slots : List (Slot Path)) (ready : slotsEnsure heap t = some slots) :
      Only slots id path := by
    rcases slotsEnsure_some ready with present | rfl
    · exact stands _ present
    · intro slot member named
      rw [(List.mem_replicate.mp member).2] at named
      exact absurd named.symm used
  cases e with
  | cleanup =>
    cases next
    exact nofun
  | make heap exp new =>
    cases next
    fun_cases fhMake heap t exp new with
    | case1 => exact stands
    | case2 slots ready =>
      rintro _ ⟨⟩
      exact ensured heap slots ready
    | case3 slots ready held =>
      rintro _ ⟨⟩
      exact (ensured heap slots ready).put (other ⟨slots, ready, held⟩)

theorem Stands.resolves {exports : List Export} {peer : Peer} {r : Resolved} {e : Nat}
    (stands : Stands t id path) (key : fhKey fh = some (e, id))
    (resolved : fhResolve exports peer t fh = some r) : r.path = path := by
  obtain ⟨x, number, slots, key', -, -, table, found⟩ := fhResolve_some resolved
  rw [key] at key'
  cases key'
  rcases (stands slots table).lookup with none_left | same
  · rw [none_left] at found
    cases found
  · rw [same] at found
    cases found
    rfl

end Mint

/-- In every run, a handle made for a path resolves to that path or not at all, as long as
no later slot is given the number it carries. -/
theorem minted_handle_resolves_to_its_path {before after : List Event} {s t u : Table}
    {heap : Bool} {exp : Nat} {path : Path} {fh : Handle}
    (reached : run step boot before = some s)
    (small : Along step (fun v _ => v.cursor < cursorMax) boot
      (before ++ .make heap exp path :: after))
    (fits : path.length < pathCap) (not_zero : s.nextId % idBound ≠ 0)
    (minted : fhMake heap s exp path = (t, some fh))
    (goes_on : run step t after = some u)
    (not_again : Along step
      (fun v e => Takes v e → (fhKey fh).map Prod.snd ≠ some (v.nextId % idBound)) t after)
    (exports : List Export) (peer : Peer) :
    fhResolve exports peer u fh = none ∨
      ∃ r, fhResolve exports peer u fh = some r ∧ r.path = path := by
  have counted : Counted s :=
    run_invariant_along (fun v e w holds bound next => step_counted holds bound next)
      small.append_left reached Counted.boot
  obtain ⟨id, key, used, stands, -⟩ := make_stands counted fits not_zero minted
  have later : Stands u id path := by
    apply run_invariant_along (P := fun v => Stands v id path) _ not_again goes_on stands
    intro v e w holds differs next
    apply step_stands holds used _ next
    intro takes same
    apply differs takes
    rw [key, same]
    rfl
  cases resolved : fhResolve exports peer u fh with
  | none => exact .inl rfl
  | some r => exact .inr ⟨r, rfl, later.resolves key resolved⟩

/-- A second path leaves the first one's handle alone. -/
theorem second_path_keeps_first_handle :
    ∃ t u fh, fhMake true boot 0 "/srv/a".toList = (t, some fh) ∧
      run step t [.make true 0 "/srv/b".toList] = some u ∧
      ∀ exports peer, fhResolve exports peer u fh = none ∨
        ∃ r, fhResolve exports peer u fh = some r ∧ r.path = "/srv/a".toList := by
  obtain ⟨t, minted, next, cursor⟩ : ∃ t, fhMake true boot 0 "/srv/a".toList =
      (t, some (fhBytes 0 1 "/srv/a".toList)) ∧ t.nextId = 2 ∧ t.cursor = 1 :=
    ⟨_, fhMake_taken (show slotsEnsure true boot = some _ from rfl) (holder_unused _ _), rfl, rfl⟩
  have key : fhKey (fhBytes 0 1 "/srv/a".toList) = some (0, 1) := fhKey_fhBytes 0 _ (by decide)
  have goes_on : run step t [.make true 0 "/srv/b".toList] =
      some (fhMake true t 0 "/srv/b".toList).1 := rfl
  refine ⟨t, _, _, minted, goes_on, ?_⟩
  have small : Along step (fun v _ => v.cursor < cursorMax) boot
      [.make true 0 "/srv/a".toList, .make true 0 "/srv/b".toList] := by
    refine ⟨by decide, fun v taken => ?_⟩
    rw [step, minted] at taken
    cases taken
    exact ⟨cursor ▸ (by decide : 1 < cursorMax), fun _ _ => trivial⟩
  apply minted_handle_resolves_to_its_path (show run step boot [] = some boot from rfl) small
    (by decide) (by decide) minted goes_on
  refine ⟨?_, fun _ _ => trivial⟩
  intro _ same
  rw [key, next] at same
  exact absurd same (by decide)

/-! More names than the slot numbers can tell apart. -/

def name (k : Nat) : Path := '/' :: (List.range 17).map fun j => if k.testBit j then '1' else '0'

def lookups (n : Nat) : List Event := (List.range n).map fun k => .make true 0 (name k)

theorem name_inj {j k : Nat} (j_small : j < 2 ^ 17) (k_small : k < 2 ^ 17)
    (same : name j = name k) : j = k := by
  apply Nat.eq_of_testBit_eq
  intro i
  by_cases inside : i < 17
  · have digits := List.map_inj_left.mp (List.cons.inj same).2 i (List.mem_range.mpr inside)
    revert digits
    cases j.testBit i <;> cases k.testBit i <;> simp
  · have high (n : Nat) (small : n < 2 ^ 17) : n.testBit i = false :=
      Nat.testBit_lt_two_pow
      (Nat.lt_of_lt_of_le small (Nat.pow_le_pow_right (by decide) (by omega)))
    rw [high j j_small, high k k_small]

structure Filled (n : Nat) (t : Table) (slots : List (Slot Path)) : Prop where
  cursor : t.cursor = n
  next : t.nextId = n + 1
  ready : slotsEnsure true t = some slots
  length : slots.length = pathSlots
  in_turn : InTurn (fun k slot => slot = ⟨(k + 1) % idBound, name k⟩) slots n
  last : ∀ k, n = k + 1 → t.slots = some slots ∧ ⟨(k + 1) % idBound, name k⟩ ∈ slots

section Filled

variable {n : Nat} {t : Table} {slots : List (Slot Path)}

theorem Filled.boot : Filled 0 boot (List.replicate pathSlots ⟨0, []⟩) := by
  refine ⟨rfl, rfl, rfl, List.length_replicate, InTurn.unused ?_, nofun⟩
  intro slot member
  rw [(List.mem_replicate.mp member).2]

theorem Filled.fresh (filled : Filled n t slots) (small : n < 2 ^ 17) :
    holder slots (name n) = none := by
  apply List.find?_eq_none.mpr
  intro slot member
  obtain ⟨i, here⟩ := List.mem_iff_getElem?.mp member
  by_cases used : slot.id = 0
  · simp [used]
  · obtain ⟨k, before, -, -, rfl⟩ := filled.in_turn i slot here used
    have differs : name k ≠ name n := fun same =>
      absurd (name_inj (by omega) small same) (by omega)
    simp [differs]

theorem Filled.make (filled : Filled n t slots) (small : n < 2 ^ 17) :
    Filled (n + 1) (fhMake true t 0 (name n)).1
      (put slots n ((n + 1) % idBound) (name n)) := by
  have whole : (name n).take (pathCap - 1) = name n := by
    apply List.take_of_length_le
    simp [name, pathCap]
  rw [fhMake_taken filled.ready (filled.fresh small), filled.cursor, filled.next, whole]
  refine ⟨rfl, ?_, rfl, ?_, filled.in_turn.put rfl, ?_⟩
  · apply nextCounter_eq
    simp only [cursorMax]
    omega
  · rw [length_put, filled.length]
  · rintro _ ⟨⟩
    have inside : n % slots.length < slots.length := Nat.mod_lt _ (by rw [filled.length]; decide)
    exact ⟨rfl, List.mem_set inside _⟩

theorem filled_run (small : n ≤ 2 ^ 17) :
    ∃ t slots, run step boot (lookups n) = some t ∧ Filled n t slots := by
  induction n with
  | zero => exact ⟨boot, _, rfl, Filled.boot⟩
  | succ n ih =>
    obtain ⟨t, slots, reached, filled⟩ := ih (by omega)
    refine ⟨_, _, ?_, filled.make (by omega)⟩
    rw [lookups, List.range_succ, List.map_append, run_append]
    rw [lookups] at reached
    rw [reached]
    rfl

theorem Filled.lookup_one (filled : Filled (idBound + 1) t slots) :
    t.slots = some slots ∧ lookup slots 1 = some (name idBound) := by
  obtain ⟨table, present⟩ := filled.last idBound rfl
  have only : Only slots 1 (name idBound) := by
    intro slot member number
    obtain ⟨i, here⟩ := List.mem_iff_getElem?.mp member
    obtain ⟨k, before, recent, -, rfl⟩ := filled.in_turn i slot here (by omega)
    have turn : k = idBound := by
      rw [filled.length] at recent
      simp only [idBound, pathSlots] at *
      omega
    rw [turn]
  exact ⟨table, only.lookup_mem present⟩

end Filled

def everyone : Client := ⟨0, 0, true, .root, 65534, 65534⟩

def wholeDisk : Export := ⟨"/".toList, [everyone], by decide, by decide⟩

def pub : Export := ⟨"/srv/pub".toList, [everyone], by decide, by decide⟩

/-- After 65536 further names the handle of the first names the file of the last. -/
theorem first_handle_names_last_file :
    ∃ t u fh, fhMake true boot 0 (name 0) = (t, some fh) ∧
      run step t ((List.range idBound).map fun k => .make true 0 (name (k + 1))) = some u ∧
      fhResolve [wholeDisk] ⟨0, none⟩ u fh = some ⟨0, name idBound, everyone⟩ ∧
      name idBound ≠ name 0 := by
  obtain ⟨u, slots, reached, filled⟩ := filled_run (n := idBound + 1) (by decide)
  obtain ⟨table, found⟩ := filled.lookup_one
  rw [lookups, List.range_succ_eq_map, List.map_cons, List.map_map] at reached
  obtain ⟨t, first, rest⟩ := run_cons reached
  have minted : fhMake true boot 0 (name 0) = (t, some (fhBytes 0 1 (name 0))) := by
    have made : fhMake true boot 0 (name 0) = (_, some (fhBytes 0 1 (name 0))) :=
      fhMake_taken Filled.boot.ready (Filled.boot.fresh (by decide))
    rw [made]
    rw [step, made] at first
    cases first
    rfl
  have key : fhKey (fhBytes 0 1 (name 0)) = some (0, 1) := fhKey_fhBytes 0 _ (by decide)
  refine ⟨t, u, _, minted, rest, ?_, ?_⟩
  · have listed : ruleFor wholeDisk 0 = some everyone := by decide
    simp [fhResolve, fhRule, key, table, found, listed]
  · intro same
    exact absurd (name_inj (by decide) (by decide) same) (by decide)

end Espix.Nfsd.Handles
