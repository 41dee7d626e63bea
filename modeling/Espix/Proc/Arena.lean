import Espix.Lib.Ask
import Espix.Lib.Blocks
import Espix.Lib.Run

/-! The allocator an app gets.

An app's memory comes from regions, blocks of the global heap with a heap of their own each. What no
region can hold comes from the global heap itself, and the slot keeps a short list of it. Both are
given back when the process ends. -/

namespace Espix.Proc.Arena

open Lib.Ask
open Lib.Blocks (Heap)

/-- What the code asks of the heaps. The global ones are by address, the heap of a region by its
base. -/
inductive Query
  | canvas
  | freeSize
  | malloc (spiram : Bool) (n : Nat)
  | realloc (spiram : Bool) (p : Option Nat) (n : Nat)
  | free (p : Nat)
  | register (base size : Nat)
  | largest (base : Nat)
  | poolMalloc (base n : Nat)
  | poolRealloc (base p n : Nat)
  | poolFree (base p : Nat)
  deriving DecidableEq

abbrev Answer : Query → Type
  | .canvas => Option (Nat × Nat)
  | .freeSize | .largest _ => Nat
  | .register .. => Bool
  | .free _ | .poolFree .. => Unit
  | _ => Option Nat

structure Memory where
  heap : Heap
  inner : List Nat
  deriving DecidableEq

def within (h : Heap) (base p : Nat) : Bool :=
  (Lib.Blocks.latest h.blocks base).any fun b => b.frees == 0 && base ≤ p && p < base + b.size

def machine (m : Memory) : (q : Query) → Answer q → Option Memory
  | .canvas, _ | .freeSize, _ | .register .., _ | .largest _, _ => some m
  | .malloc .., none | .realloc _ none _, none => some m
  | .malloc _ n, some p | .realloc _ none n, some p =>
      (Lib.Blocks.take m.heap p n).map fun heap => { m with heap }
  | .realloc _ (some p) _, none => some { m with heap := Lib.Blocks.touch m.heap p }
  | .realloc _ (some p) n, some q =>
      (Lib.Blocks.resize m.heap p q n).map fun heap => { m with heap }
  | .free p, _ => some { m with heap := Lib.Blocks.give m.heap p }
  | .poolMalloc .., none | .poolRealloc .., none => some m
  | .poolMalloc base _, some p =>
    if within m.heap base p ∧ p ∉ m.inner then some { m with inner := p :: m.inner } else none
  | .poolRealloc base p _, some q =>
    if within m.heap base q ∧ (q = p ∨ q ∉ m.inner) then
      some { m with inner := q :: m.inner.erase p } else none
  | .poolFree _ p, _ => some { m with inner := m.inner.erase p }

structure Region where
  base : Nat
  size : Nat
  deriving DecidableEq

structure Escaped where
  addr : Nat
  size : Nat
  deriving DecidableEq

structure Slot where
  regions : List Region
  index : Option Nat
  regionCap : Nat
  escaped : List Escaped
  deriving DecidableEq

def Slot.zero : Slot := ⟨[], none, 0, []⟩

structure Config where
  lock : Bool
  psram : Bool
  displayW : Nat
  displayH : Nat

def maxEscaped : Nat := 4
def regionMinBytes : Nat := 32 * 1024
def regionMetadataBytes : Nat := 8 * 1024
def regionGranule : Nat := 4 * 1024
def psramFloorMinBytes : Nat := 256 * 1024
def sizeMax : Nat := 4294967295
def regionEntry : Nat := 12

def word (n : Nat) : Nat := n % 4294967296

abbrev P := Prog Answer

def askCanvas : P (Option (Nat × Nat)) := ask Query.canvas
def getFreeSize : P Nat := ask Query.freeSize
/-- `heap_caps_malloc` and `heap_caps_aligned_alloc` for PSRAM, or `malloc`. -/
def malloc (spiram : Bool) (n : Nat) : P (Option Nat) := ask (Query.malloc spiram n)
def realloc (spiram : Bool) (p : Option Nat) (n : Nat) : P (Option Nat) :=
  ask (Query.realloc spiram p n)
def free (p : Nat) : P Unit := ask (Query.free p)
def multiHeapRegister (base size : Nat) : P Bool := ask (Query.register base size)
def largestFreeBlock (base : Nat) : P Nat := ask (Query.largest base)
def multiHeapMalloc (base n : Nat) : P (Option Nat) := ask (Query.poolMalloc base n)
def multiHeapRealloc (base p n : Nat) : P (Option Nat) := ask (Query.poolRealloc base p n)
def multiHeapFree (base p : Nat) : P Unit := ask (Query.poolFree base p)

variable (config : Config)

def psramFloorBytes : P Nat := do
  let canvas ← askCanvas
  let (w, h) := canvas.getD (config.displayW, config.displayH)
  let need := word (2 * word (w * h * 2))
  pure (if need < psramFloorMinBytes then psramFloorMinBytes else need)

def allocPsram (n : Nat) : P (Option Nat) := do
  let p ← malloc true n
  match p with
  | some p => pure (some p)
  | none => malloc false n

def roundToGranule (n : Nat) : Nat := word (n + (regionGranule - 1)) / regionGranule * regionGranule

def regionNeedFor (n : Nat) : Nat :=
  let need := word (n + n / 16 + regionMetadataBytes)
  roundToGranule (if need < regionMinBytes then regionMinBytes else need)

def regionTuningFor (n : Nat) : Nat := (if n / 16 < 1024 then n / 16 else 1024) + 1024

def regionOwning (slot : Slot) (p : Nat) : Option Region :=
  slot.regions.find? fun r => r.base ≤ p && p < r.base + r.size

def regionListReserve (slot : Slot) : P (Option Slot) :=
  if slot.regions.length < slot.regionCap then pure (some slot)
  else
    let want := if slot.regionCap = 0 then 4 else slot.regionCap * 2
    if want > 0xffff then pure none
    else do
      let grown ← realloc true slot.index (want * regionEntry)
      match grown with
      | some g => pure (some { slot with index := some g, regionCap := want })
      | none => do
        let grown ← realloc false slot.index (want * regionEntry)
        match grown with
        | some g => pure (some { slot with index := some g, regionCap := want })
        | none => pure none

def growAttempts (floor n : Nat) : Nat → Nat → P (Option Region)
  | 0, _ => pure none
  | attempts + 1, want => do
    let available ← getFreeSize
    if available < word (want + floor) then pure none
    else do
      let base ← malloc true want
      match base with
      | none => pure none
      | some base => do
        let registered ← multiHeapRegister base want
        if registered = false then do
          free base
          pure none
        else do
          let largest ← largestFreeBlock base
          if n ≤ largest then pure (some ⟨base, want⟩)
          else do
            free base
            growAttempts floor n attempts
              (roundToGranule (word (want + (n - largest) + regionGranule)))

def regionGrow (slot : Slot) (n : Nat) : P (Slot × Option Region) :=
  if config.psram = false then pure (slot, none)
  else do
    let floor ← psramFloorBytes config
    let need := regionNeedFor n
    let available ← getFreeSize
    let want := if word (need + regionTuningFor n + floor) ≤ available then
      word (need + regionTuningFor n) else need
    let reserved ← regionListReserve slot
    match reserved with
    | none => pure (slot, none)
    | some slot => do
      let region ← growAttempts floor n 4 want
      match region with
      | none => pure (slot, none)
      | some r => pure ({ slot with regions := slot.regions ++ [r] }, some r)

def firstPool (n : Nat) : List Region → P (Option Nat)
  | [] => pure none
  | r :: rest => do
    let p ← multiHeapMalloc r.base n
    match p with
    | some p => pure (some p)
    | none => firstPool n rest

def grownPool (slot : Slot) (n : Nat) : P (Slot × Option Nat) := do
  let (slot, region) ← regionGrow config slot n
  match region with
  | none => pure (slot, none)
  | some r => do
    let p ← multiHeapMalloc r.base n
    pure (slot, p)

def regionAlloc (slot : Slot) (n : Nat) : P (Slot × Option Nat) := do
  let n := if n = 0 then 1 else n
  let p ← firstPool n slot.regions
  match p with
  | some p => pure (slot, some p)
  | none => grownPool config slot n

def regionRealloc (slot : Slot) (r : Region) (p n : Nat) : P (Slot × Option Nat) := do
  let same ← multiHeapRealloc r.base p n
  match same with
  | some q => pure (slot, some q)
  | none => do
    let other ← firstPool n (slot.regions.erase r)
    match other with
    | some q => do
      multiHeapFree r.base p
      pure (slot, some q)
    | none => do
      let (slot, grown) ← grownPool config slot n
      match grown with
      | some q => do
        -- `r` still points into the array `region_grow` may have moved; its heap is taken as read
        multiHeapFree r.base p
        pure (slot, some q)
      | none => pure (slot, none)

def escape (slot : Slot) (n : Nat) : P (Slot × Option Nat) :=
  if n = 0 then pure (slot, none)
  else if slot.escaped.length < maxEscaped then do
    let e ← allocPsram n
    match e with
    | some e => pure ({ slot with escaped := slot.escaped ++ [⟨e, n⟩] }, some e)
    | none => pure (slot, none)
  else pure (slot, none)

def abiAlloc (slot : Slot) (n : Nat) : P (Slot × Option Nat) :=
  if config.lock = false ∨ config.psram = false then do
    let p ← allocPsram n
    pure (slot, p)
  else do
    let (slot, p) ← regionAlloc config slot n
    match p with
    | some p => pure (slot, some p)
    | none => escape slot n

def abiCalloc (slot : Slot) (n size : Nat) : P (Slot × Option Nat) :=
  if n ≠ 0 ∧ size > sizeMax / n then pure (slot, none) else abiAlloc config slot (n * size)

/-- The entry goes: the last pointer takes its place, and the size that is there stays. -/
def dropEscaped (escaped : List Escaped) (i : Nat) : List Escaped :=
  match escaped[i]?, escaped.getLast? with
  | some e, some last => (escaped.set i { e with addr := last.addr }).dropLast
  | _, _ => escaped

def abiFree (slot : Slot) (p : Nat) : P Slot :=
  match (if config.lock then regionOwning slot p else none) with
  | some r => do
    multiHeapFree r.base p
    pure slot
  | none =>
    match (if config.lock then slot.escaped.findIdx? (·.addr == p) else none) with
    | some i => do
      free p
      pure { slot with escaped := dropEscaped slot.escaped i }
    | none => do
      free p
      pure slot

/-- A pointer that is in no region stays in the global heap. -/
def globalRealloc (slot : Slot) (p n : Nat) : P (Slot × Option Nat) := do
  let q ← realloc true (some p) n
  match q with
  | some q => pure (slot, some q)
  | none => do
    let q ← realloc false (some p) n
    pure (slot, q)

def abiRealloc (slot : Slot) (p : Option Nat) (n : Nat) : P (Slot × Option Nat) :=
  match p with
  | none => abiAlloc config slot n
  | some p =>
    if n = 0 then do
      let slot ← abiFree config slot p
      pure (slot, none)
    else
      match (if config.lock then regionOwning slot p else none) with
      | some r => regionRealloc config slot r p n
      | none => globalRealloc slot p n

def freeAll : List Nat → P Unit
  | [] => pure ()
  | p :: rest => do
    free p
    freeAll rest

def regionsRelease (slot : Slot) : P Slot :=
  if slot.regions = [] ∧ slot.index = none then pure slot
  else do
    freeAll (slot.regions.map (·.base) ++ slot.escaped.map (·.addr) ++ slot.index.toList)
    pure .zero

inductive Call
  | malloc (n : Nat)
  | calloc (n size : Nat)
  | realloc (p : Option Nat) (n : Nat)
  | free (p : Option Nat)
  deriving DecidableEq

def body (slot : Slot) : Call → P (Slot × Option Nat)
  | .malloc n => abiAlloc config slot n
  | .calloc n size => abiCalloc config slot n size
  | .realloc p n => abiRealloc config slot p n
  | .free none => pure (slot, none)
  | .free (some p) => do
    let slot ← abiFree config slot p
    pure (slot, none)

structure State where
  slot : Slot
  memory : Memory
  held : List Nat

def boot : State := ⟨.zero, ⟨Lib.Blocks.empty, []⟩, []⟩

def Allowed (held : List Nat) : Call → Prop
  | .realloc (some p) _ | .free (some p) => p ∈ held
  | _ => True

instance (held : List Nat) (call : Call) : Decidable (Allowed held call) := by
  unfold Allowed
  split <;> infer_instance

def heldAfter (held : List Nat) (r : Option Nat) : Call → List Nat
  | .malloc _ | .calloc .. | .realloc none _ => r.toList ++ held
  | .realloc (some p) n =>
    match r with
    | some q => q :: held.erase p
    | none => if n = 0 then held.erase p else held
  | .free (some p) => held.erase p
  | .free none => held

abbrev Event := Call × Trace Answer

def step (s : State) (e : Event) : Option State :=
  if Allowed s.held e.1 then
    (exec machine (body config s.slot e.1) s.memory e.2).map fun (memory, slot, r) =>
      ⟨slot, memory, heldAfter s.held r e.1⟩
  else none

def release (s : State) (trace : Trace Answer) : Option Memory :=
  (exec machine (regionsRelease s.slot) s.memory trace).map (·.1)

end Espix.Proc.Arena
