import Espix.Fs.Access
import Espix.Lib.CText
import Espix.Lib.Xdr

/-! `components/espix_nfsd/rpc.c`: arguments are read from the message, and the reply is written
into a buffer of fixed size. Once something did not fit, nothing more is written. -/

namespace Espix.Nfsd.Rpc

open Fs.Access (Path)
open Lib.CText Lib.Xdr

/-- `rpc_call_t` as far as its arguments go: the message, and where the next one begins. -/
structure Args where
  buf : Bytes
  pos : Nat

section Reading

def text (bytes : Bytes) : Path := bytes.map fun b => Char.ofNat b.toNat

def wire (s : Path) : Bytes := s.map fun c => UInt8.ofNat c.toNat

def getU32 (c : Args) : Option (Nat × Args) :=
  if c.buf.length < c.pos + 4 then none
  else (readWord (c.buf.drop c.pos)).map fun found => (found.1, { c with pos := c.pos + 4 })

def getU64 (c : Args) : Option (Nat × Args) :=
  (getU32 c).bind fun hi => (getU32 hi.2).map fun lo => (hi.1 * 2 ^ 32 + lo.1, lo.2)

def getOpaque (n : Nat) (c : Args) : Option (Bytes × Args) :=
  if c.buf.length < c.pos + padded n then none
  else some ((c.buf.drop c.pos).take n, { c with pos := c.pos + padded n })

def stringMax : Nat := 4096

/-- `rpc_get_string` into a buffer of `cap` bytes: what a string function sees there. -/
def getString (cap : Nat) (c : Args) : Option (Path × Args) :=
  (getU32 c).bind fun n =>
    if stringMax < n.1 then none
    else (getOpaque n.1 n.2).map fun found => (cstr (text (found.1.take (cap - 1))), found.2)

end Reading

structure Writer where
  buf : Bytes
  cap : Nat
  ok : Bool

section Writing

/-- Bytes that fit are written; after some that did not, nothing is. -/
def put (bytes : Bytes) (w : Writer) : Writer :=
  if !w.ok || decide (w.cap < w.buf.length + bytes.length) then { w with ok := false }
  else { w with buf := w.buf ++ bytes }

def xdrwU32 (v : Nat) : Writer → Writer := put (word v)

def xdrwU64 (v : Nat) (w : Writer) : Writer := w |> xdrwU32 (v / 2 ^ 32) |> xdrwU32 v

def xdrwBool (v : Bool) : Writer → Writer := xdrwU32 (if v then 1 else 0)

def xdrwOpaque (bytes : Bytes) : Writer → Writer := put (pad bytes)

def xdrwString (s : Path) (w : Writer) : Writer :=
  let w := xdrwU32 s.length w
  if 0 < s.length then xdrwOpaque (wire s) w else w

inductive Accept
  | success
  | procUnavail
  | garbageArgs
  deriving DecidableEq, Repr

def Accept.code : Accept → Nat
  | .success => 0
  | .procUnavail => 3
  | .garbageArgs => 4

def xdrwAccept (stat : Accept) : Writer → Writer := xdrwU32 stat.code

def header (xid : Nat) : Bytes := word xid ++ word 1 ++ word 0 ++ word 0 ++ word 0

def xdrwInit (cap xid : Nat) : Writer :=
  ⟨[], cap, true⟩ |> xdrwU32 xid |> xdrwU32 1 |> xdrwU32 0 |> xdrwU32 0 |> xdrwU32 0

end Writing

/-- The writer has taken what would be these bytes with all the room there is: it holds them, or it
is full and holds a beginning of them. -/
structure Tracks (w : Writer) (bytes : Bytes) : Prop where
  fits : w.buf.length ≤ w.cap
  begins : w.buf <+: bytes
  whole : w.ok = true → w.buf = bytes
  cut : w.ok = false → w.cap < bytes.length

structure Extends (w w' : Writer) : Prop where
  cap : w'.cap = w.cap
  begins : w.buf <+: w'.buf

def Adds (bytes : Bytes) (f : Writer → Writer) : Prop :=
  ∀ w all, Tracks w all → Tracks (f w) (all ++ bytes) ∧ Extends w (f w)

def Puts (n : Nat) (f : Writer → Writer) : Prop := ∃ bytes, bytes.length = n ∧ Adds bytes f

def Fills (t : Ty) (n : Nat) (f : Writer → Writer) : Prop :=
  ∃ bytes, Encodes t bytes ∧ bytes.length = n ∧ Adds bytes f

/-- An encoding of the type is added, of at most so many bytes. -/
def Writes (t : Ty) (most : Nat) (f : Writer → Writer) : Prop := ∃ n ≤ most, Fills t n f

section Tracks

variable {w : Writer} {all bytes : Bytes}

theorem extends_refl (w : Writer) : Extends w w := ⟨rfl, List.prefix_rfl⟩

theorem Extends.trans {x y : Writer} (first : Extends w x) (second : Extends x y) : Extends w y :=
  ⟨second.cap.trans first.cap, first.begins.trans second.begins⟩

theorem extends_put (bytes : Bytes) (w : Writer) : Extends w (put bytes w) := by
  unfold put
  split
  · exact ⟨rfl, List.prefix_rfl⟩
  · exact ⟨rfl, List.prefix_append _ _⟩

theorem Tracks.put (tracks : Tracks w all) (bytes : Bytes) :
    Tracks (put bytes w) (all ++ bytes) := by
  unfold Rpc.put
  split
  · rename_i full
    refine ⟨tracks.fits, tracks.begins.trans (List.prefix_append _ _), nofun, fun _ => ?_⟩
    rw [List.length_append]
    cases ok : w.ok with
    | false =>
      have before := tracks.cut ok
      dsimp only
      omega
    | true =>
      rw [← tracks.whole ok]
      simpa [ok] using full
  · rename_i room
    simp only [Bool.or_eq_true, Bool.not_eq_true', decide_eq_true_eq, not_or,
      Bool.not_eq_false] at room
    have same := tracks.whole room.1
    refine ⟨by rw [List.length_append]; exact Nat.not_lt.mp room.2, by rw [same], fun _ => by
      rw [same], ?_⟩
    intro stopped
    exact absurd (room.1.symm.trans stopped) nofun

theorem Tracks.eq (tracks : Tracks w all) (room : all.length ≤ w.cap) : w.buf = all := by
  cases ok : w.ok with
  | true => exact tracks.whole ok
  | false => exact absurd (tracks.cut ok) (Nat.not_lt.mpr room)

theorem Tracks.full (tracks : Tracks w (all ++ bytes)) (cut : w.cap < all.length) (more : Bytes) :
    Tracks w (all ++ more) := by
  have fits := tracks.fits
  have stopped : w.ok = false := by
    by_contra ok
    have same := tracks.whole (Bool.eq_true_of_not_eq_false ok)
    rw [same, List.length_append] at fits
    omega
  have begins : w.buf <+: all := by
    have short : w.buf.length ≤ all.length := by omega
    exact List.prefix_of_prefix_length_le tracks.begins (List.prefix_append _ _) short
  refine ⟨fits, begins.trans (List.prefix_append _ _), fun ok => ?_, fun _ => ?_⟩
  · exact absurd (ok.symm.trans stopped) nofun
  · rw [List.length_append]
    omega

theorem Tracks.encodes_iff {t : Ty} {start : Bytes}
    (tracks : Tracks w (start ++ bytes)) (encodes : Encodes t bytes)
    (begun : start.length ≤ w.buf.length) :
    Encodes t (w.buf.drop start.length) ↔ start.length + bytes.length ≤ w.cap := by
  cases ok : w.ok with
  | true =>
    have same := tracks.whole ok
    have room := tracks.fits
    rw [same, List.length_append] at room
    rw [same, List.drop_left]
    exact iff_of_true encodes room
  | false =>
    have cut := tracks.cut ok
    have fits := tracks.fits
    rw [List.length_append] at cut
    refine iff_of_false (fun complete => ?_) (by omega)
    obtain ⟨more, split_end⟩ := tracks.begins
    have rest : w.buf.drop start.length ++ more = bytes := by
      have dropped := congrArg (List.drop start.length) split_end
      rwa [List.drop_append_of_le_length begun, List.drop_left] at dropped
    have nothing := complete.unique_end (rest ▸ encodes)
    rw [nothing, List.append_nil] at split_end
    rw [split_end, List.length_append] at fits
    omega

end Tracks

section Parts

variable {t a b : Ty} {n m : Nat} {x y : Bytes} {f g : Writer → Writer}

theorem adds_put (bytes : Bytes) : Adds bytes (put bytes) :=
  fun w _ tracks => ⟨tracks.put bytes, extends_put bytes w⟩

theorem adds_nothing : Adds [] id := fun w all tracks => ⟨by rwa [List.append_nil], extends_refl w⟩

theorem Adds.comp (first : Adds x f) (second : Adds y g) : Adds (x ++ y) fun w => g (f w) := by
  intro w all tracks
  obtain ⟨between, extends_x⟩ := first w all tracks
  obtain ⟨after, extends_y⟩ := second (f w) _ between
  exact ⟨by rw [← List.append_assoc]; exact after, extends_x.trans extends_y⟩

theorem Puts.comp (first : Puts n f) (second : Puts m g) : Puts (n + m) fun w => g (f w) := by
  obtain ⟨x, length_x, adds_x⟩ := first
  obtain ⟨y, length_y, adds_y⟩ := second
  exact ⟨x ++ y, by rw [List.length_append, length_x, length_y], adds_x.comp adds_y⟩

theorem puts_u32 (v : Nat) : Puts 4 (xdrwU32 v) := ⟨word v, length_word v, adds_put _⟩

theorem puts_u64 (v : Nat) : Puts 8 (xdrwU64 v) := (puts_u32 (v / 2 ^ 32)).comp (puts_u32 v)

theorem Puts.fills (puts : Puts n f) : Fills (.fixed n) n f := by
  obtain ⟨bytes, length, adds⟩ := puts
  exact ⟨bytes, encodes_fixed length, length, adds⟩

theorem fills_bool (v : Bool) : Fills .bool 4 (xdrwBool v) := ⟨_, encodes_bool v, rfl, adds_put _⟩

theorem fills_absent : Fills (.optional t) 4 (xdrwBool false) :=
  ⟨_, encodes_absent, rfl, adds_put _⟩

theorem fills_bytes {bytes : Bytes} (short : bytes.length < 2 ^ 32) :
    Fills .bytes (4 + padded bytes.length) fun w => xdrwOpaque bytes (xdrwU32 bytes.length w) := by
  refine ⟨_, encodes_bytes short, ?_, (adds_put (word bytes.length)).comp (adds_put (pad bytes))⟩
  rw [List.length_append, length_word, length_pad]

theorem fills_string {s : Path} (short : s.length < 2 ^ 32) :
    Fills .bytes (4 + padded s.length) (xdrwString s) := by
  cases s with
  | nil =>
      exact ⟨_, encodes_bytes (show ([] : Bytes).length < 2 ^ 32 by decide), rfl, adds_put (word 0)⟩
  | cons c s =>
    have same : (wire (c :: s)).length = (c :: s).length := List.length_map _
    have filled := fills_bytes (same ▸ short)
    rwa [same] at filled

theorem Fills.seq (first : Fills a n f) (second : Fills b m g) :
    Fills (.seq a b) (n + m) fun w => g (f w) := by
  obtain ⟨x, encodes_x, length_x, adds_x⟩ := first
  obtain ⟨y, encodes_y, length_y, adds_y⟩ := second
  exact ⟨x ++ y, Encodes.seq encodes_x encodes_y, by
    rw [List.length_append, length_x, length_y], adds_x.comp adds_y⟩

theorem Fills.under {v : Nat} (begins : ∀ bytes, Encodes a bytes → Encodes b (word v ++ bytes))
    (rest : Fills a n g) : Fills b (4 + n) fun w => g (xdrwU32 v w) := by
  obtain ⟨bytes, encodes, length, adds⟩ := rest
  refine ⟨word v ++ bytes, begins bytes encodes, ?_, (adds_put (word v)).comp adds⟩
  rw [List.length_append, length_word, length]

theorem Fills.present (item : Fills t n g) : Fills (.optional t) (4 + n) fun w =>
    g (xdrwBool true w) :=
  item.under fun _ encodes => Encodes.present encodes

theorem Fills.writes (fills : Fills t n f) : Writes t n f := ⟨n, le_rfl, fills⟩

theorem Puts.writes (puts : Puts n f) : Writes (.fixed n) n f := puts.fills.writes

theorem writes_absent : Writes (.optional t) 4 (xdrwBool false) := fills_absent.writes

theorem Writes.le (writes : Writes t n f) (less : n ≤ m) : Writes t m f := by
  obtain ⟨size, short, fills⟩ := writes
  exact ⟨size, short.trans less, fills⟩

theorem Writes.seq (first : Writes a n f) (second : Writes b m g) :
    Writes (.seq a b) (n + m) fun w => g (f w) := by
  obtain ⟨size_x, short_x, fills_x⟩ := first
  obtain ⟨size_y, short_y, fills_y⟩ := second
  exact ⟨size_x + size_y, Nat.add_le_add short_x short_y, fills_x.seq fills_y⟩

theorem Writes.under {v : Nat} (begins : ∀ bytes, Encodes a bytes → Encodes b (word v ++ bytes))
    (rest : Writes a n g) : Writes b (4 + n) fun w => g (xdrwU32 v w) := by
  obtain ⟨size, short, fills⟩ := rest
  exact ⟨4 + size, Nat.add_le_add_left short 4, fills.under begins⟩

theorem Writes.zero (arm : Writes a n g) : Writes (.switch a b) (4 + n) fun w => g (xdrwU32 0 w) :=
  arm.under fun _ encodes => Encodes.zero encodes

theorem Writes.other {v : Nat} (arm : Writes b n g) (chosen : v % 2 ^ 32 ≠ 0) :
    Writes (.switch a b) (4 + n) fun w => g (xdrwU32 v w) :=
  arm.under fun _ encodes => Encodes.other encodes chosen

end Parts

end Espix.Nfsd.Rpc
