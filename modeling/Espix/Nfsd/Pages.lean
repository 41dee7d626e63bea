import Espix.Nfsd.Replies

/-! The pages that READDIR and READDIRPLUS send, and which replies are whole.

The walk stops before an entry that does not fit in the count of the client. It counts the entries,
but not the attributes of the directory before them; and the count of READDIR may be larger than the
buffer. -/

namespace Espix.Nfsd.Pages

open Fs.Access (Path)
open Lib.Ask Lib.Xdr Exports
open Handles hiding Event step boot
open Nfs3 Replies
open Requests (childPath)
open Rpc

def entrySize (plus : Bool) (de : DirEntry) : Nat :=
  24 + padded de.name.length + if plus then attrSize de.info + 36 else 0

/-- The entries of a page, after so many bytes of them: always one, and as many more as the walk
takes to fit. -/
def page (plus : Bool) (maxcount : Nat) : Nat → Bool → List DirEntry → List DirEntry
  | _, _, [] => []
  | used, wrote, de :: rest =>
    if wrote ∧ maxcount < used + entryCost plus de.name + 16 then []
    else de :: page plus maxcount (used + entrySize plus de) true rest

/-- What a listing answers with: the attributes of the directory, and the entries. -/
structure Page where
  plus : Bool
  most : Nat
  attr : Option Stat
  entries : List DirEntry

def Page.size (p : Page) : Nat := attrSize p.attr + 8 + (p.entries.map (entrySize p.plus)).sum + 8

def pageOf (plus : Bool) (c : Args) : Trace Answer → Option Page
  | ⟨.resolve _, some _⟩ :: ⟨.opendir _, .ok listing⟩ :: ⟨.stat _, dst⟩ :: _ =>
    (readdirArgs plus c).map fun args =>
      ⟨plus, args.2.2, dst.toOption, page plus (maxcountFor plus args.2.2) 0 false
        (listing.drop args.2.1)⟩
  | _ => none

section Entries

variable {plus : Bool} {de : DirEntry} {entries : List DirEntry} {items : List Bytes} {item : Bytes}

structure Encoded (plus : Bool) (entries : List DirEntry) (items : List Bytes) : Prop where
  encodes : ∀ item ∈ items, Encodes (entry plus) item
  sizes : items.map (fun item => item.length + 4) = entries.map (entrySize plus)

def AddsEntry (plus : Bool) (de : DirEntry) (f : Writer → Writer) : Prop :=
  ∃ item, Encodes (entry plus) item ∧ item.length + 4 = entrySize plus de ∧ Adds (word 1 ++ item) f

theorem encoded_nil : Encoded plus [] [] := ⟨nofun, rfl⟩

theorem Encoded.cons
    (encodes : Encodes (entry plus) item) (size : item.length + 4 = entrySize plus de)
    (rest : Encoded plus entries items) : Encoded plus (de :: entries) (item :: items) :=
  ⟨List.forall_mem_cons.mpr ⟨encodes, rest.encodes⟩, by
    rw [List.map_cons, List.map_cons, size, rest.sizes]⟩

theorem Encoded.length (encoded : Encoded plus entries items) : items.length = entries.length := by
  have same := congrArg List.length encoded.sizes
  rwa [List.length_map, List.length_map] at same

theorem name_short (de : DirEntry) : de.name.length < 2 ^ 32 := de.short.trans (by decide)

theorem fills_named (de : DirEntry) (ino seen : Nat) :
    Fills (.seq (.fixed 8) (.seq .bytes (.fixed 8))) (8 + (4 + padded de.name.length + 8))
      fun w => xdrwU64 seen (xdrwString de.name (xdrwU64 ino w)) :=
  (puts_u64 ino).fills.seq ((fills_string (name_short de)).seq (puts_u64 seen).fills)

theorem addsEntry_plain (de : DirEntry) (seen : Nat) : AddsEntry false de (putEntry de seen) := by
  obtain ⟨item, encodes, length, adds⟩ := fills_named de (if de.ino ≠ 0 then de.ino else seen) seen
  refine ⟨item, encodes, ?_, (adds_put (word 1)).comp adds⟩
  simp only [entrySize, Bool.false_eq_true, if_false]
  omega

theorem addsEntry_plus (exports : List Export) (exp : Nat) (owner : Nat × Nat)
    (de : DirEntry) (seen : Nat)
    (fh : FhBytes) :
    AddsEntry true de fun w =>
      putPostFh (some fh) (putPostAttr exports exp (de.info.map (entryStat owner))
          (putEntry de seen w)) := by
  have attributes := fills_postAttr exports exp (de.info.map (entryStat owner))
  obtain ⟨item, encodes, length, adds⟩ :=
    (fills_named de (if de.ino ≠ 0 then de.ino else seen) seen).seq
    (attributes.seq (fills_postFh fh))
  refine ⟨item, encodes, ?_, (adds_put (word 1)).comp adds⟩
  simp only [attrSize, Option.isSome_map] at length
  simp only [entrySize, attrSize, if_true]
  omega

theorem exists_encoded (plus : Bool) (entries : List DirEntry) :
    ∃ items, Encoded plus entries items := by
  induction entries with
  | nil => exact ⟨[], encoded_nil⟩
  | cons de entries ih =>
    obtain ⟨items, encoded⟩ := ih
    have entry_added : ∃ f, AddsEntry plus de f := by
      cases plus with
      | false => exact ⟨_, addsEntry_plain de 0⟩
      | true =>
        exact ⟨_, addsEntry_plus [] 0 (0, 0) de 0 ⟨List.replicate fhLen 0, List.length_replicate⟩⟩
    obtain ⟨_, item, encodes, size, _⟩ := entry_added
    exact ⟨item :: items, encoded.cons encodes size⟩

end Entries

def Listed (plus : Bool) (entries : List DirEntry) (all : Bytes) (w : Writer) : Prop :=
  ∃ items, Encoded plus entries items ∧ Tracks w (all ++ items.flatMap fun item => word 1 ++ item)

section Walk

variable {exports : List Export} {plus : Bool} {maxcount replyAt cookie : Nat}
    {r : Resolved} {owner : Nat × Nat}
variable {entries rest : List DirEntry} {de : DirEntry} {all bytes item : Bytes} {w out : Writer}

theorem listed_nil (tracks : Tracks w all) : Listed plus [] all w :=
  ⟨[], encoded_nil, by rwa [List.flatMap_nil, List.append_nil]⟩

theorem Listed.cons
    (encodes : Encodes (entry plus) item) (size : item.length + 4 = entrySize plus de)
    (listed : Listed plus entries (all ++ (word 1 ++ item)) w) : Listed plus
    (de :: entries) all w := by
  obtain ⟨items, encoded, tracks⟩ := listed
  refine ⟨item :: items, encoded.cons encodes size, ?_⟩
  rwa [List.append_assoc] at tracks

theorem listed_full (tracks : Tracks w (all ++ bytes)) (cut : w.cap < all.length) :
    Listed plus entries all w := by
  obtain ⟨items, encoded⟩ := exists_encoded plus entries
  exact ⟨items, encoded, tracks.full cut _⟩

theorem listed_step {f : Writer → Writer} {wrote : Bool} (adds : AddsEntry plus de f)
    (tracks : Tracks w all)
    (placed : replyAt ≤ all.length)
    (room : ¬(wrote = true ∧ maxcount < (w.buf.length - replyAt) + entryCost plus de.name + 16))
    (later : ∀ all, Tracks (f w) all → replyAt ≤ all.length →
      Listed plus (page plus maxcount (all.length - replyAt) true rest) all out ∧
      Extends (f w) out) :
    Listed plus (page plus maxcount (all.length - replyAt) wrote (de :: rest)) all out ∧
    Extends w out := by
  obtain ⟨item, encodes, size, adds⟩ := adds
  obtain ⟨longer, here⟩ := adds w all tracks
  have grown : (all ++ (word 1 ++ item)).length = all.length + entrySize plus de := by
    rw [List.length_append, List.length_append, length_word]
    omega
  obtain ⟨listed, extended⟩ := later _ longer (by omega)
  refine ⟨?_, here.trans extended⟩
  cases ok : w.ok with
  | true =>
    rw [tracks.whole ok] at room
    rw [page, if_neg room]
    have used : all.length - replyAt + entrySize plus de = (all ++ (word 1 ++ item)).length -
        replyAt := by
      omega
    rw [used]
    exact listed.cons encodes size
  | false =>
    obtain ⟨items, _, tracks_out⟩ := listed
    rw [List.append_assoc] at tracks_out
    have cap := (here.trans extended).cap
    exact listed_full tracks_out (by rw [cap]; exact tracks.cut ok)

theorem drop_skipped {before : Nat} (sent : before + 1 ≤ cookie) :
    (de :: rest).drop (cookie - before) = rest.drop (cookie - (before + 1)) := by
  have one_more : cookie - before = cookie - (before + 1) + 1 := by omega
  rw [one_more, List.drop_succ_cons]

theorem drop_fresh {before : Nat} (fresh : cookie < before + 1) (entries : List DirEntry) :
    entries.drop (cookie - before) = entries := by
  rw [Nat.sub_eq_zero_of_le (Nat.le_of_lt_succ fresh), List.drop_zero]

theorem walk_page (replyAt : Nat) (listing : List DirEntry) (before : Nat) (wrote : Bool)
    (w : Writer) :
    Always (readdirWalk exports plus maxcount replyAt cookie r owner listing before wrote w)
    fun trace out =>
      (∀ event ∈ trace, Made event) → ∀ all, Tracks w all → replyAt ≤ all.length →
        Listed plus (page plus maxcount (all.length - replyAt) wrote
          (listing.drop (cookie - before))) all out.1 ∧
          Extends w out.1 := by
  refine walk_rule (P := fun listing before wrote w trace out => (∀ event ∈ trace, Made event) →
    ∀ all,
    Tracks w all → replyAt ≤ all.length →
      Listed plus (page plus maxcount (all.length - replyAt) wrote
        (listing.drop (cookie - before))) all out.1 ∧
        Extends w out.1) ?_ ?_ ?_ ?_ ?_ listing before wrote w
  · intro before wrote w _ all tracks _
    rw [List.drop_nil]
    exact ⟨listed_nil tracks, extends_refl w⟩
  · intro de rest before wrote w trace out sent later
    rwa [drop_skipped sent]
  · intro de rest before w fresh full _ all tracks _
    rw [drop_fresh fresh]
    refine ⟨?_, extends_refl w⟩
    cases ok : w.ok with
    | true =>
      rw [tracks.whole ok] at full
      rw [page, if_pos ⟨rfl, full⟩]
      exact listed_nil tracks
    | false =>
      rw [← List.append_nil all] at tracks
      exact listed_full tracks (by simpa using tracks.cut ok)
  · intro de rest before wrote w trace out form fresh room later made all tracks placed
    subst form
    rw [drop_fresh fresh]
    rw [drop_fresh (Nat.lt_succ_of_lt fresh)] at later
    exact listed_step (addsEntry_plain de (before + 1)) tracks placed room (later made)
  · intro de rest before wrote w fh trace out form fresh room later made all tracks placed
    subst form
    obtain ⟨here, made_later⟩ := List.forall_mem_cons.mp made
    obtain ⟨fh, rfl⟩ := Option.isSome_iff_exists.mp here
    rw [drop_fresh fresh]
    rw [drop_fresh (Nat.lt_succ_of_lt fresh)] at later
    exact listed_step (addsEntry_plus exports r.exp owner de (before + 1) fh) tracks placed room
      (later made_later)

end Walk

def entriesIn (plus : Bool) (body : Bytes) : Option Nat :=
  (skip postOpAttr body).bind fun rest => (skip (.fixed 8) rest).bind fun rest =>
    (items (skip (entry plus)) rest.length rest).map (·.1)

def Body (p : Page) (bytes : Bytes) : Prop :=
  ∃ (attr verf : Bytes) (items : List Bytes) (eof : Bool), Encodes postOpAttr attr ∧
    attr.length = attrSize p.attr ∧ verf.length = 8 ∧ Encoded p.plus p.entries items ∧
    bytes = attr ++ (verf ++ (listing items ++ word (if eof then 1 else 0)))

section Body

variable {p : Page} {bytes : Bytes}

theorem Body.encodes (body : Body p bytes) : Encodes (.seq postOpAttr (dirList p.plus)) bytes := by
  obtain ⟨attr, verf, items, eof, encodes, _, verf_size, encoded, rfl⟩ := body
  have entries := Encodes.seq (encodes_listing encoded.encodes) (encodes_bool eof)
  exact Encodes.seq encodes (Encodes.seq (encodes_fixed verf_size) entries)

theorem Body.length (body : Body p bytes) : bytes.length = p.size := by
  obtain ⟨attr, verf, items, eof, _, attr_size, verf_size, encoded, rfl⟩ := body
  simp only [List.length_append, length_word, length_listing, encoded.sizes, attr_size,
    verf_size, Page.size]
  omega

theorem Body.entriesIn (body : Body p bytes) : entriesIn p.plus bytes = some p.entries.length := by
  obtain ⟨attr, verf, items, eof, encodes, _, verf_size, encoded, rfl⟩ := body
  have enough : items.length < (listing items ++ word (if eof then 1 else 0)).length := by
    have many := length_lt_listing items
    rw [List.length_append]
    omega
  have counted := items_listing encoded.encodes (word (if eof then 1 else 0)) enough
  rw [Pages.entriesIn, encodes.skip, Option.bind_some, (encodes_fixed verf_size).skip,
    Option.bind_some, counted,
    Option.map_some, encoded.length]

end Body

inductive Answered (plus : Bool) (c : Args) (trace : Trace Answer) (start : Bytes)
    (w w' : Writer) : Prop
  | garbage (unread : readdirArgs plus c = none) (nothing : pageOf plus c trace = none)
      (sent : w' = xdrwAccept .garbageArgs w)
  | failed (s : Status) (failed : s ≠ .ok) (nothing : pageOf plus c trace = none)
      (sent : w' = failPost s (xdrwAccept .success w))
  | listed (p : Page) (bytes : Bytes) (found : pageOf plus c trace = some p) (body : Body p bytes)
      (tracks : Tracks w' (start ++ (word 0 ++ (word 0 ++ bytes)))) (extended : Extends w w')

section Answers

variable {exports : List Export} {plus : Bool} {c : Args} {w : Writer} {start : Bytes}

def putHead (exports : List Export) (exp : Nat) (dst : Option Stat) (w : Writer) : Writer :=
  w |> xdrwAccept .success |> putStatus .ok |> putPostAttr exports exp dst |> xdrwU32 0 |> xdrwU32 0

theorem adds_head (exports : List Export) (exp : Nat) (dst : Option Stat) :
    ∃ attr verf : Bytes, Encodes postOpAttr attr ∧ attr.length = attrSize dst ∧ verf.length = 8 ∧
      Adds (word 0 ++ (word 0 ++ (attr ++ verf))) (putHead exports exp dst) := by
  obtain ⟨attr, encodes, attr_size, adds_attr⟩ := fills_postAttr exports exp dst
  obtain ⟨verf, verf_size, adds_verf⟩ := (puts_u32 0).comp (puts_u32 0)
  have adds := (adds_put (word 0)).comp ((adds_put (word 0)).comp (adds_attr.comp adds_verf))
  exact ⟨attr, verf, encodes, attr_size, verf_size, adds⟩

theorem readdir_answers (peer : Peer) (table : Table) (tracks : Tracks w start)
    (room : start.length + 104 ≤ w.cap) :
    Always (procReaddir exports plus c w) fun trace w' =>
      Agrees exports peer table trace → Answered plus c trace start w w' := by
  unfold procReaddir
  split
  · rename_i unread
    exact fun _ => .garbage unread rfl rfl
  · rename_i fh cookie most read
    refine always_ask fun found => ?_
    cases found with
    | none => exact fun _ => .failed .badhandle (by decide) rfl rfl
    | some r =>
      refine always_ask fun opened => ?_
      cases opened with
      | error e => exact fun _ => .failed (nfserr e) (nfserr_ne_ok e) rfl rfl
      | ok entries =>
        refine always_ask fun dst => always_ask fun owner => always_bind.mpr ?_
        let w₁ := putHead exports r.exp dst.toOption w
        refine (walk_page w₁.buf.length entries 0 false w₁).imp fun trace out listed agrees => ?_
        have made : ∀ event ∈ trace, Made event := fun event present =>
          Agrees.made_after agrees event (by simp [present])
        obtain ⟨attr, verf, encodes, attr_size, verf_size, adds⟩ :=
          adds_head exports r.exp dst.toOption
        obtain ⟨tracks_head, head⟩ := adds w start tracks
        -- What stands before the entries fits in any case, so the walk starts from nothing used.
        have size_head : (start ++ (word 0 ++ (word 0 ++ (attr ++ verf)))).length ≤ w.cap := by
          have short := attrSize_le dst.toOption
          simp only [List.length_append, length_word, attr_size, verf_size]
          omega
        have begun : w₁.buf = start ++ (word 0 ++ (word 0 ++ (attr ++ verf))) :=
          tracks_head.eq (by rw [head.cap]; exact size_head)
        obtain ⟨⟨items, encoded, tracks_list⟩, walked⟩ := listed made _ tracks_head (by rw [begun])
        rw [begun, Nat.sub_self, Nat.sub_zero] at encoded
        have adds_end := (adds_put (word 0)).comp (adds_put (word (if out.2 then 1 else 0)))
        obtain ⟨tracks_end, ended⟩ := adds_end out.1 _ tracks_list
        refine .listed ⟨plus, most, dst.toOption, _⟩ _ ?_
          ⟨attr, verf, items, out.2, encodes, attr_size, verf_size, encoded, rfl⟩ ?_
          ((head.trans walked).trans ended)
        · simp only [pageOf, read, Option.map_some]
        · simp only [listing, List.append_assoc] at tracks_end ⊢
          exact tracks_end

end Answers

def readdirProc (plus : Bool) : Nat := if plus then 17 else 16

/-- The reply is its header and one encoding of the result of the procedure, with nothing missing.
-/
def Complete (proc xid : Nat) (w : Writer) : Prop :=
  w.buf.take 20 = header xid ∧ Encodes (replyType (resultType proc)) (w.buf.drop 20)

def Succeeded (w : Writer) : Prop := (w.buf.drop 20).take 8 = word 0 ++ word 0

/-- The body of a listing that does not hold a single entry is no larger than the client asked. -/
def Bounded (proc : Nat) (c : Args) (w : Writer) : Prop :=
  ∀ plus args, proc = readdirProc plus → readdirArgs plus c = some args → Succeeded w →
    entriesIn plus (w.buf.drop 28) ≠ some 1 → (w.buf.drop 28).length ≤ args.2.2

/-- The page fits in the buffer, and with everything before the entries in the count of the client.
-/
def Fits (proc : Nat) (c : Args) (trace : Trace Answer) : Prop :=
  ∀ plus p, proc = readdirProc plus → pageOf plus c trace = some p →
    28 + p.size ≤ nfsdBufcap ∧ (p.entries.length = 1 ∨ p.size ≤ p.most)

section Whole

variable {exports : List Export} {peer : Peer} {table : Table} {c : Args} {xid proc : Nat}
    {plus : Bool}
variable {trace : Trace Answer} {w w' : Writer}

theorem init_tracks (xid : Nat) : Tracks (xdrwInit nfsdBufcap xid) (header xid) ∧
    (xdrwInit nfsdBufcap xid).cap = nfsdBufcap := by
  have empty : Tracks ⟨[], nfsdBufcap, true⟩ [] :=
    ⟨Nat.zero_le _, List.prefix_rfl, fun _ => rfl, nofun⟩
  have adds := (adds_put (word xid)).comp (adds_put (word 1)) |>.comp (adds_put (word 0)) |>.comp
    (adds_put (word 0)) |>.comp (adds_put (word 0))
  obtain ⟨tracks, extended⟩ := adds _ [] empty
  exact ⟨tracks, extended.cap⟩

theorem length_header (xid : Nat) : (header xid).length = 20 := rfl

theorem init_room (xid : Nat) : (header xid).length + 104 ≤ (xdrwInit nfsdBufcap xid).cap := by
  rw [(init_tracks xid).2, length_header]
  decide

theorem init_buf (xid : Nat) : (xdrwInit nfsdBufcap xid).buf = header xid := by
  obtain ⟨tracks, cap⟩ := init_tracks xid
  exact tracks.eq (by rw [cap, length_header]; decide)

theorem header_take (extended : Extends (xdrwInit nfsdBufcap xid) w') :
    w'.buf.take 20 = header xid := by
  have begins := extended.begins
  rw [init_buf] at begins
  exact (List.prefix_iff_eq_take.mp begins).symm

theorem complete_iff {bytes : Bytes} (extended : Extends (xdrwInit nfsdBufcap xid) w')
    (tracks : Tracks w' (header xid ++ bytes))
    (encodes : Encodes (replyType (resultType proc)) bytes) :
    Complete proc xid w' ↔ 20 + bytes.length ≤ nfsdBufcap := by
  have begun : (header xid).length ≤ w'.buf.length := by
    have begins := extended.begins.length_le
    rwa [init_buf] at begins
  have fits := tracks.encodes_iff encodes begun
  rw [length_header, extended.cap, (init_tracks xid).2] at fits
  exact ⟨fun complete => fits.mp complete.2, fun room => ⟨header_take extended, fits.mpr room⟩⟩

theorem complete_of_sends (sends : Sends (resultType proc) (xdrwInit nfsdBufcap xid) w') :
    Complete proc xid w' := by
  obtain ⟨f, ⟨n, short, bytes, encodes, length, adds⟩, rfl⟩ := sends
  obtain ⟨tracks, extended⟩ := adds _ _ (init_tracks xid).1
  refine (complete_iff extended tracks encodes).mpr ?_
  have room : 20 ≤ nfsdBufcap := by decide
  omega

theorem whole_of_sends (sends : Sends (resultType proc) (xdrwInit nfsdBufcap xid) w')
    (other : ∀ plus, proc ≠ readdirProc plus) : Complete proc xid w' ∧ Bounded proc c w' ↔
    Fits proc c trace :=
  iff_of_true ⟨complete_of_sends sends, fun plus _ same =>
    absurd same (other plus)⟩ fun plus _ same => absurd same (other plus)

theorem readdirProc_inj {a b : Bool} (same : readdirProc a = readdirProc b) : a = b := by
  revert a b
  decide

theorem resultType_readdir (plus : Bool) :
    resultType (readdirProc plus) = .switch (.seq postOpAttr (dirList plus)) postOpAttr := by
  cases plus <;> rfl

theorem failPost_complete {s : Status} (failed : s ≠ .ok) :
    Complete (readdirProc plus) xid
    (failPost s (xdrwAccept .success (xdrwInit nfsdBufcap xid))) := by
  refine complete_of_sends ?_
  rw [resultType_readdir]
  exact sends_failPost failed

theorem extends_failPost (s : Status) (w : Writer) : Extends (putStatus s w) (failPost s w) :=
  extends_put _ _

theorem not_succeeded {s : Status} (failed : s ≠ .ok)
    (extended : Extends (putStatus s (xdrwAccept .success (xdrwInit nfsdBufcap xid)))
      w') : ¬Succeeded w' := by
  obtain ⟨tracks, begun⟩ :=
    ((adds_put (word 0)).comp (adds_put (word s.code))) _ _ (init_tracks xid).1
  have short : (header xid ++ (word 0 ++ word s.code)).length ≤ nfsdBufcap := by
    simp only [List.length_append, length_header, length_word]
    decide
  have sent := tracks.eq (by rw [begun.cap, (init_tracks xid).2]; exact short)
  obtain ⟨more, whole⟩ := extended.begins
  intro succeeded
  have same : word 0 ++ word s.code = word 0 ++ word 0 := by
    have split_header : w'.buf = header xid ++ (word 0 ++ word s.code ++ more) := by
      rw [← whole, ← List.append_assoc]
      exact congrArg (· ++ more) sent
    rw [Succeeded, split_header, List.drop_left' (length_header xid)] at succeeded
    exact succeeded
  have code := readWord_word s.code []
  rw [List.append_cancel_left same, readWord_zero] at code
  exact code_ne_zero failed (congrArg Prod.fst (Option.some.inj code)).symm

theorem garbage_not_succeeded : ¬Succeeded (xdrwAccept .garbageArgs (xdrwInit nfsdBufcap xid)) := by
  obtain ⟨tracks, begun⟩ := (adds_put (word 4)) _ _ (init_tracks xid).1
  have short : (header xid ++ word 4).length ≤ nfsdBufcap := by
    simp only [List.length_append, length_header, length_word]
    decide
  have sent := tracks.eq (by rw [begun.cap, (init_tracks xid).2]; exact short)
  intro succeeded
  have lengths := congrArg List.length succeeded
  have at_end : (xdrwAccept .garbageArgs (xdrwInit nfsdBufcap xid)).buf.drop 20 = word 4 :=
    (congrArg (List.drop 20) sent).trans (List.drop_left' (length_header xid))
  rw [at_end] at lengths
  exact absurd lengths (by decide)

section

variable {p : Page} {bytes : Bytes}

theorem reply_length (body : Body p bytes) :
    20 + (word 0 ++ (word 0 ++ bytes)).length = 28 + p.size := by
  rw [List.length_append, List.length_append, length_word, body.length]
  omega

theorem listed_complete_iff (body : Body p bytes)
    (tracks : Tracks w' (header xid ++ (word 0 ++ (word 0 ++ bytes))))
    (extended : Extends (xdrwInit nfsdBufcap xid) w') :
    Complete (readdirProc p.plus) xid w' ↔ 28 + p.size ≤ nfsdBufcap := by
  have encodes : Encodes (replyType (resultType (readdirProc p.plus))) (word 0 ++
      (word 0 ++ bytes)) := by
    rw [resultType_readdir]
    exact Encodes.zero (Encodes.zero body.encodes)
  rw [← reply_length body]
  exact complete_iff extended tracks encodes

theorem listed_iff {args : Handle × Nat × Nat} (read : readdirArgs plus c = some args)
    (most : p.most = args.2.2) (form : p.plus = plus) (body : Body p bytes)
    (tracks : Tracks w' (header xid ++ (word 0 ++ (word 0 ++ bytes))))
    (extended : Extends (xdrwInit nfsdBufcap xid) w') :
    Complete (readdirProc plus) xid w' ∧ Bounded (readdirProc plus) c w' ↔
      28 + p.size ≤ nfsdBufcap ∧ (p.entries.length = 1 ∨ p.size ≤ p.most) := by
  subst form
  rw [listed_complete_iff body tracks extended]
  refine and_congr_right fun room => ?_
  have sent : w'.buf = header xid ++ (word 0 ++ (word 0 ++ bytes)) := by
    refine tracks.eq ?_
    rw [extended.cap, (init_tracks xid).2, List.length_append, length_header, reply_length body]
    exact room
  have succeeded : Succeeded w' := by
    rw [Succeeded, sent, List.drop_left' (length_header xid)]
    rfl
  have result : w'.buf.drop 28 = bytes := by
    rw [sent]
    rfl
  constructor
  · intro bounded
    refine or_iff_not_imp_left.mpr fun several => ?_
    have fits := bounded p.plus args rfl read succeeded
    rw [result, body.entriesIn, body.length] at fits
    rw [most]
    exact fits fun single => several (Option.some.inj single)
  · intro fits plus' args' same read' _
    obtain rfl := readdirProc_inj same
    obtain rfl := Option.some.inj (read.symm.trans read')
    rw [result, body.entriesIn, body.length, ← most]
    exact fun several => fits.resolve_left fun single => several (congrArg some single)

end

theorem pageOf_some {p : Page} (found : pageOf plus c trace = some p) :
    ∃ args, readdirArgs plus c = some args ∧ p.most = args.2.2 ∧ p.plus = plus := by
  unfold pageOf at found
  split at found
  · obtain ⟨args, read, rfl⟩ := Option.map_eq_some_iff.mp found
    exact ⟨args, read, rfl, rfl⟩
  · cases found

theorem readdir_whole (plus : Bool) :
    Always (procReaddir exports plus c (xdrwInit nfsdBufcap xid)) fun trace w' =>
      Agrees exports peer table trace →
        (Complete (readdirProc plus) xid w' ∧ Bounded (readdirProc plus) c w' ↔
            Fits (readdirProc plus) c trace) := by
  refine (readdir_answers peer table (init_tracks xid).1 (init_room xid)).imp
    fun trace w' answered agrees => ?_
  have no_page (nothing : pageOf plus c trace = none) : Fits (readdirProc plus) c trace := by
    intro plus' p same found
    obtain rfl := readdirProc_inj same
    rw [nothing] at found
    cases found
  cases answered agrees with
  | garbage unread nothing sent =>
    refine iff_of_true ⟨by rw [sent]; exact complete_of_sends sends_garbage, ?_⟩ (no_page nothing)
    intro plus' args same read
    obtain rfl := readdirProc_inj same
    rw [unread] at read
    cases read
  | failed s failed nothing sent =>
    refine iff_of_true ⟨by rw [sent]; exact failPost_complete failed, ?_⟩ (no_page nothing)
    intro _ _ _ _ succeeded
    rw [sent] at succeeded
    exact absurd succeeded (not_succeeded failed (extends_failPost s _))
  | listed p bytes found body tracks extended =>
    obtain ⟨args, read, most, form⟩ := pageOf_some found
    rw [listed_iff read most form body tracks extended]
    constructor
    · intro fits plus' p' same found'
      obtain rfl := readdirProc_inj same
      obtain rfl := Option.some.inj (found.symm.trans found')
      exact fits
    · exact fun fits => fits plus p rfl found

theorem other_proc {n : Nat} (below : n < 16 ∨ 17 < n) (plus : Bool) : n ≠ readdirProc plus := by
  cases plus <;> simp only [readdirProc, if_true, Bool.false_eq_true, if_false] <;> omega

theorem other_whole {prog : Nfs Writer} (other : proc < 16 ∨ 17 < proc)
    (sends : Handled (Sends (resultType proc) (xdrwInit nfsdBufcap xid)) false prog) :
    Always prog fun trace w' =>
      Agrees exports peer table trace →
          (Complete proc xid w' ∧ Bounded proc c w' ↔ Fits proc c trace) :=
  sends.always.imp fun _ _ sends _ => whole_of_sends sends (other_proc other)

/-- Every reply is whole, and no listing is larger than the client asked, exactly if a listing fits
in the buffer and in the count. -/
theorem replies_complete_iff (exports : List Export) (peer : Peer) (table : Table)
    (proc xid : Nat) (c : Args) :
    Always (nfs3Handle exports nfsdIocap proc c (xdrwInit nfsdBufcap xid)) fun trace w' =>
      Agrees exports peer table trace →
          (Complete proc xid w' ∧ Bounded proc c w' ↔ Fits proc c trace) := by
  unfold nfs3Handle
  split
  · exact fun _ => whole_of_sends sends_nothing (other_proc (by decide))
  · exact other_whole (by decide) getattr_sends
  · exact other_whole (by decide) setattr_sends
  · exact lookup_sends.imp fun _ _ sends agrees =>
      whole_of_sends (sends agrees) (other_proc (by decide))
  · exact other_whole (by decide) access_sends
  · exact other_whole (by decide) readlink_sends
  · exact (read_sends nfsdIocap).always.imp fun _ _ sends _ =>
      whole_of_sends (sends rfl) (other_proc (by decide))
  · exact other_whole (by decide) write_sends
  · exact other_whole (by decide) create_sends
  · exact other_whole (by decide) mkdir_sends
  · exact other_whole (by decide) notsupp_sends
  · exact other_whole (by decide) notsupp_sends
  · exact other_whole (by decide) (remove_sends false)
  · exact other_whole (by decide) (remove_sends true)
  · exact other_whole (by decide) rename_sends
  · exact other_whole (by decide) link_sends
  · exact readdir_whole false
  · exact readdir_whole true
  · exact other_whole (by decide) fsstat_sends
  · exact other_whole (by decide) (fsinfo_sends nfsdIocap)
  · exact other_whole (by decide) pathconf_sends
  · exact other_whole (by decide) commit_sends
  · rename_i not_readdir not_readdirplus _ _ _ _
    have other : proc < 16 ∨ 17 < proc := by
      have below : proc ≠ 16 := not_readdir
      have above : proc ≠ 17 := not_readdirplus
      omega
    exact fun _ => whole_of_sends sends_unavail (other_proc other)

theorem readdir_complete (exports : List Export) (peer : Peer) (table : Table)
    (plus : Bool) (c : Args) (xid : Nat) :
    Always (procReaddir exports plus c (xdrwInit nfsdBufcap xid)) fun trace w' =>
      Agrees exports peer table trace → ∀ p, pageOf plus c trace = some p →
        (Complete (readdirProc plus) xid w' ↔ 28 + p.size ≤ nfsdBufcap) := by
  refine (readdir_answers peer table (init_tracks xid).1 (init_room xid)).imp
    fun trace w' answered agrees p found => ?_
  obtain ⟨args, _, _, form⟩ := pageOf_some found
  cases answered agrees with
  | garbage _ nothing _ | failed _ _ nothing _ => cases nothing.symm.trans found
  | listed p' bytes found' body tracks extended =>
    obtain rfl := Option.some.inj (found.symm.trans found')
    rw [← form]
    exact listed_complete_iff body tracks extended

theorem pageOf_follow (exports : List Export) (w : Writer) (answers : (q : Question) → Answer q)
    {args : Handle × Nat × Nat} {r : Resolved} {entries : List DirEntry}
    (read : readdirArgs plus c = some args)
    (resolved : answers (.resolve args.1) = some r) (opened : answers (.opendir r.path) =
      .ok entries) :
    pageOf plus c (follow answers (procReaddir exports plus c w)).1 =
      some ⟨plus, args.2.2, (answers (.stat r.path)).toOption,
        page plus (maxcountFor plus args.2.2) 0 false (entries.drop args.2.1)⟩ := by
  simp only [procReaddir, read, follow_ask, resolved, opened, pageOf, Option.map_some]

theorem readdir_makes_none (exports : List Export) (c : Args) (w : Writer) :
    Always (procReaddir exports false c w) fun trace _ => ∀ exp path answer,
    ⟨.make exp path, answer⟩ ∉ trace := by
  have asks : Asks (fun q => ∀ exp path, q ≠ .make exp path) (procReaddir exports false c w) := by
    unfold procReaddir
    split
    · exact asks_pure _
    · refine asks_then (by simp) fun found => ?_
      cases found with
      | none => exact asks_pure _
      | some r =>
        refine asks_then (by simp) fun opened => ?_
        cases opened with
        | error e => exact asks_pure _
        | ok entries =>
          refine asks_then (by simp) fun dst => asks_then (by simp) fun owner => ?_
          exact Asks.bind (asks_walk (by simp) _ _ _) fun _ => asks_pure _
  exact asks.always.imp fun _ _ unmade exp path answer present => unmade _ present exp path rfl

end Whole

section Disk

def mountedTable (dir : Path) : Table := (fhMake true Handles.boot 0 dir).1

def listCall (dir : Path) (count : Nat) : Args :=
  ⟨word fhLen ++ fhBytes 0 1 dir ++ word 0 ++ word 0 ++ word 0 ++ word 0 ++ word count, 0⟩

def disk (exports : List Export) (dir : Path) (listing : List DirEntry) : (q : Question) → Answer q
  | .resolve fh => fhResolve exports ⟨0, none⟩ (mountedTable dir) fh
  | .make exp path => some ⟨fhBytes exp 2 path, length_fhBytes exp 2 path⟩
  | .stat _ => .ok ⟨0o040755, 2, 0, 0, 0, 0, 0, 0, 0⟩
  | .open .. => .ok ()
  | .lseek _ => true
  | .read _ => .ok []
  | .write _ len => .ok (len - 1)
  | .fsync => .ok ()
  | .fstat => none
  | .close => ()
  | .truncate .. => .ok ()
  | .chmod .. => ()
  | .chown .. => ()
  | .utime .. => .ok ()
  | .mkdir .. => .ok ()
  | .rmdir _ => .ok ()
  | .unlink _ => .ok ()
  | .rename .. => .ok ()
  | .opendir _ => .ok listing
  | .mountOwner _ => (0, 0)
  | .space _ => (0, 0)
  | .verf => (0, 0)

theorem agrees_of_answers {exports : List Export} {peer : Peer} {table : Table}
    {trace : Trace Answer}
    (right : ∀ fh answer, ⟨.resolve fh, answer⟩ ∈ trace → answer = fhResolve exports peer table fh)
    (unmade : ∀ exp path answer,
      ⟨.make exp path, answer⟩ ∉ trace) : Agrees exports peer table trace := by
  induction trace with
  | nil => exact trivial
  | cons event trace ih =>
    have later := ih (fun fh answer present => right fh answer (.tail _ present))
      fun exp path answer present => unmade exp path answer (.tail _ present)
    obtain ⟨question, answer⟩ := event
    cases question with
    | make exp path => exact absurd (.head _) (unmade exp path answer)
    | resolve fh => exact ⟨right fh answer (.head _), later⟩
    | _ => exact later

def shortNamed (c : Char) : DirEntry := ⟨[c], 0, none, show 1 < nameCap by decide⟩

def longNamed (k : Nat) : DirEntry where
  name := List.replicate 254 'x' ++ [Char.ofNat (48 + k)]
  ino := 0
  info := none
  short := by
    rw [List.length_append, List.length_replicate, List.length_singleton]
    decide

def listed (listing : List DirEntry) (count : Nat) : Trace Answer × Writer :=
  follow (disk [wholeDisk] ['/'] listing)
    (nfs3Handle [wholeDisk] nfsdIocap 16 (listCall ['/'] count) (xdrwInit nfsdBufcap 1))

theorem listed_agrees (listing : List DirEntry) (count : Nat) :
    Agrees [wholeDisk] ⟨0, none⟩ (mountedTable ['/']) (listed listing count).1 := by
  have unmade :=
    (readdir_makes_none [wholeDisk] (listCall ['/'] count) (xdrwInit nfsdBufcap 1)).follow
    (disk [wholeDisk] ['/'] listing)
  exact agrees_of_answers (fun _ _ present => answer_of_mem_follow present) unmade

/-- Two entries for a count of a hundred bytes make a body of 160, and sixty long names outgrow the
buffer. -/
theorem listings_outgrow :
    (∃ listing, Agrees [wholeDisk] ⟨0, none⟩ (mountedTable ['/']) (listed listing 100).1 ∧
        ¬Bounded 16 (listCall ['/'] 100) (listed listing 100).2) ∧
      ∃ listing, Agrees [wholeDisk] ⟨0, none⟩ (mountedTable ['/']) (listed listing 32768).1 ∧
        ¬Complete 16 1 (listed listing 32768).2 := by
  constructor
  · refine ⟨[shortNamed 'a', shortNamed 'b'], listed_agrees _ _, fun bounded => ?_⟩
    have read : readdirArgs false (listCall ['/'] 100) = some (fhBytes 0 1 ['/'], 0, 100) := by
      decide +kernel
    have size := bounded false _ rfl read (by unfold Succeeded; decide +kernel) (by decide +kernel)
    exact absurd size (by decide +kernel)
  · let long := (List.range 60).map longNamed
    refine ⟨long, listed_agrees _ _, fun complete => ?_⟩
    have read : readdirArgs false (listCall ['/'] 32768) = some (fhBytes 0 1 ['/'], 0, 32768) := by
      decide +kernel
    have resolved : fhResolve [wholeDisk] ⟨0, none⟩ (mountedTable ['/']) (fhBytes 0 1 ['/']) =
      some ⟨0, ['/'], everyone⟩ := by decide +kernel
    let answers := disk [wholeDisk] ['/'] long
    have found := pageOf_follow [wholeDisk] (xdrwInit nfsdBufcap 1) answers read resolved rfl
    have whole :=
      (readdir_complete [wholeDisk] ⟨0, none⟩ (mountedTable ['/']) false
        (listCall ['/'] 32768) 1).follow
      answers (listed_agrees long 32768)
    exact absurd ((whole _ found).mp complete) (by decide +kernel)

end Disk

end Espix.Nfsd.Pages
