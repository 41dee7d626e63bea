import Espix.Nfsd.Nfs3

/-! Every reply is whole, except a READDIR page that outgrows the buffer.

The types of the results are those of RFC 1813. A page may also be larger than the client asked:
the walk counts the entries, but not the attributes of the directory before them. -/

namespace Espix.Nfsd.Replies

open Fs.Access (Path)
open Lib.Ask Lib.Xdr Exports
open Handles hiding Event step boot
open Nfs3
open Requests (nameOk joinPath childPath)
open Rpc

section Types

def void : Ty := .fixed 0
def postOpAttr : Ty := .optional (.fixed 84)
def wccData : Ty := .seq (.optional (.fixed 24)) postOpAttr
def postOpFh : Ty := .optional .bytes

def entry (plus : Bool) : Ty :=
  let named := Ty.seq (.fixed 8) (.seq .bytes (.fixed 8))
  if plus then .seq named (.seq postOpAttr postOpFh) else named

def dirList (plus : Bool) : Ty := .seq (.fixed 8) (.seq (.list (entry plus)) .bool)

def resultType : Nat → Ty
  | 1 => .switch (.fixed 84) void
  | 2 => .switch wccData wccData
  | 3 => .switch (.seq .bytes (.seq postOpAttr postOpAttr)) postOpAttr
  | 4 => .switch (.seq postOpAttr (.fixed 4)) postOpAttr
  | 5 => .switch (.seq postOpAttr .bytes) postOpAttr
  | 6 => .switch (.seq postOpAttr (.seq (.fixed 4) (.seq .bool .bytes))) postOpAttr
  | 7 => .switch (.seq wccData (.fixed 16)) wccData
  | 8 | 9 | 10 | 11 => .switch (.seq postOpFh (.seq postOpAttr wccData)) wccData
  | 12 | 13 => .switch wccData wccData
  | 14 => .switch (.seq wccData wccData) (.seq wccData wccData)
  | 15 => .switch (.seq postOpAttr wccData) (.seq postOpAttr wccData)
  | 16 => .switch (.seq postOpAttr (dirList false)) postOpAttr
  | 17 => .switch (.seq postOpAttr (dirList true)) postOpAttr
  | 18 => .switch (.seq postOpAttr (.fixed 52)) postOpAttr
  | 19 => .switch (.seq postOpAttr (.fixed 48)) postOpAttr
  | 20 =>
      .switch
        (.seq postOpAttr (.seq (.fixed 8) (.seq .bool (.seq .bool (.seq .bool .bool))))) postOpAttr
  | 21 => .switch (.seq wccData (.fixed 8)) wccData
  | _ => void

def replyType (result : Ty) : Ty := .switch result void

end Types

def Sends (result : Ty) (w w' : Writer) : Prop :=
  ∃ f, Writes (replyType result) (nfsdBufcap - 20) f ∧ w' = f w

section Pieces

variable {a b t : Ty} {n m : Nat} {f g : Writer → Writer} {exports : List Export} {exp : Nat}

theorem writes_nothing : Writes void 0 id := Puts.writes ⟨[], rfl, adds_nothing⟩

theorem puts_time (secs : Nat) : Puts 8 (putTime secs) := (puts_u32 secs).comp (puts_u32 0)

theorem puts_fattr (exports : List Export) (exp : Nat) (st : Stat) :
    Puts 84 (putFattr exports exp st) :=
  (puts_u32 _).comp (puts_u32 _) |>.comp (puts_u32 _) |>.comp (puts_u32 _) |>.comp (puts_u32 _)
    |>.comp (puts_u64 _) |>.comp (puts_u64 _) |>.comp (puts_u32 _) |>.comp (puts_u32 _) |>.comp
        (puts_u64 _)
    |>.comp (puts_u64 _) |>.comp (puts_time _) |>.comp (puts_time _) |>.comp (puts_time _)

def attrSize {A : Type} (st : Option A) : Nat := if st.isSome then 88 else 4

theorem attrSize_le {A : Type} (st : Option A) : attrSize st ≤ 88 := by
  unfold attrSize
  split <;> decide

theorem fills_postAttr (exports : List Export) (exp : Nat) (st : Option Stat) :
    Fills postOpAttr (attrSize st) (putPostAttr exports exp st) := by
  cases st with
  | none => exact fills_absent
  | some st => exact (puts_fattr exports exp st).fills.present

theorem writes_postAttr (exports : List Export) (exp : Nat) (st : Option Stat) :
    Writes postOpAttr 88 (putPostAttr exports exp st) :=
  (fills_postAttr exports exp st).writes.le (attrSize_le st)

theorem puts_wccAttr (st : Stat) : Puts 24 (putWccAttr st) :=
  (puts_u64 _).comp (puts_time _) |>.comp (puts_time _)

theorem writes_before (before : Option Stat) :
    Writes (.optional (.fixed 24)) 28 (putBefore before) := by
  cases before with
  | none => exact writes_absent.le (by decide)
  | some st => exact (puts_wccAttr st).fills.present.writes

theorem writes_wcc (exports : List Export) (exp : Nat) (before after : Option Stat) :
    Writes wccData 116 (putWcc exports exp before after) :=
  (writes_before before).seq (writes_postAttr exports exp after)

theorem writes_wccFail (before : Option Stat) : Writes wccData 32 (putWccFail before) :=
  (writes_before before).seq writes_absent

theorem writes_wccNone : Writes wccData 8 putWccNone := writes_absent.seq writes_absent

theorem fills_fh (fh : FhBytes) : Fills .bytes 32 (putFh fh) := by
  have short : fh.val.length < 2 ^ 32 := by
    rw [fh.property]
    decide
  have size : 4 + padded fh.val.length = 32 := by
    rw [fh.property]
    decide
  exact size ▸ fills_bytes short

theorem fills_postFh (fh : FhBytes) : Fills postOpFh 36 (putPostFh (some fh)) :=
  (fills_fh fh).present

theorem writes_postFh (fh : Option FhBytes) : Writes postOpFh 36 (putPostFh fh) := by
  cases fh with
  | none => exact writes_absent.le (by decide)
  | some fh => exact (fills_postFh fh).writes

theorem nfserr_ne_ok (e : Errno) : nfserr e ≠ .ok := by cases e <;> decide

theorem code_ne_zero {s : Status} (failed : s ≠ .ok) : s.code % 2 ^ 32 ≠ 0 := by
  cases s <;> first | exact absurd rfl failed | decide

theorem writes_okay (arm : Writes a n g) : Writes (.switch a b) (4 + n) fun w =>
    g (putStatus .ok w) := arm.zero

theorem writes_failed {s : Status} (failed : s ≠ .ok) (arm : Writes b n g) :
    Writes (.switch a b) (4 + n) fun w => g (putStatus s w) := arm.other (code_ne_zero failed)

end Pieces

section Sends

variable {result a b : Ty} {n : Nat} {f : Writer → Writer} {w : Writer} {s : Status}

theorem sends_accepted (writes : Writes result n f) (short : 4 + n ≤ nfsdBufcap - 20) :
    Sends result w (f (xdrwAccept .success w)) :=
  ⟨_, (Writes.zero writes).le short, rfl⟩

theorem sends_nothing : Sends void w (xdrwAccept .success w) :=
  sends_accepted writes_nothing (by decide)

theorem sends_garbage : Sends result w (xdrwAccept .garbageArgs w) :=
  ⟨_, (Writes.other writes_nothing (by decide)).le (by decide), rfl⟩

theorem sends_unavail : Sends result w (xdrwAccept .procUnavail w) :=
  ⟨_, (Writes.other writes_nothing (by decide)).le (by decide), rfl⟩

theorem sends_okay (arm : Writes a n f) (short : 8 + n ≤ nfsdBufcap - 20) :
    Sends (.switch a b) w (f (putStatus .ok (xdrwAccept .success w))) :=
  sends_accepted (writes_okay arm) (by omega)

section

variable (failed : s ≠ .ok)

include failed

theorem sends_failed (arm : Writes b n f) (short : 8 + n ≤ nfsdBufcap - 20) :
    Sends (.switch a b) w (f (putStatus s (xdrwAccept .success w))) :=
  sends_accepted (writes_failed failed arm) (by omega)

theorem sends_failPost : Sends (.switch a postOpAttr) w (failPost s (xdrwAccept .success w)) :=
  sends_failed failed writes_absent (by decide)

theorem sends_failWcc : Sends (.switch a wccData) w (failWcc s (xdrwAccept .success w)) :=
  sends_failed failed writes_wccNone (by decide)

theorem sends_wccFail (before : Option Stat) :
    Sends (.switch a wccData) w (putWccFail before (putStatus s (xdrwAccept .success w))) :=
  sends_failed failed (writes_wccFail before) (by decide)

theorem sends_failWccTwice :
    Sends (.switch a (.seq wccData wccData)) w (failWccTwice s (xdrwAccept .success w)) :=
  sends_failed failed (writes_wccNone.seq writes_wccNone) (by decide)

end

end Sends

section Walk

variable {R : Type} {P : Writer → Prop} {ready : Bool} {exports : List Export}
    {path : Path} {w : Writer}

def Settled : Question → Prop
  | .resolve _ => False
  | _ => True

/-- Nothing is asked of the files but with a handle that resolved, and `P` holds of every reply. -/
def Handled (P : Writer → Prop) : Bool → Nfs Writer → Prop
  | _, .ret w => P w
  | _, .ask (.resolve _) next => Handled P false (next none) ∧ ∀ r, Handled P true (next (some r))
  | ready, .ask _ next => ready = true ∧ ∀ a, Handled P ready (next a)

theorem Handled.always {p : Nfs Writer} (handled : Handled P ready p) :
    Always p fun _ w' => P w' := by
  induction p generalizing ready with
  | ret w => exact handled
  | ask q next ih =>
    intro a
    cases q
    case resolve =>
      cases a with
      | none => exact ih none handled.1
      | some r => exact ih (some r) (handled.2 r)
    all_goals exact ih a (handled.2 a)

theorem handled_resolve {fh : Handle} {k : Option Resolved → Nfs Writer}
    (failed : Handled P false (k none))
    (resolved : ∀ r, Handled P true (k (some r))) : Handled P ready (Call.resolve fh >>= k) :=
  ⟨failed, resolved⟩

theorem handled_ask {q : Question} {k : Answer q → Nfs Writer} (settled : Settled q)
    (each : ∀ a, Handled P true (k a)) : Handled P true (ask q >>= k) := by
  cases q
  case resolve => exact settled.elim
  all_goals exact ⟨rfl, each⟩

theorem handled_after {p : Nfs R} {k : R → Nfs Writer} (asks : Asks Settled p)
    (each : ∀ r, Handled P true (k r)) : Handled P true (p >>= k) := by
  induction p with
  | ret r => exact each r
  | ask q next ih => exact handled_ask asks.1 fun a => ih a (asks.2 a)

theorem asks_seek (off : Nat) : Asks Settled (seek off) := by
  unfold seek
  split
  · exact asks_pure _
  · exact asks_ask trivial

theorem asks_settle (stable : Nat) (stopped : Option Errno) :
    Asks Settled (settle stable stopped) := by
  unfold settle
  split
  · refine asks_then trivial fun flushed => ?_
    cases flushed <;> exact asks_pure _
  · exact asks_pure _

theorem asks_writeAll (start turns done left : Nat) :
    Asks Settled (writeAll start turns done left) := by
  induction turns generalizing done left with
  | zero => exact asks_pure _
  | succ turns ih =>
    unfold writeAll
    split
    · exact asks_pure _
    · refine asks_then trivial fun wrote => ?_
      split
      · exact asks_pure _
      · exact ih _ _

theorem asks_applySattr (a : Sattr) : Asks Settled (applySattr path a) :=
  asks_sattr (fun _ => trivial) (fun _ => trivial) (fun _ _ => trivial) trivial
  (fun _ _ => trivial) a

theorem asks_emptied (directory : Bool) : Asks Settled (emptied directory path) := by
  unfold emptied dirIsEmpty
  split
  · refine asks_then trivial fun listing => ?_
    cases listing <;> exact asks_pure _
  · exact asks_pure _

theorem asks_takeAway (directory : Bool) : Asks Settled (takeAway directory path) := by
  unfold takeAway
  split <;> exact asks_ask trivial

theorem asks_walk {allowed : Question → Prop} {plus : Bool} {maxcount replyAt cookie : Nat}
    {r : Resolved}
    {owner : Nat × Nat} (makes : plus = true → ∀ exp path, allowed (.make exp path))
    (listing : List DirEntry)
    (before : Nat) (wrote : Bool) :
    Asks allowed
    (readdirWalk exports plus maxcount replyAt cookie r owner listing before wrote w) := by
  induction listing generalizing before wrote w with
  | nil => exact asks_pure _
  | cons de rest ih =>
    unfold readdirWalk
    dsimp only
    split
    · exact ih _ _
    · split
      · exact asks_pure _
      · split
        · rename_i with_handles
          exact asks_then (makes with_handles _ _) fun _ => ih _ _
        · exact ih _ _

end Walk

section Procedures

variable {exports : List Export} {peer : Peer} {table : Table} {c : Args} {w : Writer}

theorem make_present (present : table.slots.isSome) (heap : Bool) (exp : Nat) (path : Path) :
    (fhMake heap table exp path).2.isSome ∧ (fhMake heap table exp path).1.slots.isSome := by
  obtain ⟨slots, found⟩ := Option.isSome_iff_exists.mp present
  have ready : slotsEnsure heap table = some slots := by simp [slotsEnsure, found]
  fun_cases fhMake heap table exp path with
  | case1 refused => cases ready.symm.trans refused
  | _ => exact ⟨rfl, rfl⟩

def Made : Sigma Answer → Prop
  | ⟨.make .., answer⟩ => answer.isSome
  | _ => True

theorem Agrees.made {trace : Trace Answer} (agrees : Agrees exports peer table trace)
    (present : table.slots.isSome) :
    ∀ event ∈ trace, Made event := by
  induction trace generalizing table with
  | nil => exact fun _ impossible => absurd impossible List.not_mem_nil
  | cons event trace ih =>
    rw [List.forall_mem_cons]
    obtain ⟨question, answer⟩ := event
    cases question with
    | make exp path =>
      obtain ⟨heap, made, later⟩ := agrees
      obtain ⟨some_fh, stays⟩ := make_present present heap exp path
      rw [← made, Option.isSome_map] at some_fh
      exact ⟨some_fh, ih later stays⟩
    | resolve fh => exact ⟨trivial, ih agrees.2 present⟩
    | _ => exact ⟨trivial, ih agrees present⟩

theorem Agrees.made_after {trace : Trace Answer} {fh : Handle} {r : Resolved}
    (agrees : Agrees exports peer table (⟨.resolve fh, some r⟩ :: trace)) : ∀ event ∈ trace,
    Made event := by
  obtain ⟨resolved, later⟩ := agrees
  obtain ⟨_, _, slots, _, _, _, present, _⟩ := fhResolve_some resolved.symm
  exact Agrees.made later (by rw [present]; rfl)

theorem getattr_sends : Handled (Sends (resultType 1) w) false (procGetattr exports c w) := by
  unfold procGetattr
  split
  · exact sends_garbage
  · refine handled_resolve (sends_failed (by decide) writes_nothing (by decide)) fun r => ?_
    refine handled_ask trivial fun answer => ?_
    cases answer with
    | error e => exact sends_failed (nfserr_ne_ok e) writes_nothing (by decide)
    | ok st => exact sends_okay (puts_fattr exports r.exp st).writes (by decide)

theorem lookup_sends : Always (procLookup exports c w) fun trace w' =>
    Agrees exports peer table trace → Sends (resultType 3) w w' := by
  unfold procLookup
  split
  · exact fun _ => sends_garbage
  · refine always_ask fun found => ?_
    cases found with
    | none => exact fun _ => sends_failPost (by decide)
    | some r =>
      dsimp only
      split
      · exact fun _ => sends_failPost (by decide)
      · split
        · exact fun _ => sends_failPost (by decide)
        · rename_i path _
          intro answer
          cases answer with
          | error e =>
            intro dst _
            exact sends_failed (nfserr_ne_ok e) (writes_postAttr exports r.exp _) (by decide)
          | ok st =>
            intro child
            cases child with
            | none =>
              intro agrees
              have made := Agrees.made_after agrees ⟨.make r.exp path, none⟩ (by simp)
              exact absurd made nofun
            | some child =>
              intro dst _
              exact sends_okay ((fills_fh child).writes.seq
                ((writes_postAttr exports r.exp (some st)).seq (writes_postAttr exports r.exp _)))
                  (by decide)

theorem access_sends : Handled (Sends (resultType 4) w) false (procAccess exports c w) := by
  unfold procAccess
  split
  · exact sends_garbage
  · refine handled_resolve (sends_failPost (by decide)) fun r =>
      handled_ask trivial fun answer => ?_
    cases answer with
    | error e => exact sends_failPost (nfserr_ne_ok e)
    | ok st =>
        exact sends_okay ((writes_postAttr exports r.exp (some st)).seq (puts_u32 _).writes)
          (by decide)

theorem readlink_sends : Handled (Sends (resultType 5) w) false (procReadlink exports c w) := by
  unfold procReadlink
  split
  · exact sends_garbage
  · refine handled_resolve (sends_failPost (by decide)) fun r =>
      handled_ask trivial fun answer => ?_
    cases answer with
    | error e => exact sends_failPost (nfserr_ne_ok e)
    | ok st => exact sends_failed (by decide) (writes_postAttr exports r.exp (some st)) (by decide)

theorem read_sends (iocap : Nat) :
    Handled (fun w' => iocap = nfsdIocap → Sends (resultType 6) w w') false
    (procRead exports iocap c w) := by
  unfold procRead
  split
  · exact fun _ => sends_garbage
  · rename_i fh off want _
    refine handled_resolve (fun _ => sends_failPost (by decide)) fun r =>
      handled_ask trivial fun opened => ?_
    cases opened with
    | error e => exact fun _ => sends_failPost (nfserr_ne_ok e)
    | ok _ =>
      refine handled_after (asks_seek _) fun there => ?_
      cases there with
      | false => exact handled_ask trivial fun _ _ => sends_failPost (by decide)
      | true =>
        refine handled_ask trivial fun got => handled_ask trivial fun st =>
          handled_ask trivial fun _ => ?_
        cases got with
        | error e =>
          exact fun _ =>
            sends_failed (nfserr_ne_ok e) (writes_postAttr exports r.exp st) (by decide)
        | ok data =>
          rintro rfl
          have short : (data.take (min want nfsdIocap)).length ≤ nfsdIocap := by
            rw [List.length_take]
            omega
          have in_words := padded_lt (data.take (min want nfsdIocap)).length
          have small : (data.take (min want nfsdIocap)).length < 2 ^ 32 :=
            Nat.lt_of_le_of_lt short (by decide)
          refine sends_okay ((writes_postAttr exports r.exp st).seq ((puts_u32 _).writes.seq
            ((fills_bool _).writes.seq (fills_bytes small).writes))) ?_
          simp only [nfsdIocap, nfsdBufcap] at *
          omega

theorem fsstat_sends : Handled (Sends (resultType 18) w) false (procFsstat exports c w) := by
  unfold procFsstat
  split
  · exact sends_garbage
  · refine handled_resolve (sends_failPost (by decide)) fun r => handled_ask trivial fun space => ?_
    have sizes :=
      (puts_u64 space.1).comp (puts_u64 space.2) |>.comp (puts_u64 space.2) |>.comp (puts_u64 0)
      |>.comp (puts_u64 0) |>.comp (puts_u64 0) |>.comp (puts_u32 0)
    exact handled_ask trivial fun st =>
      sends_okay ((writes_postAttr exports r.exp _).seq sizes.writes) (by decide)

theorem fsinfo_sends (iocap : Nat) :
    Handled (Sends (resultType 19) w) false (procFsinfo iocap c w) := by
  unfold procFsinfo
  split
  · exact sends_garbage
  · refine handled_resolve (sends_failPost (by decide)) fun r => ?_
    have sizes :=
      (puts_u32 iocap).comp (puts_u32 iocap) |>.comp (puts_u32 4096) |>.comp (puts_u32 iocap)
      |>.comp (puts_u32 iocap) |>.comp (puts_u32 4096) |>.comp (puts_u32 4096) |>.comp
          (puts_u64 0x7FFFFFFF)
      |>.comp (puts_u32 1) |>.comp (puts_u32 0) |>.comp (puts_u32 0xB)
    exact sends_okay (writes_absent.seq sizes.writes) (by decide)

theorem pathconf_sends : Handled (Sends (resultType 20) w) false (procPathconf c w) := by
  unfold procPathconf
  split
  · exact sends_garbage
  · refine handled_resolve (sends_failPost (by decide)) fun r =>
      handled_ask trivial fun answer => ?_
    cases answer with
    | error e => exact sends_failPost (nfserr_ne_ok e)
    | ok st =>
      have limits := (puts_u32 32000).comp (puts_u32 255)
      have flags :=
        (fills_bool false).seq ((fills_bool true).seq ((fills_bool false).seq (fills_bool true)))
      exact sends_okay (fills_absent.seq (limits.fills.seq flags)).writes (by decide)

theorem setattr_sends : Handled (Sends (resultType 2) w) false (procSetattr exports c w) := by
  unfold procSetattr
  split
  · exact sends_garbage
  · refine handled_resolve (sends_failWcc (by decide)) fun r => handled_ask trivial fun before => ?_
    split
    · exact sends_wccFail (by decide) _
    · split
      · exact sends_wccFail (nfserr_ne_ok _) none
      · rename_i before
        split
        · exact sends_wccFail (by decide) (some before)
        · refine handled_after (asks_applySattr _) fun applied => ?_
          cases applied with
          | some e => exact sends_wccFail (nfserr_ne_ok e) (some before)
          | none =>
            exact handled_ask trivial fun after =>
              sends_okay (writes_wcc exports r.exp (some before) _) (by decide)

theorem write_sends : Handled (Sends (resultType 7) w) false (procWrite exports c w) := by
  unfold procWrite
  split
  · exact sends_garbage
  · rename_i fh off stable start dlen _
    refine handled_resolve (sends_failWcc (by decide)) fun r => ?_
    dsimp only
    split
    · exact sends_failWcc (by decide)
    · refine handled_ask trivial fun opened => ?_
      cases opened with
      | error e => exact sends_failWcc (nfserr_ne_ok e)
      | ok _ =>
        refine handled_ask trivial fun before => handled_after (asks_seek _) fun there => ?_
        cases there with
        | false => exact handled_ask trivial fun _ => sends_wccFail (by decide) before
        | true =>
          refine handled_after (asks_writeAll _ _ _ _) fun written =>
            handled_after (asks_settle _ _) fun err => ?_
          refine handled_ask trivial fun after => handled_ask trivial fun _ => ?_
          cases err with
          | some e => exact sends_wccFail (nfserr_ne_ok e) before
          | none =>
            refine handled_ask trivial fun verf => ?_
            have tail := (puts_u32 written.1).comp (puts_u32 (if stable = 0 then 0 else 2))
              |>.comp (puts_u32 verf.1) |>.comp (puts_u32 verf.2)
            exact sends_okay ((writes_wcc exports r.exp before after).seq tail.writes) (by decide)

theorem made_sends {r : Resolved} {path : Path} {before : Option Stat} :
    Handled (Sends (.switch (.seq postOpFh (.seq postOpAttr wccData)) wccData) w) true
      (putMade exports r path before (xdrwAccept .success w)) := by
  refine handled_ask trivial fun st => handled_ask trivial fun fh =>
    handled_ask trivial fun after => ?_
  exact sends_okay ((writes_postFh fh).seq ((writes_postAttr exports r.exp _).seq
    (writes_wcc exports r.exp before _))) (by decide)

theorem entry_sends {a : Ty} {fh : Handle} {name : Path} {work : Resolved → Path → Nfs Writer}
    (worked : ∀ r path, Handled (Sends (.switch a wccData) w) true (work r path)) :
    Handled (Sends (.switch a wccData) w) false (atEntry fh name (xdrwAccept .success w) work) := by
  refine handled_resolve (sends_failWcc (by decide)) fun r => ?_
  dsimp only
  split
  · exact sends_failWcc (by decide)
  · split
    · exact sends_failWcc (by decide)
    · split
      · exact sends_failWcc (by decide)
      · exact worked r _

theorem create_sends : Handled (Sends (resultType 8) w) false (procCreate exports c w) := by
  unfold procCreate
  split
  · exact sends_garbage
  · rename_i attr _
    refine entry_sends fun r path => handled_ask trivial fun before =>
      handled_ask trivial fun opened => ?_
    cases opened with
    | error e => exact sends_wccFail (nfserr_ne_ok e) _
    | ok _ =>
      refine handled_ask trivial fun _ => handled_after ?_ fun _ => made_sends
      cases attr with
      | none => exact asks_pure _
      | some attr => exact asks_applySattr attr

theorem mkdir_sends : Handled (Sends (resultType 9) w) false (procMkdir exports c w) := by
  unfold procMkdir
  split
  · exact sends_garbage
  · refine entry_sends fun r path => handled_ask trivial fun before =>
      handled_ask trivial fun made => ?_
    cases made with
    | error e => exact sends_wccFail (nfserr_ne_ok e) _
    | ok _ =>
      refine handled_after ?_ fun _ => made_sends
      split
      · exact asks_applySattr _
      · exact asks_pure _

theorem remove_sends (directory : Bool) :
    Handled (Sends (.switch wccData wccData) w) false (procRemove exports directory c w) := by
  unfold procRemove
  split
  · exact sends_garbage
  · refine entry_sends fun r path => handled_ask trivial fun before => ?_
    refine handled_after (asks_emptied directory) fun empty => ?_
    split
    · exact sends_wccFail (by decide) _
    · refine handled_after (asks_takeAway directory) fun removed => ?_
      cases removed with
      | error e => exact sends_wccFail (nfserr_ne_ok e) _
      | ok _ =>
          exact handled_ask trivial fun after =>
            sends_okay (writes_wcc exports r.exp _ _) (by decide)

theorem rename_sends : Handled (Sends (resultType 14) w) false (procRename exports c w) := by
  unfold procRename
  split
  · exact sends_garbage
  · refine handled_resolve (sends_failWccTwice (by decide)) fun f => ?_
    refine handled_resolve (sends_failWccTwice (by decide)) fun t => ?_
    dsimp only
    split
    · exact sends_failWccTwice (by decide)
    · split
      · split
        · exact sends_failWccTwice (by decide)
        · refine handled_ask trivial fun fbefore => handled_ask trivial fun tbefore => ?_
          refine handled_ask trivial fun renamed => ?_
          cases renamed with
          | error e =>
            exact sends_failed (nfserr_ne_ok e) ((writes_wccFail _).seq (writes_wccFail _))
              (by decide)
          | ok _ =>
            refine handled_ask trivial fun fafter => handled_ask trivial fun tafter => ?_
            exact sends_okay ((writes_wcc exports f.exp _ _).seq (writes_wcc exports t.exp _ _))
              (by decide)
      · exact sends_failWccTwice (by decide)

theorem commit_sends : Handled (Sends (resultType 21) w) false (procCommit exports c w) := by
  unfold procCommit
  split
  · exact sends_garbage
  · refine handled_resolve (sends_failWcc (by decide)) fun r => ?_
    dsimp only
    split
    · exact sends_failWcc (by decide)
    · refine handled_ask trivial fun opened => ?_
      cases opened with
      | error e => exact sends_failWcc (nfserr_ne_ok e)
      | ok _ =>
        refine handled_ask trivial fun before => handled_ask trivial fun synced => ?_
        refine handled_ask trivial fun after => handled_ask trivial fun _ => ?_
        cases synced with
        | error e => exact sends_wccFail (nfserr_ne_ok _) before
        | ok _ =>
          refine handled_ask trivial fun verf => ?_
          have tail := (puts_u32 verf.1).comp (puts_u32 verf.2)
          exact sends_okay ((writes_wcc exports r.exp before after).seq tail.writes) (by decide)

theorem notsupp_sends :
    Handled (Sends (.switch (.seq postOpFh (.seq postOpAttr wccData)) wccData) w) false
      (procNotsupp exports false c w) := by
  unfold procNotsupp
  split
  · exact sends_garbage
  · refine handled_resolve (sends_failWcc (by decide)) fun r => handled_ask trivial fun after => ?_
    exact sends_failed (by decide) (writes_wcc exports r.exp none _) (by decide)

theorem link_sends : Handled (Sends (resultType 15) w) false (procNotsupp exports true c w) := by
  unfold procNotsupp
  split
  · exact sends_garbage
  · refine handled_resolve (sends_failed (by decide) (writes_absent.seq writes_wccNone)
      (by decide)) fun r => ?_
    refine handled_ask trivial fun after => ?_
    exact sends_failed (by decide) (writes_absent.seq (writes_wcc exports r.exp none _)) (by decide)

end Procedures

end Espix.Nfsd.Replies
