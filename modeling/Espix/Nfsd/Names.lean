import Espix.Nfsd.Pages

/-! The names that clients send, and the paths that are worked on.

A name is cut at the size of its buffer, and after that the program sees it up to its first zero
byte. What was cut for its length never fits behind a directory, so only a zero byte makes a
difference. The entries of READDIRPLUS are joined to the directory without a look at the length. -/

namespace Espix.Nfsd.Names

open Fs.Access (Path)
open Lib.Ask Lib.CText Lib.Xdr Exports
open Handles hiding Event step boot
open Nfs3 Pages Replies
open Requests (nameOk joinPath childPath)
open Rpc

variable {name : Path} {rest : Args} {fh : Handle} {raw : Bytes}

section Sent

def rawName (c : Args) : Option (Bytes × Args) := (getU32 c).bind fun n => getOpaque n.1 n.2

def sentName (c : Args) : Option (Bytes × Args) := (getFh c).bind fun fh => rawName fh.2

/-- The names of LOOKUP, CREATE, MKDIR, REMOVE and RMDIR, and the two of RENAME. -/
def sentNames (proc : Nat) (c : Args) : Option (List Bytes) :=
  match proc with
  | 3 | 8 | 9 | 12 | 13 => (sentName c).map fun name => [name.1]
  | 14 => (sentName c).bind fun old => (sentName old.2).map fun new => [old.1, new.1]
  | _ => none

def seen (raw : Bytes) : Path := cstr (text (raw.take (nameCap - 1)))

def under (dir name : Path) : Path := dir ++ '/' :: name

def entryPath (dir name : Path) : Path := if dir.getLast? = some '/' then dir ++
    name else under dir name

theorem getString_some {cap : Nat} {c : Args} (read : getString cap c = some (name, rest)) :
    ∃ raw, rawName c = some (raw, rest) ∧ name = cstr (text (raw.take (cap - 1))) := by
  obtain ⟨n, length, read⟩ := Option.bind_eq_some_iff.mp read
  split at read
  · cases read
  · obtain ⟨found, bytes, same⟩ := Option.map_eq_some_iff.mp read
    cases same
    exact ⟨found.1, by rw [rawName, length, Option.bind_some, bytes], rfl⟩

theorem nameArgs_some {c : Args} (read : nameArgs c = some ((fh, name), rest)) :
    ∃ raw, sentName c = some (raw, rest) ∧ name = seen raw := by
  obtain ⟨found, handle, read⟩ := Option.bind_eq_some_iff.mp read
  obtain ⟨string, named, same⟩ := Option.map_eq_some_iff.mp read
  cases same
  obtain ⟨raw, bytes, cut⟩ := getString_some named
  exact ⟨raw, by rw [sentName, handle, Option.bind_some, bytes], cut⟩

theorem nul_mem_text : '\x00' ∈ text raw ↔ 0 ∈ raw := by
  constructor
  · intro present
    obtain ⟨b, inside, same⟩ := List.mem_map.mp present
    have each_byte : ∀ n < 256, Char.ofNat n = '\x00' → n = 0 := by decide +kernel
    have zero : b = 0 := UInt8.toNat_inj.mp (each_byte b.toNat b.toNat_lt same)
    rwa [zero] at inside
  · exact fun present => List.mem_map.mpr ⟨0, present, rfl⟩

theorem nul_not_mem_cstr (buffer : List Char) : '\x00' ∉ cstr buffer := by
  intro present
  have different := List.mem_takeWhile_imp present
  simp at different

theorem joinPath_some {dir path : Path} (joined : joinPath dir name = some path) :
    path = under dir name ∧ dir.length + 1 + name.length < pathCap := by
  unfold joinPath at joined
  split at joined
  · rename_i fits
    exact ⟨(Option.some.inj joined).symm, fits⟩
  · cases joined

theorem joined_whole_iff {dir path : Path} (joined : joinPath dir (seen raw) = some path) :
    path = under dir (text raw) ↔ 0 ∉ raw := by
  obtain ⟨rfl, fits⟩ := joinPath_some joined
  constructor
  · intro same present
    have whole : seen raw = text raw := List.cons_injective (List.append_cancel_left same)
    have cut := nul_not_mem_cstr (text (raw.take (nameCap - 1)))
    rw [seen] at whole
    rw [whole] at cut
    exact cut (nul_mem_text.mpr present)
  · intro absent
    have no_nul : '\x00' ∉ text (raw.take (nameCap - 1)) := fun present =>
      absent (List.mem_of_mem_take (nul_mem_text.mp present))
    have seen_cut : seen raw = text (raw.take (nameCap - 1)) := cstr_of_no_nul no_nul
    have length : (text (raw.take (nameCap - 1))).length = min (nameCap - 1) raw.length := by
      rw [text, List.length_map, List.length_take]
    rw [seen_cut, length] at fits
    have short : raw.length ≤ nameCap - 1 := by
      simp only [pathCap, nameCap] at fits ⊢
      omega
    rw [seen_cut, List.take_of_length_le short]

end Sent

section Worked

def paths : Question → List Path
  | .make _ path | .stat path | .open path _ | .truncate path _ | .chmod path _ | .chown path _ _
  | .utime path _ _ | .mkdir path _ | .rmdir path | .unlink path | .opendir path | .mountOwner path
  | .space path => [path]
  | .rename old new => [old, new]
  | .resolve _ | .lseek _ | .read _ | .write _ _ | .fsync | .fstat | .close | .verf => []

def dirOf : Sigma Answer → Option Path
  | ⟨.resolve _, some r⟩ => some r.path
  | _ => none

def dirs (trace : Trace Answer) : List Path := trace.filterMap dirOf

def Quiet (trace : Trace Answer) : Prop := ∀ event ∈ trace, ∃ fh, event.1 = .resolve fh

/-- Apart from the attributes of the directories, everything is about these paths. -/
def OnTarget (dirs targets : List Path) (q : Question) : Prop :=
  paths q = [] ∨ (∃ dir ∈ dirs, q = .stat dir) ∨ paths q = targets

def Exact (dirs targets : List Path) (trace : Trace Answer) : Prop :=
  (∀ event ∈ trace, OnTarget dirs targets event.1) ∧ ∃ event ∈ trace, paths event.1 = targets

/-- The call is refused and nothing is done, or what is done is done to the names as they were sent.
-/
def FaithfulNames (sent : List Bytes) (trace : Trace Answer) (w : Writer) : Prop :=
  (Quiet trace ∧ ¬Succeeded w) ∨
    (dirs trace).length = sent.length ∧
    Exact (dirs trace) (List.zipWith under (dirs trace) (sent.map text)) trace

structure Joined (ds names targets : List Path) : Prop where
  same : ds.length = names.length
  each : List.zipWith joinPath ds names = targets.map some

def Outcome (names : List Path) (trace : Trace Answer) (w : Writer) : Prop :=
  (Quiet trace ∧ ¬Succeeded w) ∨ ∃ targets, Joined (dirs trace) names targets ∧
  Exact (dirs trace) targets trace

end Worked

section Names

variable {ds names targets : List Path} {trace : Trace Answer} {w : Writer} {sent : List Bytes}

theorem Joined.whole_iff (joined : Joined ds (sent.map seen) targets) :
    targets = List.zipWith under ds (sent.map text) ↔ ∀ name ∈ sent, 0 ∉ name := by
  obtain ⟨same, each⟩ := joined
  induction ds generalizing sent targets with
  | nil =>
    obtain rfl := List.map_eq_nil_iff.mp (List.length_eq_zero_iff.mp same.symm)
    obtain rfl := List.map_eq_nil_iff.mp each.symm
    simp
  | cons dir ds ih =>
    cases sent with
    | nil => cases same
    | cons raw sent =>
      cases targets with
      | nil => cases each
      | cons path targets =>
        simp only [List.map_cons, List.zipWith_cons_cons, List.cons.injEq] at each
        have here := joined_whole_iff each.1
        have later := ih (Nat.succ.inj same) each.2
        simp only [List.map_cons, List.zipWith_cons_cons, List.cons.injEq, List.forall_mem_cons]
        rw [here, later]

theorem Joined.length (joined : Joined ds names targets) : targets.length = names.length := by
  have lengths := congrArg List.length joined.each
  rw [List.length_zipWith, List.length_map, joined.same, Nat.min_self] at lengths
  exact lengths.symm

theorem Joined.ne_dir {dir : Path} (joined : Joined ds names targets) (inside : dir ∈ ds) :
    targets ≠ [dir] := by
  intro only_dir
  subst only_dir
  obtain ⟨name, rfl⟩ := List.length_eq_one_iff.mp joined.length.symm
  obtain ⟨only, rfl⟩ := List.length_eq_one_iff.mp joined.same
  obtain rfl := List.mem_singleton.mp inside
  have path : joinPath dir name = some dir := List.head_eq_of_cons_eq joined.each
  have longer := congrArg List.length (joinPath_some path).1
  simp only [under, List.length_append, List.length_cons] at longer
  omega

theorem Joined.exact_iff (joined : Joined ds names targets) (some_name : names ≠ [])
    (exact_targets : Exact ds targets trace) (others : List Path) : Exact ds others trace ↔
    targets = others := by
  constructor
  · intro also
    obtain ⟨event, present, on⟩ := exact_targets.2
    rcases also.1 event present with nothing | ⟨dir, inside, stat_dir⟩ | on_others
    · have empty := joined.length
      rw [← on, nothing] at empty
      exact absurd (List.length_eq_zero_iff.mp empty.symm) some_name
    · rw [stat_dir] at on
      exact absurd on.symm (joined.ne_dir inside)
    · exact on.symm.trans on_others
  · intro same
    exact same ▸ exact_targets

theorem Joined.not_quiet (joined : Joined ds names targets) (some_name : names ≠ [])
    (exact_targets : Exact ds targets trace) : ¬Quiet trace := by
  intro quiet
  obtain ⟨event, present, on⟩ := exact_targets.2
  obtain ⟨fh, resolve⟩ := quiet event present
  have empty := joined.length
  rw [← on, resolve] at empty
  exact some_name (List.length_eq_zero_iff.mp empty.symm)

theorem faithful_iff (some_name : sent ≠ []) (outcome : Outcome (sent.map seen) trace w) :
    FaithfulNames sent trace w ↔ Quiet trace ∨ ∀ name ∈ sent, 0 ∉ name := by
  rcases outcome with refused | ⟨targets, joined, exact_targets⟩
  · exact iff_of_true (Or.inl refused) (Or.inl refused.1)
  · have names : sent.map seen ≠ [] := fun empty => some_name (List.map_eq_nil_iff.mp empty)
    have loud := joined.not_quiet names exact_targets
    have same := joined.same
    rw [List.length_map] at same
    have done :=
      joined.exact_iff names exact_targets (List.zipWith under (dirs trace) (sent.map text))
    rw [FaithfulNames, done, joined.whole_iff]
    constructor
    · intro faithful
      exact Or.inr (faithful.resolve_left fun refused => loud refused.1).2
    · intro whole
      exact Or.inr ⟨same, whole.resolve_left loud⟩

end Names

variable {q : Question} {r : Resolved} {R : Type}

section Questions

variable {ds targets : List Path} {path dir : Path} {exports : List Export}

def Onto (ds targets : List Path) (q : Question) : Prop :=
  (∀ fh, q ≠ .resolve fh) ∧ OnTarget ds targets q

theorem onto_none (plain : ∀ fh, q ≠ .resolve fh) (none : paths q = []) : Onto ds targets q :=
  ⟨plain, Or.inl none⟩

theorem onto_dir (inside : dir ∈ ds) : Onto ds targets (.stat dir) :=
  ⟨nofun, Or.inr (Or.inl ⟨dir, inside, rfl⟩)⟩

theorem onto_target (plain : ∀ fh, q ≠ .resolve fh) (on : paths q = targets) : Onto ds targets q :=
  ⟨plain, Or.inr (Or.inr on)⟩

theorem asks_applySattr (a : Sattr) : Asks (Onto ds [path]) (applySattr path a) :=
  asks_sattr (fun _ => onto_target nofun rfl) (fun _ => onto_target nofun rfl)
  (fun _ _ => onto_target nofun rfl)
    (onto_target nofun rfl) (fun _ _ => onto_target nofun rfl) a

theorem asks_putDirWcc {exp : Nat} {before : Option Stat} {w : Writer} (inside : dir ∈ ds) :
    Asks (Onto ds targets) (putDirWcc exports exp dir before w) :=
  asks_then (onto_dir inside) fun _ => asks_pure _

theorem asks_putMade {before : Option Stat} {w : Writer} :
    Asks (Onto [r.path] [path]) (putMade exports r path before w) :=
  asks_then (onto_target nofun rfl) fun _ => asks_then (onto_target nofun rfl) fun _ =>
    asks_putDirWcc (List.mem_singleton_self _)

def Touches (ds targets : List Path) (trace : Trace Answer) : Prop :=
  (∀ event ∈ trace, Onto ds targets event.1) ∧ ∃ event ∈ trace, paths event.1 = targets

theorem touches_dir {k : Except Errno Stat → Nfs R} (inside : dir ∈ ds)
    (rest : ∀ a, Always (k a) fun trace _ => Touches ds targets trace) :
    Always (Call.stat dir >>= k) fun trace _ => Touches ds targets trace := by
  refine always_ask fun a => (rest a).imp fun trace _ touches => ?_
  obtain ⟨event, present, on⟩ := touches.2
  exact ⟨List.forall_mem_cons.mpr ⟨onto_dir inside, touches.1⟩, event, .tail _ present, on⟩

theorem touches_target {k : Answer q → Nfs R} (plain : ∀ fh, q ≠ .resolve fh)
    (on : paths q = targets) (rest : ∀ a, Asks (Onto ds targets) (k a)) :
    Always (ask (A := Answer) q >>= k) fun trace _ => Touches ds targets trace := by
  refine always_ask fun a => (rest a).always.imp fun trace _ later => ?_
  exact ⟨List.forall_mem_cons.mpr ⟨onto_target plain on, later⟩, _, .head _, on⟩

theorem touches_bind {S : Type} {p : Nfs R} {k : R → Nfs S}
    (first : Always p fun trace _ => Touches ds targets trace)
    (rest : ∀ r, Asks (Onto ds targets) (k r)) : Always (p >>= k) fun trace _ =>
    Touches ds targets trace := by
  refine always_bind.mpr (first.imp fun trace r touches =>
    (rest r).always.imp fun later _ onto => ?_)
  obtain ⟨event, present, on⟩ := touches.2
  exact ⟨List.forall_mem_append.mpr ⟨touches.1, onto⟩, event, List.mem_append_left _ present, on⟩

theorem dirs_nil {trace : Trace Answer} (onto : ∀ event ∈ trace, Onto ds targets event.1) :
    dirs trace = [] := by
  refine List.filterMap_eq_nil_iff.mpr fun event present => ?_
  obtain ⟨question, answer⟩ := event
  cases question with
  | resolve fh => exact absurd rfl ((onto _ present).1 fh)
  | _ => rfl

end Questions

section Procedures

variable {exports : List Export} {c : Args} {xid : Nat} {trace : Trace Answer} {w : Writer}

theorem quiet_resolve {answer : Option Resolved} (quiet : Quiet trace) :
    Quiet (⟨.resolve fh, answer⟩ :: trace) :=
  List.forall_mem_cons.mpr ⟨⟨fh, rfl⟩, quiet⟩

theorem quiet_nil : Quiet [] := fun _ impossible => absurd impossible List.not_mem_nil

theorem extends_failWcc (s : Status) (w : Writer) : Extends (putStatus s w) (failWcc s w) :=
  (extends_put _ _).trans (extends_put _ _)

theorem extends_failWccTwice (s : Status) (w : Writer) :
    Extends (putStatus s w) (failWccTwice s w) :=
  (extends_failWcc s w).trans ((extends_put _ _).trans (extends_put _ _))

theorem outcome_resolved (found : List (Handle × Resolved)) {names targets : List Path}
    (joined : Joined (found.map (·.2.path)) names targets)
    (touches : Touches (found.map (·.2.path)) targets trace) :
    Outcome names (found.map (fun f => ⟨.resolve f.1, some f.2⟩) ++ trace) w := by
  obtain ⟨onto, event, present, on⟩ := touches
  have here : dirs (found.map (fun f => ⟨.resolve f.1, some f.2⟩) ++ trace) =
      found.map (·.2.path) := by
    have later : trace.filterMap dirOf = [] := dirs_nil onto
    rw [dirs, List.filterMap_append, later, List.append_nil, List.filterMap_map]
    exact congrFun List.filterMap_eq_map' found
  refine Or.inr ⟨targets, here ▸ joined, ?_, event, List.mem_append_right _ present, on⟩
  rw [here]
  refine List.forall_mem_append.mpr ⟨fun event inside => ?_, fun event inside =>
    (onto event inside).2⟩
  obtain ⟨f, -, rfl⟩ := List.mem_map.mp inside
  exact .inl rfl

theorem outcome_one {path : Path} (joined : joinPath r.path name = some path)
    (touches : Touches [r.path] [path] trace) : Outcome [name] (⟨.resolve fh, some r⟩ :: trace) w :=
  outcome_resolved [(fh, r)] ⟨rfl, by simp [joined]⟩ touches

theorem lookup_outcome (sent : sentName c = some (raw, rest)) :
    Always (procLookup exports c (xdrwInit nfsdBufcap xid)) fun trace w' => Outcome
    [seen raw] trace w' := by
  unfold procLookup
  split
  · exact Or.inl ⟨quiet_nil, garbage_not_succeeded⟩
  · rename_i fh name _ read
    obtain ⟨_, same, rfl⟩ := nameArgs_some read
    cases sent.symm.trans same
    refine always_ask fun found => ?_
    cases found with
    | none =>
        exact Or.inl ⟨quiet_resolve quiet_nil, not_succeeded (by decide) (extends_failPost _ _)⟩
    | some r =>
      dsimp only
      split
      · exact Or.inl ⟨quiet_resolve quiet_nil, not_succeeded (by decide) (extends_failPost _ _)⟩
      · split
        · exact Or.inl ⟨quiet_resolve quiet_nil, not_succeeded (by decide) (extends_failPost _ _)⟩
        · rename_i path joined
          refine Always.imp ?_ fun trace w' touches => outcome_one joined touches
          refine touches_target nofun rfl fun answer => ?_
          cases answer with
          | error e => exact asks_then (onto_dir (List.mem_singleton_self _)) fun _ => asks_pure _
          | ok st =>
            refine asks_then (onto_target nofun rfl) fun child => ?_
            cases child with
            | none => exact asks_pure _
            | some child =>
                exact asks_then (onto_dir (List.mem_singleton_self _)) fun _ => asks_pure _

theorem entry_outcome {work : Resolved → Path → Nfs Writer}
    (worked : ∀ r path, Always (work r path) fun trace _ => Touches [r.path] [path] trace) :
    Always (atEntry fh name (xdrwAccept .success (xdrwInit nfsdBufcap xid)) work) fun trace w' =>
      Outcome [name] trace w' := by
  unfold atEntry
  refine always_ask fun found => ?_
  cases found with
  | none => exact Or.inl ⟨quiet_resolve quiet_nil, not_succeeded (by decide) (extends_failWcc _ _)⟩
  | some r =>
    dsimp only
    split
    · exact Or.inl ⟨quiet_resolve quiet_nil, not_succeeded (by decide) (extends_failWcc _ _)⟩
    · split
      · exact Or.inl ⟨quiet_resolve quiet_nil, not_succeeded (by decide) (extends_failWcc _ _)⟩
      · rename_i path joined
        split
        · exact Or.inl ⟨quiet_resolve quiet_nil, not_succeeded (by decide) (extends_failWcc _ _)⟩
        · exact (worked r path).imp fun trace w' touches => outcome_one joined touches

theorem createArgs_some {how : Nat} {attr : Option Sattr}
    (read : createArgs c = some (fh, name, how, attr)) : ∃ rest,
    nameArgs c = some ((fh, name), rest) := by
  obtain ⟨⟨⟨fh', name'⟩, rest⟩, named, read⟩ := Option.bind_eq_some_iff.mp read
  obtain ⟨⟨how', rest'⟩, _, read⟩ := Option.bind_eq_some_iff.mp read
  dsimp only at read
  split at read
  · obtain ⟨_, _, same⟩ := Option.bind_eq_some_iff.mp read
    cases same
    exact ⟨rest, named⟩
  · obtain ⟨_, _, same⟩ := Option.bind_eq_some_iff.mp read
    cases same
    exact ⟨rest, named⟩

theorem create_outcome (sent : sentName c = some (raw, rest)) :
    Always (procCreate exports c (xdrwInit nfsdBufcap xid)) fun trace w' => Outcome
    [seen raw] trace w' := by
  unfold procCreate
  split
  · exact Or.inl ⟨quiet_nil, garbage_not_succeeded⟩
  · rename_i fh name how attr read
    obtain ⟨_, named⟩ := createArgs_some read
    obtain ⟨_, same, rfl⟩ := nameArgs_some named
    cases sent.symm.trans same
    refine entry_outcome fun r path => touches_dir (List.mem_singleton_self _) fun before => ?_
    refine touches_target nofun rfl fun opened => ?_
    cases opened with
    | error e => exact asks_pure _
    | ok _ =>
      refine asks_then (onto_none nofun rfl) fun _ => Asks.bind ?_ fun _ => asks_putMade
      cases attr with
      | none => exact asks_pure _
      | some attr => exact asks_applySattr attr

theorem mkdir_outcome (sent : sentName c = some (raw, rest)) :
    Always (procMkdir exports c (xdrwInit nfsdBufcap xid)) fun trace w' => Outcome
    [seen raw] trace w' := by
  unfold procMkdir
  split
  · exact Or.inl ⟨quiet_nil, garbage_not_succeeded⟩
  · rename_i fh name attr read
    obtain ⟨found, named, read⟩ := Option.bind_eq_some_iff.mp read
    obtain ⟨_, _, parts⟩ := Option.map_eq_some_iff.mp read
    cases parts
    obtain ⟨_, same, cut⟩ := nameArgs_some named
    cases sent.symm.trans same
    rw [cut]
    refine entry_outcome fun r path => touches_dir (List.mem_singleton_self _) fun before => ?_
    refine touches_target nofun rfl fun made => ?_
    cases made with
    | error e => exact asks_pure _
    | ok _ =>
      refine Asks.bind ?_ fun _ => asks_putMade
      split
      · exact asks_applySattr _
      · exact asks_pure _

theorem asks_takeAway (directory : Bool) (path : Path) {ds : List Path} :
    Asks (Onto ds [path]) (takeAway directory path) := by
  cases directory <;> exact asks_ask (onto_target nofun rfl)

theorem touches_takeAway (path : Path) {ds : List Path} :
    Always (takeAway false path) fun trace _ => Touches ds [path] trace :=
  fun _ => ⟨List.forall_mem_singleton.mpr (onto_target nofun rfl), _, .head _, rfl⟩

theorem touches_emptied (path : Path) {ds : List Path} :
    Always (emptied true path) fun trace _ => Touches ds [path] trace := by
  refine touches_target nofun rfl fun answer => ?_
  cases answer <;> exact asks_pure _

theorem remove_outcome (directory : Bool) (sent : sentName c = some (raw, rest)) :
    Always (procRemove exports directory c (xdrwInit nfsdBufcap xid)) fun trace w' => Outcome
    [seen raw] trace w' := by
  unfold procRemove
  split
  · exact Or.inl ⟨quiet_nil, garbage_not_succeeded⟩
  · rename_i fh name _ read
    obtain ⟨_, same, rfl⟩ := nameArgs_some read
    cases sent.symm.trans same
    refine entry_outcome fun r path => touches_dir (List.mem_singleton_self _) fun before => ?_
    cases directory with
    | false =>
      change Always (takeAway false path >>= _) _
      refine touches_bind (touches_takeAway path) fun removed => ?_
      cases removed with
      | error e => exact asks_pure _
      | ok _ => exact asks_putDirWcc (List.mem_singleton_self _)
    | true =>
      refine touches_bind (touches_emptied path) fun empty => ?_
      cases empty with
      | false => exact asks_pure _
      | true =>
        refine Asks.bind (asks_takeAway true path) fun removed => ?_
        cases removed with
        | error e => exact asks_pure _
        | ok _ => exact asks_putDirWcc (List.mem_singleton_self _)

theorem rename_outcome {old new : Bytes} {between : Args}
    (sent_old : sentName c = some (old, between))
    (sent_new : sentName between = some (new, rest)) :
    Always (procRename exports c (xdrwInit nfsdBufcap xid)) fun trace w' =>
      Outcome [seen old, seen new] trace w' := by
  unfold procRename
  split
  · exact Or.inl ⟨quiet_nil, garbage_not_succeeded⟩
  · rename_i ffh fname tfh tname read
    obtain ⟨⟨_, rest_old⟩, named, read⟩ := Option.bind_eq_some_iff.mp read
    obtain ⟨⟨_, rest_new⟩, named', parts⟩ := Option.map_eq_some_iff.mp read
    cases parts
    obtain ⟨_, same, rfl⟩ := nameArgs_some named
    cases sent_old.symm.trans same
    obtain ⟨_, same', rfl⟩ := nameArgs_some named'
    cases sent_new.symm.trans same'
    have refused {s : Status} (failed : s ≠ .ok) {trace : Trace Answer} (quiet : Quiet trace) :
        Outcome [seen old, seen new] trace
        (failWccTwice s (xdrwAccept .success (xdrwInit nfsdBufcap xid))) :=
      Or.inl ⟨quiet, not_succeeded failed (extends_failWccTwice _ _)⟩
    refine always_ask fun found => ?_
    cases found with
    | none => exact refused (by decide) (quiet_resolve quiet_nil)
    | some f =>
      refine always_ask fun found' => ?_
      have both {answer : Option Resolved} :
          Quiet [⟨.resolve ffh, some f⟩, ⟨.resolve tfh, answer⟩] :=
            quiet_resolve (quiet_resolve quiet_nil)
      cases found' with
      | none => exact refused (by decide) both
      | some t =>
        dsimp only
        split
        · exact refused (by decide) both
        · split
          · rename_i fpath tpath joined joined'
            split
            · exact refused (by decide) both
            · refine Always.imp ?_ fun trace w' (touches : Touches _ [fpath, tpath] _) =>
                outcome_resolved [(ffh, f), (tfh, t)] ⟨rfl, by simp [joined, joined']⟩ touches
              refine touches_dir (by simp) fun fbefore => touches_dir (by simp) fun tbefore => ?_
              refine touches_target nofun rfl fun renamed => ?_
              cases renamed with
              | error e => exact asks_pure _
              | ok _ => exact Asks.bind (asks_putDirWcc (by simp)) fun _ => asks_putDirWcc (by simp)
          · exact refused (by decide) both

end Procedures

section Listing

variable {exports : List Export} {c : Args} {trace : Trace Answer} {w : Writer}

def handledPath : Sigma Answer → Option Path
  | ⟨.make _ path, _⟩ => some path
  | _ => none

def handled (trace : Trace Answer) : List Path := trace.filterMap handledPath

def listedPaths (c : Args) : Trace Answer → List Path
  | ⟨.resolve _, some r⟩ :: ⟨.opendir _, .ok listing⟩ :: _ =>
    match readdirArgs true c with
    | some (_, cookie, _) => (listing.drop cookie).map fun de => entryPath r.path de.name
    | none => []
  | _ => []

def FaithfulListing (c : Args) (trace : Trace Answer) : Prop :=
  handled trace <+: listedPaths c trace

def ShortPaths (c : Args) (trace : Trace Answer) : Prop :=
  ∀ path ∈ (listedPaths c trace).take (handled trace).length, path.length < pathCap

theorem childPath_eq_iff (dir name : Path) :
    childPath dir name = entryPath dir name ↔ (entryPath dir name).length < pathCap := by
  constructor
  · intro same
    rw [← same, childPath, List.length_take]
    exact Nat.lt_of_le_of_lt (Nat.min_le_left _ _) (by decide)
  · intro short
    unfold childPath entryPath at *
    split
    · rename_i slash
      rw [if_pos slash] at short
      exact List.take_of_length_le (Nat.le_sub_one_of_lt short)
    · rename_i plain
      rw [if_neg plain] at short
      have total : (under dir name).length = dir.length + 1 + name.length := by
        simp only [under, List.length_append, List.length_cons]
        omega
      rw [total] at short
      have base : (dir ++ ['/']).take (pathCap - 1) = dir ++ ['/'] := by
        refine List.take_of_length_le ?_
        rw [List.length_append, List.length_singleton]
        omega
      rw [base]
      dsimp only
      rw [List.append_assoc]
      refine List.take_of_length_le ?_
      simp only [List.length_append, List.length_cons, List.length_nil]
      omega

theorem prefix_map_iff {A B : Type} {f g : A → B} {all : List A} {done : List B}
    (begins : done <+: all.map f) :
    done <+: all.map g ↔ ∀ x ∈ all.take done.length, f x = g x := by
  have first := List.prefix_iff_eq_take.mp begins
  rw [← List.map_take] at first
  rw [List.prefix_iff_eq_take, ← List.map_take, ← List.map_inj_left]
  exact ⟨fun same => first.symm.trans same, fun same => first.trans same⟩

theorem walk_handled {maxcount replyAt cookie : Nat} {owner : Nat × Nat} (listing : List DirEntry)
    (before : Nat) (wrote : Bool) (w : Writer) :
    Always
    (readdirWalk exports true maxcount replyAt cookie r owner listing before wrote w) fun trace _ =>
      handled trace <+: (listing.drop (cookie - before)).map fun de =>
          childPath r.path de.name := by
  refine walk_rule (P := fun listing before _ _ trace _ =>
    handled trace <+: (listing.drop (cookie - before)).map fun de => childPath r.path de.name)
    ?_ ?_ ?_ ?_ ?_ listing before wrote w
  · exact fun _ _ _ => List.nil_prefix
  · intro de rest before _ _ trace _ sent later
    rwa [drop_skipped sent]
  · exact fun _ _ _ _ _ _ => List.nil_prefix
  · exact fun _ _ _ _ _ _ _ form => absurd form Bool.true_eq_false.mp
  · intro de rest before _ _ fh trace _ _ fresh _ later
    rw [drop_fresh fresh]
    rw [drop_fresh (Nat.lt_succ_of_lt fresh)] at later
    exact List.cons_prefix_cons.mpr ⟨rfl, later⟩

theorem listing_iff : Always (procReaddir exports true c w) fun trace _ => FaithfulListing c trace ↔
    ShortPaths c trace := by
  have nothing {trace : Trace Answer} (none : handled trace = []) : FaithfulListing c trace ↔
      ShortPaths c trace := by
    rw [FaithfulListing, ShortPaths, none]
    exact iff_of_true List.nil_prefix fun _ impossible => absurd impossible List.not_mem_nil
  unfold procReaddir
  split
  · exact nothing rfl
  · rename_i fh cookie most read
    refine always_ask fun found => ?_
    cases found with
    | none => exact nothing rfl
    | some r =>
      refine always_ask fun opened => ?_
      cases opened with
      | error e => exact nothing rfl
      | ok entries =>
        refine always_ask fun dst => always_ask fun owner => always_bind.mpr ?_
        refine (walk_handled entries 0 false _).imp fun trace out begins => ?_
        rw [Nat.sub_zero] at begins
        let whole : Trace Answer := ⟨.resolve fh, some r⟩ :: ⟨.opendir r.path, .ok entries⟩ ::
          ⟨.stat r.path, dst⟩ :: ⟨.mountOwner r.path, owner⟩ :: (trace ++ [])
        have made : handled whole = handled trace := by
          have last_four : handled whole = handled (trace ++ []) := rfl
          rw [last_four, List.append_nil]
        have paths : listedPaths c whole = (entries.drop cookie).map fun de =>
            entryPath r.path de.name := by
          simp only [whole, listedPaths, read]
        show FaithfulListing c whole ↔ ShortPaths c whole
        rw [FaithfulListing, ShortPaths, made, paths, prefix_map_iff begins, ← List.map_take,
          List.forall_mem_map]
        exact forall₂_congr fun de _ => childPath_eq_iff r.path de.name

end Listing

/-- Names are worked on as they were sent, and entries get handles of their own. -/
def Faithful (proc : Nat) (c : Args) (trace : Trace Answer) (w : Writer) : Prop :=
  (∀ sent, sentNames proc c = some sent → FaithfulNames sent trace w) ∧
  (proc = 17 → FaithfulListing c trace)

/-- No name that is worked on has a zero byte, and the paths of a page fit. -/
def Kept (proc : Nat) (c : Args) (trace : Trace Answer) : Prop :=
  (∀ sent, sentNames proc c = some sent → Quiet trace ∨ ∀ name ∈ sent, 0 ∉ name) ∧
  (proc = 17 → ShortPaths c trace)

section Whole

variable {c : Args} {proc : Nat} {p : Nfs Writer}

theorem one_iff (other : proc ≠ 17) (one : sentNames proc c = (sentName c).map fun name => [name.1])
    (outcome : ∀ raw rest, sentName c = some (raw, rest) →
      Always p fun trace w' => Outcome [seen raw] trace w') :
    Always p fun trace w' => Faithful proc c trace w' ↔ Kept proc c trace := by
  unfold Faithful Kept
  rw [one]
  cases sent : sentName c with
  | none =>
    refine always_of_forall fun trace w' => ?_
    simp [other]
  | some found =>
    refine (outcome found.1 found.2 sent).imp fun trace w' outcome => ?_
    have some_name : [found.1] ≠ [] := List.cons_ne_nil _ _
    simp [other, faithful_iff some_name outcome]

theorem two_iff (outcome : ∀ old new between rest, sentName c = some (old, between) →
      sentName between = some (new, rest) →
      Always p fun trace w' => Outcome [seen old, seen new] trace w') :
    Always p fun trace w' => Faithful 14 c trace w' ↔ Kept 14 c trace := by
  unfold Faithful Kept sentNames
  cases first : sentName c with
  | none =>
    refine always_of_forall fun trace w' => ?_
    simp
  | some old =>
    cases second : sentName old.2 with
    | none =>
      refine always_of_forall fun trace w' => ?_
      simp [second]
    | some new =>
      refine (outcome old.1 new.1 old.2 new.2 first second).imp fun trace w' outcome => ?_
      have some_name : [old.1, new.1] ≠ [] := List.cons_ne_nil _ _
      simp [second, faithful_iff some_name outcome]

theorem no_name_iff (other : proc ≠ 17) (none : sentNames proc c = none) :
    Always p fun trace w' => Faithful proc c trace w' ↔ Kept proc c trace :=
  always_of_forall fun trace w' => by simp [Faithful, Kept, other, none]

/-- Names are kept exactly if none that is worked on has a zero byte, and every entry of a
READDIRPLUS page has a path that fits. -/
theorem names_faithful_iff (exports : List Export) (iocap proc xid : Nat) (c : Args) :
    Always (nfs3Handle exports iocap proc c (xdrwInit nfsdBufcap xid)) fun trace w' =>
      Faithful proc c trace w' ↔ Kept proc c trace := by
  fun_cases nfs3Handle exports iocap proc c (xdrwInit nfsdBufcap xid) with
  | case4 => exact one_iff (by decide) rfl fun _ _ => lookup_outcome
  | case9 => exact one_iff (by decide) rfl fun _ _ => create_outcome
  | case10 => exact one_iff (by decide) rfl fun _ _ => mkdir_outcome
  | case13 => exact one_iff (by decide) rfl fun _ _ => remove_outcome false
  | case14 => exact one_iff (by decide) rfl fun _ _ => remove_outcome true
  | case15 => exact two_iff fun _ _ _ _ => rename_outcome
  | case18 => exact listing_iff.imp fun _ _ listing => by simp [Faithful, Kept, sentNames, listing]
  | case23 =>
    rename_i not_lookup _ _ _ _ not_create not_mkdir _ _ not_remove not_rmdir not_rename
      _ _ not_listing _ _ _ _
    have none : sentNames proc c = none := by
      unfold sentNames
      split
      · exact absurd rfl not_lookup
      · exact absurd rfl not_create
      · exact absurd rfl not_mkdir
      · exact absurd rfl not_remove
      · exact absurd rfl not_rmdir
      · exact absurd rfl not_rename
      · rfl
    exact no_name_iff not_listing none
  | _ => exact no_name_iff (by decide) rfl

end Whole

section Cut

def shared : Export := ⟨['/'], [{ everyone with ro := false }], by decide, by decide⟩

def removeCall (dir : Path) (name : Bytes) : Args :=
  ⟨word fhLen ++ fhBytes 0 1 dir ++ word name.length ++ pad name, 0⟩

def plusCall (dir : Path) (count : Nat) : Args := ⟨(listCall dir count).buf ++ word count, 0⟩

def deepDir : Path := '/' :: List.replicate 99 'd'

def longEntry : DirEntry := ⟨List.replicate 200 'x', 0, none, by rw [List.length_replicate]; decide⟩

def removed : Trace Answer × Writer :=
  follow (disk [shared] ['/'] []) (nfs3Handle [shared] nfsdIocap 12 (removeCall ['/'] [97, 0, 98])
    (xdrwInit nfsdBufcap 1))

def listedDeep : Trace Answer × Writer :=
  follow (disk [shared] deepDir [longEntry])
    (nfs3Handle [shared] nfsdIocap 17 (plusCall deepDir 4096) (xdrwInit nfsdBufcap 1))

/-- The file `a` is removed where the name begins with it, and the handle of the long name is for a
path that is cut. -/
theorem names_are_cut :
    (["//a".toList] ∈ removed.1.map (fun event => paths event.1) ∧
      ¬Faithful 12 (removeCall ['/'] [97, 0, 98]) removed.1 removed.2) ∧
    ¬Faithful 17 (plusCall deepDir 4096) listedDeep.1 listedDeep.2 := by
  have unlinked : ["//a".toList] ∈ removed.1.map (fun event => paths event.1) := by decide +kernel
  refine ⟨⟨unlinked, fun faithful => ?_⟩, fun faithful => ?_⟩
  · have name : (sentName (removeCall ['/'] [97, 0, 98])).map (·.1) = some [97, 0, 98] := by
      decide +kernel
    obtain ⟨⟨raw, rest⟩, sent, rfl⟩ := Option.map_eq_some_iff.mp name
    have names : sentNames 12 (removeCall ['/'] [97, 0, 98]) = some [[97, 0, 98]] := by
      rw [sentNames, sent]
      rfl
    have run : removed = follow (disk [shared] ['/'] [])
      (procRemove [shared] false (removeCall ['/'] [97, 0, 98]) (xdrwInit nfsdBufcap 1)) := rfl
    have outcome : Outcome [seen [97, 0, 98]] removed.1 removed.2 := by
      rw [run]
      exact (remove_outcome false sent).follow _
    have some_name : ([[97, 0, 98]] : List Bytes) ≠ [] := List.cons_ne_nil _ _
    rcases (faithful_iff some_name outcome).mp (faithful.1 _ names) with quiet | whole
    · obtain ⟨event, present, on⟩ := List.mem_map.mp unlinked
      obtain ⟨fh, resolve⟩ := quiet event present
      rw [resolve] at on
      cases on
    · exact absurd (whole _ (List.mem_singleton_self _)) (by decide)
  · exact absurd (faithful.2 rfl) (by unfold FaithfulListing; decide +kernel)

end Cut

end Espix.Nfsd.Names
