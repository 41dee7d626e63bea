import Espix.Nfsd.Replies

/-! Whom a request acts as.

`dispatch` hands the ids of an `AUTH_SYS` credential on in sixteen bits, `fh_resolve` picks the rule
of the export for the client's address, and `act_as` turns the ids into the identity that the file
system is asked as. -/

namespace Espix.Nfsd.Squash

open Fs.Access (Path)
open Lib.Ask Lib.Xdr Exports
open Handles hiding Event step boot
open Nfs3 Replies Rpc

/-- `nfs3_set_peer` as `dispatch` calls it: the ids of the credential, narrowed. -/
def setPeer (src : Nat) (cred : Option (UInt32 × UInt32)) : Peer :=
  ⟨src, cred.map fun ids => (ids.1.toUInt16.toNat, ids.2.toUInt16.toNat)⟩

section Rule

/-- Of the rules that match the address, none is more specific. -/
def Closest (e : Export) (src : Nat) (rule : Client) : Prop :=
  rule ∈ e.clients ∧ src &&& rule.mask = rule.addr &&& rule.mask ∧
    ∀ c ∈ e.clients, src &&& c.mask = c.addr &&& c.mask → maskBits c.mask ≤ maskBits rule.mask

theorem search_closest {src : Nat} {rule : Client} (clients : List Client) (best : Option Client)
    (found : clients.foldl (closer src) best = some rule) :
    (∀ b, best = some b → maskBits b.mask ≤ maskBits rule.mask) ∧
      ∀ c ∈ clients, src &&& c.mask = c.addr &&& c.mask → maskBits c.mask ≤ maskBits rule.mask := by
  induction clients generalizing best with
  | nil =>
    cases found
    exact ⟨fun b same => by cases same; exact le_rfl, nofun⟩
  | cons c clients ih =>
    obtain ⟨kept, later⟩ := ih _ found
    rw [List.forall_mem_cons]
    unfold closer at kept
    split at kept
    · rename_i misses
      exact ⟨kept, fun reaches => absurd reaches misses, later⟩
    · cases best with
      | none => exact ⟨nofun, fun _ => kept c rfl, later⟩
      | some b =>
        dsimp only at kept
        split at kept
        · rename_i more
          have first := kept c rfl
          exact ⟨fun b' same => by
            cases same; exact le_trans (Nat.le_of_lt more) first, fun _ => first, later⟩
        · rename_i less
          have first := kept b rfl
          refine ⟨fun b' same => by cases same; exact first, fun _ => ?_, later⟩
          exact le_trans (Nat.le_of_not_lt less) first

theorem ruleFor_closest {e : Export} {src : Nat} {rule : Client}
    (found : ruleFor e src = some rule) :
    Closest e src rule :=
  ⟨(ruleFor_spec found).1, (ruleFor_spec found).2, (search_closest e.clients none found).2⟩

end Rule

section Identity

structure Accounts where
  users : Nat → Prop
  groups : Nat → Prop

/-- An id of sixteen bits is the client's own; another one is nobody's. -/
def Kept (known : Nat → Prop) (sent : UInt32) (got : Nat) : Prop :=
  if sent.toNat < 2 ^ 16 then got = sent.toNat else ¬known got

def Own (accounts : Accounts) (sent : UInt32 × UInt32) (who : Nat × Nat) : Prop :=
  Kept accounts.users sent.1 who.1 ∧ Kept accounts.groups sent.2 who.2

def Squashed (accounts : Accounts) (rule : Client)
    (cred : Option (UInt32 × UInt32)) (who : Nat × Nat) : Prop :=
  match rule.squash, cred with
  | .all, _ => who = (rule.anonUid, rule.anonGid)
  | _, none => who = anonymous
  | .root, some sent => who.1 ≠ 0 ∧ who.2 ≠ 0 ∧ (sent.1 ≠ 0 → sent.2 ≠ 0 → Own accounts sent who)
  | .none, some sent => Own accounts sent who

def Fits (sent : UInt32 × UInt32) : Prop := sent.1.toNat < 2 ^ 16 ∧ sent.2.toNat < 2 ^ 16

/-- The credentials a rule treats as it should: those whose ids fit and, where root is squashed,
with the group of root only for root itself, and root as somebody else. A user id of which nothing
is left in sixteen bits is taken for root. -/
def Fair (rule : Client) : Option (UInt32 × UInt32) → Prop
  | none => True
  | some sent =>
    match rule.squash with
    | .all => True
    | .none => Fits sent
    | .root =>
      if sent.1.toUInt16 = 0 then rule.anonUid ≠ 0 ∧ rule.anonGid ≠ 0 ∧ (sent.1 = 0 ∨ sent.2 = 0)
      else sent.2 ≠ 0 ∧ Fits sent

variable {rule : Client} {src : Nat}

theorem narrow_fits {id : UInt32} (fits : id.toNat < 2 ^ 16) : id.toUInt16.toNat = id.toNat := by
  rw [UInt32.toNat_toUInt16]
  exact Nat.mod_eq_of_lt fits

theorem Kept.fits {sent : UInt32} {got : Nat} (kept : Kept (fun _ => True) sent got) :
    sent.toNat < 2 ^ 16 := by
  by_contra large
  rw [Kept, if_neg large] at kept
  exact kept trivial

theorem own_narrow_iff (sent : UInt32 × UInt32) :
    (∀ accounts, Own accounts sent (sent.1.toUInt16.toNat, sent.2.toUInt16.toNat)) ↔ Fits sent := by
  constructor
  · intro own
    have kept := own ⟨fun _ => True, fun _ => True⟩
    exact ⟨kept.1.fits, kept.2.fits⟩
  · intro fits accounts
    simp only [Own, Kept, fits.1, fits.2, if_true]
    exact ⟨narrow_fits fits.1, narrow_fits fits.2⟩

theorem narrow_eq_zero (id : UInt32) : id.toUInt16.toNat = 0 ↔ id.toUInt16 = 0 :=
  ⟨fun zero => UInt16.toNat_inj.mp zero, fun zero => by rw [zero]; rfl⟩

theorem lost_not_own {sent : UInt32 × UInt32} (gone : sent.1.toUInt16 = 0) (user : sent.1 ≠ 0)
    (who : Nat × Nat) :
    ¬∀ accounts, Own accounts sent who := by
  intro own
  have kept := (own ⟨fun _ => True, fun _ => True⟩).1
  have zero := (narrow_eq_zero sent.1).mpr gone
  rw [narrow_fits kept.fits] at zero
  exact user (UInt32.toNat_inj.mp zero)

/-- Which credentials a rule of `root_squash` treats as it should. -/
theorem root_squash_iff (sent : UInt32 × UInt32) (root : rule.squash = .root) :
    (∀ accounts, Squashed accounts rule (some sent) (identity (setPeer src (some sent)) rule)) ↔
    Fair rule (some sent) := by
  have acts : identity (setPeer src (some sent)) rule =
      if sent.1.toUInt16 = 0 then (rule.anonUid, rule.anonGid)
      else (sent.1.toUInt16.toNat, sent.2.toUInt16.toNat) := by
    simp only [identity, setPeer, root, Option.map_some, Option.getD_some, narrow_eq_zero]
  simp only [Squashed, Fair, root, acts]
  by_cases gone : sent.1.toUInt16 = 0
  · simp only [gone, if_true]
    constructor
    · intro squashed
      obtain ⟨uid, gid, -⟩ := squashed ⟨fun _ => True, fun _ => True⟩
      refine ⟨uid, gid, ?_⟩
      by_contra! both
      exact lost_not_own gone both.1 _ fun accounts => (squashed accounts).2.2 both.1 both.2
    · intro fair accounts
      exact ⟨fair.1, fair.2.1, fun user group => absurd fair.2.2 (by simp [user, group])⟩
  · simp only [gone, if_false]
    have user : sent.1 ≠ 0 := by
      intro zero
      rw [zero] at gone
      exact gone rfl
    constructor
    · intro squashed
      have group : sent.2 ≠ 0 := by
        intro zero
        have second := (squashed ⟨fun _ => True, fun _ => True⟩).2.1
        rw [zero] at second
        exact second rfl
      exact ⟨group, (own_narrow_iff sent).mp fun accounts => (squashed accounts).2.2 user group⟩
    · intro fair accounts
      refine ⟨fun zero => gone ((narrow_eq_zero sent.1).mp zero), ?_, fun _ _ =>
        (own_narrow_iff sent).mpr fair.2 accounts⟩
      rw [narrow_fits fair.2.2]
      exact fun zero => fair.1 (UInt32.toNat_inj.mp zero)

theorem squashed_iff_fair (cred : Option (UInt32 × UInt32)) :
    (∀ accounts, Squashed accounts rule cred (identity (setPeer src cred) rule)) ↔
    Fair rule cred := by
  cases cred with
  | none =>
    simp only [Fair, iff_true]
    intro accounts
    cases squash : rule.squash <;> simp [Squashed, identity, setPeer, squash, anonymous]
  | some sent =>
    cases squash : rule.squash with
    | root => exact root_squash_iff sent squash
    | all => simp [Squashed, Fair, identity, squash]
    | none =>
      simp only [Squashed, Fair, identity, setPeer, squash, Option.map_some, Option.getD_some]
      exact own_narrow_iff sent

end Identity

variable {peer : Peer} {t : Table} {fh : Handle}

theorem rule_of_fhResolve {exports : List Export} {r : Resolved}
    (resolved : fhResolve exports peer t fh = some r) : ∃ x ∈ exports,
    ruleFor x peer.src = some r.rule := by
  obtain ⟨x, -, -, -, exported, matched, -, -⟩ := fhResolve_some resolved
  exact ⟨x, List.mem_of_getElem? exported, matched⟩

/-- Every call on the file system comes after a handle that resolved, under the rule of that
handle's export. -/
def Under (P : Client → Prop) : Option Client → Trace Answer → Prop
  | _, [] => True
  | _, ⟨.resolve _, answer⟩ :: trace => Under P (answer.map (·.rule)) trace
  | rule, _ :: trace => (∃ r, rule = some r ∧ P r) ∧ Under P rule trace

variable {trace : Trace Answer} {R : Type}

section Requests

variable {P : Client → Prop} {rule : Client} {exports : List Export}

/-- Whatever the answers, nothing is asked of the files but under the rule of a handle that
resolved. -/
def Guarded {R : Type} (p : Nfs R) : Prop :=
  Always p fun trace _ => ∀ P : Client → Prop,
    (∀ fh r, ⟨.resolve fh, some r⟩ ∈ trace → P r.rule) → Under P none trace

theorem guarded_of_handled {Q : Writer → Prop} {p : Nfs Writer} (handled : Handled Q false p) :
    Guarded p := by
  -- with the rule as it stands, from any question on
  suffices each : ∀ ready rule, Handled Q ready p → Always p fun trace _ => ∀ P : Client → Prop,
      (∀ fh r, ⟨.resolve fh, some r⟩ ∈ trace → P r.rule) →
      (ready = true → ∃ r, rule = some r ∧ P r) →
        Under P rule trace from
    (each false none handled).imp fun _ _ under P holds => under P holds (by simp)
  clear handled
  induction p with
  | ret w => exact fun _ _ _ _ _ _ => trivial
  | ask q next ih =>
    intro ready rule handled a
    cases q
    case resolve fh =>
      cases a with
      | none =>
        refine (ih none false none handled.1).imp fun trace _ under P holds _ =>
          under P (fun fh r later => ?_) (by simp)
        exact holds fh r (List.mem_cons_of_mem _ later)
      | some r =>
        refine (ih (some r) true (some r.rule) (handled.2 r)).imp fun trace _ under P holds _ => ?_
        refine under P (fun fh r later => holds fh r (List.mem_cons_of_mem _ later)) fun _ =>
          ⟨r.rule, rfl, ?_⟩
        exact holds fh r (List.mem_cons_self ..)
    all_goals
      refine (ih a ready rule (handled.2 a)).imp fun trace _ under P holds known =>
        ⟨known handled.1, ?_⟩
      exact under P (fun fh r later => holds fh r (List.mem_cons_of_mem _ later)) known

section Procedures

variable (exports) (c : Args) (w : Writer)

theorem lookup_handled : Handled (fun _ => True) false (procLookup exports c w) := by
  unfold procLookup
  split
  · trivial
  · refine handled_resolve trivial fun r => ?_
    dsimp only
    split
    · trivial
    · split
      · trivial
      · refine handled_ask trivial fun st => ?_
        cases st with
        | error e => exact handled_ask trivial fun _ => trivial
        | ok st =>
          refine handled_ask trivial fun child => ?_
          cases child with
          | none => trivial
          | some child => exact handled_ask trivial fun _ => trivial

theorem readdir_handled (plus : Bool) :
    Handled (fun _ => True) false (procReaddir exports plus c w) := by
  unfold procReaddir
  split
  · trivial
  · refine handled_resolve trivial fun r => handled_ask trivial fun opened => ?_
    cases opened with
    | error e => trivial
    | ok listing =>
      refine handled_ask trivial fun dst => handled_ask trivial fun owner => ?_
      exact handled_after (asks_walk (fun _ _ _ => trivial) _ _ _) fun _ => trivial

theorem guarded_nfs3Handle (iocap proc : Nat) : Guarded (nfs3Handle exports iocap proc c w) := by
  unfold nfs3Handle
  split
  · exact fun _ _ => trivial
  · exact guarded_of_handled getattr_sends
  · exact guarded_of_handled setattr_sends
  · exact guarded_of_handled (lookup_handled exports c w)
  · exact guarded_of_handled access_sends
  · exact guarded_of_handled readlink_sends
  · exact guarded_of_handled (read_sends iocap)
  · exact guarded_of_handled write_sends
  · exact guarded_of_handled create_sends
  · exact guarded_of_handled mkdir_sends
  · exact guarded_of_handled notsupp_sends
  · exact guarded_of_handled notsupp_sends
  · exact guarded_of_handled (remove_sends false)
  · exact guarded_of_handled (remove_sends true)
  · exact guarded_of_handled rename_sends
  · exact guarded_of_handled link_sends
  · exact guarded_of_handled (readdir_handled exports c w false)
  · exact guarded_of_handled (readdir_handled exports c w true)
  · exact guarded_of_handled fsstat_sends
  · exact guarded_of_handled (fsinfo_sends iocap)
  · exact guarded_of_handled pathconf_sends
  · exact guarded_of_handled commit_sends
  · exact fun _ _ => trivial

end Procedures

theorem agrees_rule (agrees : Agrees exports peer t trace)
    {r : Resolved} (resolved : ⟨.resolve fh, some r⟩ ∈ trace) : ∃ x ∈ exports,
    ruleFor x peer.src = some r.rule := by
  induction trace generalizing t with
  | nil => cases resolved
  | cons event trace ih =>
    obtain ⟨q, answer⟩ := event
    cases q
    case resolve other =>
      cases resolved with
      | head => exact rule_of_fhResolve agrees.1.symm
      | tail _ later => exact ih agrees.2 later
    case make exp path =>
      obtain ⟨heap, -, rest⟩ := agrees
      cases resolved with
      | tail _ later => exact ih rest later
    all_goals
      cases resolved with
      | tail _ later => exact ih agrees later

/-- Every call of every request on the file system is made as the identity that the closest rule of
an export gives the client, and that is the identity the rule is for exactly when the credential is
a fair one. -/
theorem squash_iff_fair (exports : List Export) (src : Nat)
    (cred : Option (UInt32 × UInt32)) (t : Table)
    (iocap proc : Nat) (c : Args) (w : Writer) :
    Always (nfs3Handle exports iocap proc c w) fun trace _ =>
      Agrees exports (setPeer src cred) t trace →
        Under (fun rule => (∃ x ∈ exports, Closest x src rule) ∧
          ((∀ accounts, Squashed accounts rule cred (identity (setPeer src cred) rule)) ↔
              Fair rule cred)) none trace := by
  refine (guarded_nfs3Handle exports c w iocap proc).imp fun trace _ under agrees =>
    under _ fun fh r resolved => ?_
  obtain ⟨x, exported, found⟩ := agrees_rule agrees resolved
  exact ⟨⟨x, exported, ruleFor_closest found⟩, squashed_iff_fair cred⟩

theorem getattr_acts {c : Args} {w : Writer} {r : Resolved}
    (read : (getFh c).map (·.1) = some fh) (resolved : fhResolve exports peer t fh = some r)
    (always : Always (procGetattr exports c w) fun trace _ => Agrees exports peer t trace →
      Under P none trace) :
    P r.rule := by
  obtain ⟨⟨_, rest⟩, got, rfl⟩ := Option.map_eq_some_iff.mp read
  simp only [procGetattr, got] at always
  have under := always (some r) (.error .other) ⟨resolved.symm, trivial⟩
  obtain ⟨⟨rule, same, holds⟩, -⟩ := under
  cases same
  exact holds

/-- GETATTR of the root of the disk, with the first handle that is made. -/
def getattrCall : Args := ⟨word fhLen ++ fhBytes 0 1 ['/'], 0⟩

def trusted : Export := { wholeDisk with clients := [{ everyone with squash := .none }] }

/-- Under `root_squash` a user with the group of root keeps it, and where nobody is squashed the
user 66536 is the user 1000. -/
theorem ids_slip_through :
    (¬Always (nfs3Handle [wholeDisk] nfsdIocap 1 getattrCall (xdrwInit nfsdBufcap 1)) fun trace _ =>
      Agrees [wholeDisk] (setPeer 0 (some (1000, 0))) (fhMake true Handles.boot 0 ['/']).1 trace →
        Under (fun rule => ∀ accounts, Squashed accounts rule (some (1000, 0))
          (identity (setPeer 0 (some (1000, 0))) rule)) none trace) ∧
    ¬Always (nfs3Handle [trusted] nfsdIocap 1 getattrCall (xdrwInit nfsdBufcap 1)) fun trace _ =>
      Agrees [trusted] (setPeer 0 (some (66536, 1000))) (fhMake true Handles.boot 0 ['/']).1 trace →
        Under (fun rule => ∀ accounts, Squashed accounts rule (some (66536, 1000))
          (identity (setPeer 0 (some (66536, 1000))) rule)) none trace := by
  have read : (getFh getattrCall).map (·.1) = some (fhBytes 0 1 ['/']) := by decide +kernel
  constructor
  · intro always
    have resolved : fhResolve [wholeDisk] (setPeer 0 (some (1000, 0)))
      (fhMake true Handles.boot 0 ['/']).1
      (fhBytes 0 1 ['/']) = some ⟨0, ['/'], everyone⟩ := by decide +kernel
    have fair := (squashed_iff_fair _).mp (getattr_acts read resolved always)
    exact absurd fair.1 (by decide)
  · intro always
    have resolved : fhResolve [trusted] (setPeer 0 (some (66536, 1000)))
      (fhMake true Handles.boot 0 ['/']).1
      (fhBytes 0 1 ['/']) = some ⟨0, ['/'], { everyone with squash := .none }⟩ := by decide +kernel
    have fair := (squashed_iff_fair _).mp (getattr_acts read resolved always)
    exact absurd fair.1 (by decide)

end Requests

end Espix.Nfsd.Squash
