import Espix.Fs.Access

/-! `components/espix_nfsd/nfsd.c`: what is exported, to whom, and as whom they act. -/

namespace Espix.Nfsd.Exports

open Fs.Access (Path)

inductive Squash
  | root
  | none
  | all
  deriving DecidableEq, Repr

/-- `nfs_client_t`. A zero mask matches everyone. -/
structure Client where
  addr : Nat
  mask : Nat
  ro : Bool
  squash : Squash
  anonUid : Nat
  anonGid : Nat
  deriving DecidableEq, Repr

def exportPathCap : Nat := 192

/-- `nfs_export_t`: the path is a word of a line of `/etc/exports`, cut to its field. -/
structure Export where
  path : Path
  clients : List Client
  named : path ≠ []
  fits : path.length < exportPathCap
  deriving DecidableEq, Repr

def maskBits (mask : Nat) : Nat := (List.range 32).countP mask.testBit

def closer (src : Nat) (best : Option Client) (c : Client) : Option Client :=
  if src &&& c.mask ≠ c.addr &&& c.mask then best
  else
    match best with
    | none => some c
    | some b => if maskBits c.mask > maskBits b.mask then some c else some b

def ruleFor (e : Export) (src : Nat) : Option Client := e.clients.foldl (closer src) none

/-- `export_for`: the first export with exactly this path. -/
def exportFor (exports : List Export) (dir : Path) : Option Nat :=
  exports.findIdx? (·.path == dir)

/-- Who is asking: `nfs3_set_peer`. No credential is a call without `AUTH_SYS`. -/
structure Peer where
  src : Nat
  cred : Option (Nat × Nat)
  deriving DecidableEq, Repr

def anonymous : Nat × Nat := (65534, 65534)

/-- The identity a rule turns the client into; `act_as`. -/
def identity (peer : Peer) (rule : Client) : Nat × Nat :=
  let who := peer.cred.getD anonymous
  match rule.squash with
  | .all => (rule.anonUid, rule.anonGid)
  | .root => if who.1 = 0 then (rule.anonUid, rule.anonGid) else who
  | .none => who

theorem ruleFor_spec {e : Export} {src : Nat} {rule : Client} (found : ruleFor e src = some rule) :
    rule ∈ e.clients ∧ src &&& rule.mask = rule.addr &&& rule.mask := by
  have search (clients : List Client) (best : Option Client) :
      clients.foldl (closer src) best = some rule → best = some rule ∨
        rule ∈ clients ∧ src &&& rule.mask = rule.addr &&& rule.mask := by
    induction clients generalizing best with
    | nil => exact .inl
    | cons c clients ih =>
      intro result
      rcases ih _ result with here | ⟨member, reaches⟩
      · unfold closer at here
        split at here
        · exact .inl here
        · rename_i reaches
          rw [ne_eq, not_not] at reaches
          split at here
          · cases here
            exact .inr ⟨by simp, reaches⟩
          · split at here
            · cases here
              exact .inr ⟨by simp, reaches⟩
            · exact .inl here
      · exact .inr ⟨List.mem_cons_of_mem _ member, reaches⟩
  exact (search e.clients none found).resolve_left nofun

end Espix.Nfsd.Exports
