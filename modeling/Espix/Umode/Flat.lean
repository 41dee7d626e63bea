import Espix.Lib.Run
import Espix.Umode.Copy

/-! The flat memory that the kernel's copies and a program's own touches work on.

Pages are mapped on first touch, yet any sequence of calls answers as one array of
bytes would. -/

namespace Espix.Umode.Flat

open Lib.Run Lib.Page Mm Copy

abbrev Memory := UInt32 → Option (Perm × UInt8)

def load (mem : Memory) (uva : UInt32) (n : Nat) : List UInt8 :=
  (List.range n).map fun k => ((mem (uva + .ofNat k)).map Prod.snd).getD 0

def store (mem : Memory) (uva : UInt32) (src : List UInt8) (m : Nat) : Memory := fun va =>
  if (va - uva).toNat < m then (mem va).map fun v => (v.1, src.getD (va - uva).toNat 0) else mem va

def Open (mem : Memory) (need : Need) (uva : UInt32) (n : Nat) : Prop :=
  ∀ k < n, (mem (uva + .ofNat k)).any fun v => v.1.has need

def flat (as : AddrSpace) : Memory := fun va => view as va.toNat

def fault (heap : Heap) (as : AddrSpace) (va : Nat) (need : Need) : Bool × AddrSpace :=
  ((pageOf heap as va need).1.isSome, (pageOf heap as va need).2)

inductive Call
  | copyin (heap : Heap) (uva : UInt32) (n : Nat) (got : Bool × List UInt8)
  | copyout (heap : Heap) (uva : UInt32) (src : { src : List UInt8 // src.length < 4294967296 })
      (ok : Bool)
  | strin (heap : Heap) (uva : UInt32) (size : Nat) (result : StrResult)
  | fault (heap : Heap) (va : UInt32) (need : Need) (ok : Bool)

def answered {R : Type} [DecidableEq R] (answer : R) (ran : R × AddrSpace) : Option AddrSpace :=
  if ran.1 = answer then some ran.2 else none

def step (as : AddrSpace) : Call → Option AddrSpace
  | .copyin heap uva n got => answered got (copyin heap as uva.toNat n)
  | .copyout heap uva src ok => answered ok (copyout heap as uva.toNat src)
  | .strin heap uva size result => answered result (strin heap as uva.toNat size)
  | .fault heap va need ok => answered ok (fault heap as va.toNat need)

/-- The answers of a flat memory: a call that fails has read or written a first part. -/
def Answers (mem : Memory) : Call → Memory → Prop
  | .copyin _ uva n (ok, out), after =>
    after = mem ∧ ∃ m ≤ n, Open mem .r uva m ∧ out = load mem uva m ∧ (ok = true → m = n)
  | .copyout _ uva src ok, after =>
    ∃ m ≤ src.1.length, Open mem .w uva m ∧ after = store mem uva src m ∧
      (ok = true → m = src.1.length)
  | .strin _ uva _ (.text out), after =>
    after = mem ∧ 0 ∉ out ∧ Open mem .r uva (out.length + 1) ∧
      load mem uva (out.length + 1) = out ++ [0]
  | .strin _ uva size .enametoolong, after =>
      after = mem ∧ Open mem .r uva size ∧ 0 ∉ load mem uva size
  | .strin _ _ _ .efault, after => after = mem
  | .fault _ va need ok, after => after = mem ∧ (ok = true → (mem va).any fun v => v.1.has need)

variable {R : Type} [DecidableEq R] {as as' : AddrSpace} {uva : UInt32} {m : Nat}

theorem flat_add (k : Nat) : flat as (uva + .ofNat k) = view as (wrap (uva.toNat + k)) := by
  simp [flat, wrap]

theorem load_flat : load (flat as) uva m = bytesAt as uva.toNat m := by
  simp [load, flat_add, bytesAt, viewByte]

theorem flat_same (same : ∀ va, view as' va = view as va) : flat as' = flat as :=
  funext fun _ => same _

theorem flat_written {src : List UInt8} (written : Written as as' uva.toNat src m) :
    flat as' = store (flat as) uva src m := by
  funext va
  have here : (va - uva).toNat = index uva.toNat va.toNat := by
    have := uva.toNat_lt
    rw [UInt32.toNat_sub, index, wrap]
    omega
  rw [store, here]
  exact written va.toNat va.toNat_lt

theorem open_mapped {need : Need}
    (pages : ∀ k < m, ∃ loc, MappedAt as' need (wrap (uva.toNat + k)) loc)
    (same : ∀ va < 4294967296, accessible as' need va = accessible as need va) :
    Open (flat as) need uva m := by
  intro k low
  obtain ⟨loc, mapped⟩ := pages k low
  rw [flat_add]
  exact (same _ (wrap_lt _)).symm.trans mapped.accessible

theorem answered_eq {answer : R} {ran : R × AddrSpace}
    (done : answered answer ran = some as') : ran = (answer, as') := by
  unfold answered at done
  grind

theorem step_answers {call : Call} (wf : Wf as) (done : step as call = some as') :
    Wf as' ∧ Answers (flat as) call (flat as') := by
  cases call with
  | copyin heap uva n got =>
    obtain ⟨walked, m, short, text, pages, success, -⟩ :=
      copyinLoop_spec wf uva.toNat_lt (Nat.le_refl n) (answered_eq done)
    exact ⟨walked.wf, flat_same walked.same, m, short, open_mapped pages fun _ _ =>
      walked.accessible _ _,
      by rwa [load_flat], fun fine => (success fine).1⟩
  | copyout heap uva src ok =>
    obtain ⟨wf', -, -, m, short, written, pages, -, success, -⟩ :=
      copyoutLoop_spec wf uva.toNat_lt (Nat.le_refl _) (Nat.le_of_lt src.2) (answered_eq done)
    exact ⟨wf', m, short, open_mapped pages fun _ => written.accessible _, flat_written written,
      fun fine => (success fine).1⟩
  | strin heap uva size result =>
    obtain ⟨walked, outcome⟩ := strinLoop_spec wf uva.toNat_lt (Nat.le_refl size) (answered_eq done)
    have same := flat_same walked.same
    have kept := fun va (_ : va < 4294967296) => walked.accessible .r va
    refine ⟨walked.wf, ?_⟩
    cases result with
    | efault => exact same
    | enametoolong =>
      exact ⟨same, open_mapped outcome.2.1 kept, by
        rw [load_flat]; exact zero_not_mem_bytesAt.mpr outcome.1⟩
    | text out =>
      obtain ⟨m, -, rfl, nonzero, zero, pages, -⟩ := outcome
      rw [List.nil_append] at *
      refine ⟨same, zero_not_mem_bytesAt.mpr nonzero, ?_, ?_⟩ <;> rw [bytesAt_length]
      · exact open_mapped pages kept
      · simp [load_flat, bytesAt, List.range_succ, zero]
  | fault heap va need ok =>
    obtain ⟨rfl, rfl⟩ := Prod.mk.inj (answered_eq done)
    rw [← userPin_eq_pageOf]
    obtain ⟨⟨_ | loc, after⟩, found⟩ : ∃ r, userPin heap as va.toNat need = r :=
      ⟨_, rfl⟩ <;> rw [found]
    · obtain ⟨walked, -⟩ := userPin_refused wf found
      exact ⟨walked.wf, flat_same walked.same, by simp⟩
    · obtain ⟨walked, -, mapped⟩ := userPin_walked wf found
      have seen := (walked.accessible need _).symm.trans mapped.accessible
      exact ⟨walked.wf, flat_same walked.same, fun _ => seen⟩

/-- Any sequence of copies and touches, failed ones included, is a run of one flat memory. -/
theorem copies_refine_flat {calls : List Call} (wf : Wf as) (done : run step as calls = some as') :
    Path Answers (flat as) calls (flat as') :=
  run_refines flat (fun _ _ _ => step_answers) done wf

theorem copies_refine_flat_reserved : ∃ as', Path Answers (flat reservedSpace)
    [.copyout (fun _ => true) 0x10ffe ⟨[1, 2, 0], by decide⟩ true,
      .strin (fun _ => true) 0x10fff 8 (.text [2])] (flat as') :=
  ⟨_, copies_refine_flat reservedSpace_wf rfl⟩

end Espix.Umode.Flat
