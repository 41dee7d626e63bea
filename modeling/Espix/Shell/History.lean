import Mathlib.Data.List.Chain
import Mathlib.Data.List.Basic
import Mathlib.Tactic
import Espix.Lib.Run

/-! `components/espix_shell/history.c`: the lists of the lines that users typed.

There are four lists. A session keeps the pointer it got at login, and a list is taken from the
user who claimed it longest ago when a fifth appears. Each line carries who pushed it, and when. -/

namespace Espix.Shell.History

open Function Lib.Run

abbrev Text := List Char

def historyUsers : Nat := 4
def historyMax : Nat := 16
def sessionUserMax : Nat := 17

structure Line where
  text : Text
  author : Text
  time : Nat
  deriving DecidableEq

structure Bucket where
  user : Text
  claimed : Bool
  seq : Nat
  hist : List Line

structure Session where
  user : Text
  bucket : Nat

structure State where
  users : Nat → Bucket
  seq : Nat
  sessions : Nat → Option Session
  clock : Nat

section History

def setBucket (s : State) (i : Nat) (b : Bucket) : State :=
  { s with users := Function.update s.users i b }

def claimedBy (s : State) (user : Text) : Option Nat :=
  (List.range historyUsers).find? fun i => (s.users i).claimed && (s.users i).user == user

def unclaimed (s : State) : Option Nat :=
  (List.range historyUsers).find? fun i => !(s.users i).claimed

def oldest (s : State) : Nat :=
  (List.range' 1 (historyUsers - 1)).foldl
    (fun slot i => if (s.users i).seq < (s.users slot).seq then i else slot) 0

/-- The name, the flag and the next number of the claim counter, which has 32 bits. -/
def claim (s : State) (i : Nat) (user : Text) (hist : List Line) : State :=
  let seq := (s.seq + 1) % 2 ^ 32
  { setBucket s i ⟨user.take (sessionUserMax - 1), true, seq, hist⟩ with seq }

def historyFor (s : State) (user : Text) : Nat × State :=
  match claimedBy s user with
  | some i => (i, s)
  | none =>
    match unclaimed s with
    | some i => (i, claim s i user (s.users i).hist)
    | none => (oldest s, claim s (oldest s) user [])

def historyIsPrivate (line : Text) : Bool :=
  line.head? == some ' ' ||
    ("passwd".toList.isPrefixOf line && (line.length == 6 || (line.drop 6).head? == some ' '))

def makeRoom (hist : List Line) : List Line := if hist.length = historyMax then
    hist.dropLast else hist

def historyPush (hist : List Line) (line : Line) (mem : Bool) : List Line :=
  if line.text = [] then hist
  else if historyIsPrivate line.text then hist
  else if hist.head?.any (·.text == line.text) then hist
  else if !mem then hist
  else line :: makeRoom hist

/-- `espix_history_apply`: what goes to the editor behind the line that is being typed. -/
def historyApply (s : State) (x : Session) : List Line := (s.users x.bucket).hist

end History

inductive Event
  | login (a : Nat) (user : Text)
  | push (a : Nat) (line : Text) (mem : Bool)
  | apply (a : Nat)
  | logout (a : Nat)

def push (s : State) (x : Session) (line : Text) (mem : Bool) : State :=
  let b := s.users x.bucket
  { setBucket s x.bucket { b with hist := historyPush b.hist ⟨line, x.user, s.clock⟩ mem } with
    clock := s.clock + 1 }

def step (s : State) : Event → Option State
  | .login a user =>
    if (s.sessions a).isSome then none
    else
      let (i, u) := historyFor s user
      some { u with sessions := Function.update u.sessions a (some ⟨user, i⟩) }
  | .push a line mem => (s.sessions a).map fun x => push s x line mem
  | .apply a => (s.sessions a).map fun _ => s
  | .logout a =>
      (s.sessions a).map fun _ => { s with sessions := Function.update s.sessions a none }

def start : State := ⟨fun _ => ⟨[], false, 0, []⟩, 0, fun _ => none, 0⟩

def isPush : Event → Bool
  | .push _ _ _ => true
  | _ => false

/-- What a session would load now was pushed by sessions of its user. -/
def Own (s : State) : Prop :=
  ∀ a x, s.sessions a = some x → ∀ line ∈ historyApply s x, line.author = x.user

/-- And it stays so whatever the sessions push from here on. -/
def Faithful (s : State) : Prop :=
  ∀ es u, (∀ e ∈ es, isPush e = true) → run step s es = some u → Own u

/-- Short enough, newest first, and no line twice in a row. -/
structure Shaped (hist : List Line) (clock : Nat) : Prop where
  short : hist.length ≤ historyMax
  newest : hist.Pairwise fun later earlier => earlier.time < later.time
  past : ∀ line ∈ hist, line.time < clock
  different : hist.IsChain fun first second => first.text ≠ second.text

def Clean (s : State) (e : Event) : Prop :=
  ∀ u, step s e = some u → ∀ a user, e = .login a user →
    (∀ line ∈ ((historyFor s user).2.users (historyFor s user).1).hist, line.author = user) ∧
      ∀ b y, s.sessions b = some y → y.bucket = (historyFor s user).1 → y.user = user

def Spared (s : State) (e : Event) : Prop :=
  ∀ u, step s e = some u → ∀ a user, e = .login a user → claimedBy s user = none →
  unclaimed s = none →
    ∀ b y, s.sessions b = some y → y.bucket ≠ oldest s

def Fits : Event → Prop
  | .login _ user => user.length < sessionUserMax
  | _ => True

variable {hist : List Line} {e : Event}

section Shape

variable {s u : State}

theorem makeRoom_begins (hist : List Line) : makeRoom hist <+: hist := by
  unfold makeRoom
  split
  · exact List.dropLast_prefix hist
  · exact List.prefix_rfl

theorem makeRoom_length (short : hist.length ≤ historyMax) :
    (makeRoom hist).length < historyMax := by
  unfold makeRoom
  split
  · rename_i full
    rw [List.length_dropLast, full]
    decide
  · rename_i room
    exact lt_of_le_of_ne short room

theorem historyPush_cases (hist : List Line) (line : Line) (mem : Bool) :
    historyPush hist line mem = hist ∨
      hist.head?.any (·.text == line.text) = false ∧
      historyPush hist line mem = line :: makeRoom hist := by
  unfold historyPush
  repeat' split
  all_goals simp_all

theorem shaped_push {clock : Nat} (shaped : Shaped hist clock) (text author : Text)
    (mem : Bool) : Shaped (historyPush hist ⟨text, author, clock⟩ mem) (clock + 1) := by
  have earlier : ∀ line ∈ hist, line.time < clock + 1 := fun line member =>
    (shaped.past line member).trans (Nat.lt_succ_self clock)
  rcases historyPush_cases hist ⟨text, author, clock⟩ mem with same | ⟨fresh, pushed⟩
  · rw [same]
    exact ⟨shaped.short, shaped.newest, earlier, shaped.different⟩
  · rw [pushed]
    have front := makeRoom_begins hist
    refine ⟨makeRoom_length shaped.short, ?_, ?_, ?_⟩
    · refine List.pairwise_cons.mpr ⟨fun line member => ?_, shaped.newest.sublist front.sublist⟩
      exact shaped.past line (front.subset member)
    · intro line member
      rcases List.mem_cons.mp member with new | old
      · rw [new]
        exact Nat.lt_succ_self clock
      · exact earlier line (front.subset old)
    · refine List.isChain_cons.mpr ⟨fun line head => ?_, shaped.different.prefix front⟩
      have first : hist.head? = some line := by
        obtain ⟨rest, whole⟩ := front
        rw [← whole, List.head?_append, Option.mem_def.mp head]
        rfl
      intro same
      simp [first, ← same] at fresh

def AllShaped (s : State) : Prop := ∀ i, Shaped (s.users i).hist s.clock

theorem shaped_nil (clock : Nat) : Shaped [] clock :=
  ⟨Nat.zero_le _, List.Pairwise.nil, by simp, List.isChain_nil⟩

theorem allShaped_claim (shaped : AllShaped s) (i : Nat) (user : Text)
    (fits : Shaped hist s.clock) : AllShaped (claim s i user hist) := by
  intro j
  by_cases here : j = i
  · simpa [claim, setBucket, here] using fits
  · simpa [claim, setBucket, here] using shaped j

theorem allShaped_historyFor (shaped : AllShaped s) (user : Text) :
    AllShaped (historyFor s user).2 := by
  unfold historyFor
  split
  · exact shaped
  · split
    · rename_i i _
      exact allShaped_claim shaped i user (shaped i)
    · exact allShaped_claim shaped (oldest s) user (shaped_nil s.clock)

theorem allShaped_step (shaped : AllShaped s) (next : step s e = some u) : AllShaped u := by
  cases e with
  | login a user =>
    obtain ⟨-, ⟨⟩⟩ := Option.ite_none_left_eq_some.mp next
    exact allShaped_historyFor shaped user
  | push a line mem =>
    obtain ⟨x, _, rfl⟩ := Option.map_eq_some_iff.mp next
    intro i
    by_cases here : i = x.bucket
    · simpa [push, setBucket, here] using shaped_push (shaped x.bucket) line x.user mem
    · have kept := shaped i
      simpa [push, setBucket, here] using
        (⟨kept.short, kept.newest, fun line member =>
          (kept.past line member).trans (Nat.lt_succ_self _),
          kept.different⟩ : Shaped (s.users i).hist (s.clock + 1))
  | apply a | logout a =>
    obtain ⟨x, _, rfl⟩ := Option.map_eq_some_iff.mp next
    exact shaped

end Shape

variable {a i : Nat} {user : Text}

section Ownership

variable {s u : State}

/-- A list is held by sessions of one user, and holds that user's lines. -/
structure Owned (s : State) : Prop where
  lines : Own s
  alone : ∀ a b x y, s.sessions a = some x → s.sessions b = some y → x.bucket = y.bucket →
    x.user = y.user

theorem step_login (next : step s (.login a user) = some u) :
    s.sessions a = none ∧ u = { (historyFor s user).2 with
      sessions :=
  update (historyFor s user).2.sessions a (some ⟨user, (historyFor s user).1⟩) } := by
  obtain ⟨free, ⟨⟩⟩ := Option.ite_none_left_eq_some.mp next
  exact ⟨by simpa using free, rfl⟩

theorem historyFor_sessions (s : State) (user : Text) :
    (historyFor s user).2.sessions = s.sessions := by
  unfold historyFor
  split
  · rfl
  · split <;> rfl

theorem historyFor_others (s : State) (user : Text) (apart : i ≠ (historyFor s user).1) :
    (historyFor s user).2.users i = s.users i := by
  revert apart
  unfold historyFor
  split
  · exact fun _ => rfl
  · split
    · exact fun apart => by simp [claim, setBucket, update_of_ne apart]
    · exact fun apart => by simp [claim, setBucket, update_of_ne apart]

theorem owned_login (owned : Owned s) (next : step s (.login a user) = some u)
    (clean : Clean s (.login a user)) : Owned u := by
  obtain ⟨lines, holders⟩ := clean u next a user rfl
  obtain ⟨_, rfl⟩ := step_login next
  have others :
    ∀ b y, (update (historyFor s user).2.sessions a (some ⟨user, (historyFor s user).1⟩)) b =
      some y → y = ⟨user, (historyFor s user).1⟩ ∨ s.sessions b = some y := by
    intro b y held
    by_cases here : b = a
    · rw [here, update_self, Option.some.injEq] at held
      exact .inl held.symm
    · rw [update_of_ne here, historyFor_sessions] at held
      exact .inr held
  refine ⟨?_, ?_⟩
  · intro b y held line member
    rcases others b y held with rfl | old
    · exact lines line member
    · by_cases same : y.bucket = (historyFor s user).1
      · rw [holders b y old same]
        simp only [historyApply, same] at member
        exact lines line member
      · simp only [historyApply, historyFor_others s user same] at member
        exact owned.lines b y old line member
  · intro b c x y first second same
    rcases others b x first with rfl | old
    · rcases others c y second with rfl | also
      · rfl
      · exact (holders c y also same.symm).symm
    · rcases others c y second with rfl | also
      · exact holders b x old same
      · exact owned.alone b c x y old also same

theorem owned_push (owned : Owned s) {x : Session} (live : s.sessions a = some x) (line : Text)
    (mem : Bool) : Owned (push s x line mem) := by
  refine ⟨?_, owned.alone⟩
  intro b y held entry member
  by_cases same : y.bucket = x.bucket
  · have user := owned.alone b a y x held live same
    simp only [historyApply, push, setBucket, same, update_self] at member
    rw [user]
    rcases historyPush_cases (s.users x.bucket).hist ⟨line, x.user,
      s.clock⟩ mem with kept | ⟨_, pushed⟩
    · rw [kept] at member
      exact owned.lines a x live entry member
    · rw [pushed] at member
      rcases List.mem_cons.mp member with new | old
      · rw [new]
      · exact owned.lines a x live entry ((makeRoom_begins _).subset old)
  · simp only [historyApply, push, setBucket, update_of_ne same] at member
    exact owned.lines b y held entry member

theorem owned_step (owned : Owned s) (next : step s e = some u) (clean : Clean s e) : Owned u := by
  cases e with
  | login a user => exact owned_login owned next clean
  | push a line mem =>
    obtain ⟨x, live, rfl⟩ := Option.map_eq_some_iff.mp next
    exact owned_push owned live line mem
  | apply a =>
    obtain ⟨x, _, rfl⟩ := Option.map_eq_some_iff.mp next
    exact owned
  | logout a =>
    obtain ⟨x, _, rfl⟩ := Option.map_eq_some_iff.mp next
    have fewer : ∀ b y, update s.sessions a none b = some y → s.sessions b = some y := by
      intro b y held
      by_cases here : b = a
      · simp [here] at held
      · rwa [update_of_ne here] at held
    exact ⟨fun b y held => owned.lines b y (fewer b y held), fun b c x y first second =>
      owned.alone b c x y (fewer b x first) (fewer c y second)⟩

theorem owned_start : Owned start where
  lines a x live := by cases live
  alone a b x y live := by cases live

theorem faithful_of_owned (owned : Owned s) : Faithful s := by
  intro es u pushes done
  have kept : Owned u := by
    refine run_invariant_along (P := Owned) ?_
      (Along.of_forall pushes s) done owned
    intro s e u owned is_push next
    refine owned_step owned next ?_
    intro _ _ a user same
    rw [same] at is_push
    cases is_push
  exact kept.lines

theorem exists_taken (hist : List Line) (author : Text) (time : Nat) :
    ∃ text, historyPush hist ⟨text, author, time⟩ true = ⟨text, author, time⟩ :: makeRoom hist := by
  have taken : ∀ c : Char, historyIsPrivate [c] = false → hist.head?.any (·.text == [c]) = false →
      historyPush hist ⟨[c], author, time⟩ true = ⟨[c], author, time⟩ :: makeRoom hist := by
    intro c shown other
    simp [historyPush, shown, other]
  cases first : hist.head?.any (·.text == ['a']) with
  | false => exact ⟨['a'], taken 'a' (by decide) first⟩
  | true =>
    refine ⟨['b'], taken 'b' (by decide) ?_⟩
    cases head : hist.head? with
    | none => rfl
    | some line =>
      have same : line.text = ['a'] := by simpa [head] using first
      simp [same]

theorem clean_of_faithful (faithful : ∀ u, step s e = some u → Faithful u) : Clean s e := by
  intro u next a user same
  subst same
  have after := faithful u next
  obtain ⟨unused, rfl⟩ := step_login next
  have mine : (update (historyFor s user).2.sessions a (some ⟨user, (historyFor s user).1⟩)) a =
      some ⟨user, (historyFor s user).1⟩ := update_self a _ _
  refine ⟨after [] _ (by simp) rfl a _ mine, ?_⟩
  intro b y held shares
  have apart : b ≠ a := by
    intro here
    rw [here, unused] at held
    cases held
  have still : (update (historyFor s user).2.sessions a (some ⟨user, (historyFor s user).1⟩)) b =
      some y := by
    rw [update_of_ne apart, historyFor_sessions, held]
  obtain ⟨text, taken⟩ := exists_taken ((historyFor s user).2.users y.bucket).hist y.user
    (historyFor s user).2.clock
  have loaded := after [.push b text true] _ (by simp [isPush])
    (by simp only [run, step, still, Option.map_some, Option.bind_some]; rfl) a _ mine
    ⟨text, y.user, (historyFor s user).2.clock⟩
  refine loaded ?_
  simp only [historyApply, push, setBucket, ← shares, update_self, taken]
  exact List.mem_cons_self

end Ownership

section Names

variable {s u : State}

/-- Where the names fit, the name on a list says whose it is. -/
structure Labelled (s : State) : Prop where
  lines : ∀ i, ∀ line ∈ (s.users i).hist, line.author = (s.users i).user
  held : ∀ a x, s.sessions a = some x →
    x.bucket < historyUsers ∧ (s.users x.bucket).claimed = true ∧ (s.users x.bucket).user = x.user
  free : ∀ i, (s.users i).claimed = false → (s.users i).hist = []

theorem claimedBy_some (found : claimedBy s user = some i) :
    i < historyUsers ∧ (s.users i).claimed = true ∧ (s.users i).user = user := by
  have here := List.find?_some found
  have both : (s.users i).claimed = true ∧ (s.users i).user = user := by simpa using here
  exact ⟨List.mem_range.mp (List.mem_of_find?_eq_some found), both⟩

theorem unclaimed_some (found : unclaimed s = some i) :
    i < historyUsers ∧ (s.users i).claimed = false := by
  have here := List.find?_some found
  exact ⟨List.mem_range.mp (List.mem_of_find?_eq_some found), by simpa using here⟩

theorem oldest_lt (s : State) : oldest s < historyUsers := by
  have picked : ∀ (places : List Nat) (slot : Nat), slot < historyUsers →
      (∀ i ∈ places, i < historyUsers) →
      places.foldl (fun slot i => if (s.users i).seq < (s.users slot).seq then i else slot) slot <
        historyUsers := by
    intro places
    induction places with
    | nil => exact fun slot within _ => within
    | cons i places ih =>
      intro slot within inside
      obtain ⟨here, later⟩ := List.forall_mem_cons.mp inside
      refine ih _ ?_ later
      dsimp only
      split
      · exact here
      · exact within
  exact picked _ 0 (by decide) (by decide)

theorem claimedBy_none (missed : claimedBy s user = none)
    (within : i < historyUsers)
    (claimed : (s.users i).claimed = true) : (s.users i).user ≠ user := by
  have other := List.find?_eq_none.mp missed i (List.mem_range.mpr within)
  simpa [claimed] using other

section

variable (labelled : Labelled s)

include labelled

/-- The lists that nobody claimed have no lines and no sessions; those of the user have the
user's. A list that is taken away is the user's alone if no session has it. -/
theorem clean_login (spared : claimedBy s user = none → unclaimed s = none →
      ∀ b y, s.sessions b = some y → y.bucket ≠ oldest s) :
    (∀ line ∈ ((historyFor s user).2.users (historyFor s user).1).hist, line.author = user) ∧
      ∀ b y, s.sessions b = some y → y.bucket = (historyFor s user).1 → y.user = user := by
  unfold historyFor
  split
  · rename_i i found
    obtain ⟨_, _, named⟩ := claimedBy_some found
    refine ⟨fun line member => ?_, fun b y held here => ?_⟩
    · rw [labelled.lines i line member, named]
    · rw [← (labelled.held b y held).2.2, here, named]
  · rename_i missed
    split
    · rename_i i found
      have free := (unclaimed_some found).2
      refine ⟨?_, fun b y held here => ?_⟩
      · simp [claim, setBucket, labelled.free i free]
      · have claimed := (labelled.held b y held).2.1
        rw [here, free] at claimed
        cases claimed
    · rename_i full
      refine ⟨?_, fun b y held here => ?_⟩
      · simp [claim, setBucket]
      · exact absurd here (spared missed full b y held)

theorem clean_iff_spared (e : Event) : Clean s e ↔ Spared s e := by
  constructor
  · intro clean u next a user same missed full b y held here
    have holders := (clean u next a user same).2 b y held
    simp only [historyFor, missed, full] at holders
    obtain ⟨within, claimed, named⟩ := labelled.held b y held
    exact claimedBy_none missed within claimed (named.trans (holders here))
  · intro spared u next a user same
    exact clean_login labelled (spared u next a user same)

theorem labelled_claim (fits : user.length < sessionUserMax)
    (within : i < historyUsers) (alone : ∀ b y, s.sessions b = some y → y.bucket ≠ i) (a : Nat) :
    Labelled { claim s i user [] with
      sessions := update (claim s i user []).sessions a (some ⟨user, i⟩) } := by
  have whole : user.take (sessionUserMax - 1) = user :=
    List.take_of_length_le (Nat.le_pred_of_lt fits)
  refine ⟨?_, ?_, ?_⟩
  · intro j line member
    by_cases here : j = i
    · simp [claim, setBucket, here] at member
    · simp only [claim, setBucket, update_of_ne here] at member ⊢
      exact labelled.lines j line member
  · intro b x held
    by_cases here : b = a
    · simp only [here, update_self, Option.some.injEq] at held
      subst held
      simp [claim, setBucket, whole, within]
    · simp only [update_of_ne here] at held
      have apart := alone b x held
      simp only [claim, setBucket, update_of_ne apart]
      exact labelled.held b x held
  · intro j unclaimed
    by_cases here : j = i
    · simp [claim, setBucket, here]
    · simp only [claim, setBucket, update_of_ne here] at unclaimed ⊢
      exact labelled.free j unclaimed

theorem labelled_login (fits : user.length < sessionUserMax)
    (spared : Spared s (.login a user)) (next : step s (.login a user) = some u) : Labelled u := by
  have kept := spared u next a user rfl
  obtain ⟨_, rfl⟩ := step_login next
  cases found : claimedBy s user with
  | some i =>
    obtain ⟨within, claimed, named⟩ := claimedBy_some found
    simp only [historyFor, found]
    refine ⟨labelled.lines, ?_, labelled.free⟩
    intro b x held
    by_cases here : b = a
    · simp only [here, update_self, Option.some.injEq] at held
      subst held
      exact ⟨within, claimed, named⟩
    · simp only [update_of_ne here] at held
      exact labelled.held b x held
  | none =>
    cases free : unclaimed s with
    | some i =>
      obtain ⟨within, nobody⟩ := unclaimed_some free
      simp only [historyFor, found, free, labelled.free i nobody]
      refine labelled_claim labelled fits within ?_ a
      intro b y held here
      have claimed := (labelled.held b y held).2.1
      rw [here, nobody] at claimed
      cases claimed
    | none =>
      simp only [historyFor, found, free]
      exact labelled_claim labelled fits (oldest_lt s) (kept found free) a

theorem labelled_push {x : Session} (live : s.sessions a = some x)
    (line : Text) (mem : Bool) : Labelled (push s x line mem) := by
  obtain ⟨_, claimed, named⟩ := labelled.held a x live
  have fields : ∀ i, ((push s x line mem).users i).user = (s.users i).user ∧
      ((push s x line mem).users i).claimed = (s.users i).claimed := by
    intro i
    by_cases here : i = x.bucket <;> simp [push, setBucket, here]
  refine ⟨?_, ?_, ?_⟩
  · intro i entry member
    rw [(fields i).1]
    by_cases here : i = x.bucket
    · simp only [push, setBucket, here, update_self] at member
      rcases historyPush_cases (s.users x.bucket).hist ⟨line, x.user,
        s.clock⟩ mem with kept | ⟨_, pushed⟩
      · rw [kept] at member
        rw [here]
        exact labelled.lines x.bucket entry member
      · rw [pushed] at member
        rw [here]
        rcases List.mem_cons.mp member with new | old
        · rw [new, named]
        · exact labelled.lines x.bucket entry ((makeRoom_begins _).subset old)
    · simp only [push, setBucket, update_of_ne here] at member
      exact labelled.lines i entry member
  · intro b y held
    rw [(fields y.bucket).1, (fields y.bucket).2]
    exact labelled.held b y held
  · intro i nobody
    rw [(fields i).2] at nobody
    have apart : i ≠ x.bucket := by
      intro here
      rw [here, claimed] at nobody
      cases nobody
    simp only [push, setBucket, update_of_ne apart]
    exact labelled.free i nobody

theorem labelled_step (fits : Fits e) (spared : Spared s e)
    (next : step s e = some u) : Labelled u := by
  cases e with
  | login a user => exact labelled_login labelled fits spared next
  | push a line mem =>
    obtain ⟨x, live, rfl⟩ := Option.map_eq_some_iff.mp next
    exact labelled_push labelled live line mem
  | apply a =>
    obtain ⟨x, _, rfl⟩ := Option.map_eq_some_iff.mp next
    exact labelled
  | logout a =>
    obtain ⟨x, _, rfl⟩ := Option.map_eq_some_iff.mp next
    refine ⟨labelled.lines, ?_, labelled.free⟩
    intro b y held
    by_cases here : b = a
    · simp [here] at held
    · simp only [update_of_ne here] at held
      exact labelled.held b y held

end

theorem labelled_start : Labelled start where
  lines i line member := by cases member
  held a x live := by cases live
  free i _ := rfl

end Names

/-- The lists are always short, newest first and without repetition. What is loaded stays the
user's own exactly if every login gets a list that is its user's alone; with names that fit, if no
list is taken away that a session still has. -/
theorem history_belongs_iff (es : List Event) :
    (∀ s, run step start es = some s → AllShaped s) ∧
      (Along step (fun s e => ∀ u, step s e = some u → Faithful u) start es ↔
        Along step Clean start es) ∧
      ((∀ e ∈ es, Fits e) → (Along step Clean start es ↔ Along step Spared start es)) := by
  refine ⟨fun s done => ?_, ⟨?_, ?_⟩, fun fits => ⟨fun along => ?_, fun along => ?_⟩⟩
  · exact run_invariant (fun _ _ _ shaped next => allShaped_step shaped next) done
      fun _ => shaped_nil 0
  · exact Along.imp (P := fun _ => True) (fun _ _ _ _ _ _ => trivial)
      (fun s e _ => clean_of_faithful) trivial
  · refine Along.imp (P := Owned) (fun s e u owned clean next => owned_step owned next clean) ?_
      owned_start
    intro s e owned clean u next
    exact faithful_of_owned (owned_step owned next clean)
  · refine Along.imp (P := Labelled) ?_ ?_ labelled_start (along.mem (List.Subset.refl es))
    · intro s e u labelled clean next
      exact labelled_step labelled (fits e clean.2) ((clean_iff_spared labelled e).mp clean.1) next
    · intro s e labelled clean
      exact (clean_iff_spared labelled e).mp clean.1
  · refine Along.imp (P := Labelled) ?_ ?_ labelled_start (along.mem (List.Subset.refl es))
    · intro s e u labelled spared next
      exact labelled_step labelled (fits e spared.2) spared.1 next
    · intro s e labelled spared
      exact (clean_iff_spared labelled e).mpr spared.1

def five : List Event := ["a", "b", "c", "d", "e"].mapIdx fun i name => .login i name.toList

/-- The fifth gets the list of the first, whose next line it then reads. -/
theorem fifth_user_reads_the_first :
    ∃ s ∈ run step start (five ++ [.push 0 "secret".toList true]),
      (s.sessions 4).any (fun x => x.user == "e".toList) = true ∧
        (s.sessions 4).map (historyApply s) = some [⟨"secret".toList, "a".toList, 0⟩] := by
  decide +kernel

end Espix.Shell.History
