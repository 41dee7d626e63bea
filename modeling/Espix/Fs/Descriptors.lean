import Espix.Fs.MountTable

/-! Descriptors that share an open file.

A slot counts the descriptors that carry its key. In the middle of an operation one reference may
be owed: taken by the slot and not yet carried, or the other way round. -/

namespace Espix.Fs.Descriptors

open Function Access Effects MountTable Placing Vfs Lib.Run Lib.Tally

def carriers (cfg : Config) (s : State) (key : Nat) : Nat :=
  tally cfg.maxFds s.table (·.localFd == key)

/-- Every slot counts its descriptors, but for the reference that is owed. -/
structure Balanced (cfg : Config) (s : State) (owed : Option Nat) : Prop where
  ours : ∀ key slot, s.fds key = some slot → fdOurs key = true
  refs : ∀ key slot, s.fds key = some slot →
    slot.refs = carriers cfg s key + (decide (owed = some key)).toNat ∧ 0 < slot.refs
  free : ∀ key, fdOurs key = true → s.fds key = none → carriers cfg s key = 0 ∧ owed ≠ some key
  own : ∀ fd e, fd < cfg.maxFds → s.table fd = some e → fdOurs e.localFd = true →
    e.vfs = cfg.rootVfs ∧ e.permanent = false

variable {entry : Option Entry} {e : Entry}

section References

variable {cfg : Config} {s u : State} {owed : Option Nat} {key fd : Nat}

theorem carriers_setEntry (within : fd < cfg.maxFds) (s : State) (entry : Option Entry)
    (key : Nat) :
    carriers cfg (setEntry s fd entry) key + ((s.table fd).any (·.localFd == key)).toNat =
      carriers cfg s key + (entry.any (·.localFd == key)).toNat :=
  tally_update within s.table entry _

def due (cfg : Config) (s : State) (owed : Option Nat) (key : Nat) : Nat :=
  carriers cfg s key + (decide (owed = some key)).toNat

theorem Balanced.change {after : Option Nat} (balanced : Balanced cfg s owed) (fds : u.fds = s.fds)
    (same : ∀ key, fdOurs key = true → due cfg u after key = due cfg s owed key)
    (own : ∀ fd e, fd < cfg.maxFds → u.table fd = some e → fdOurs e.localFd = true →
      e.vfs = cfg.rootVfs ∧ e.permanent = false) : Balanced cfg u after where
  ours := fds ▸ balanced.ours
  refs key slot used := by
    rw [fds] at used
    obtain ⟨refs, some_refs⟩ := balanced.refs key slot used
    exact ⟨refs.trans (same key (balanced.ours key slot used)).symm, some_refs⟩
  free key ours unused := by
    rw [fds] at unused
    obtain ⟨alone, settled⟩ := balanced.free key ours unused
    have nothing := same key ours
    simp only [due, alone, settled, decide_false, Bool.toNat_false] at nothing
    exact ⟨by omega, fun owes => by simp [owes] at nothing⟩
  own := own

theorem Balanced.of_same (balanced : Balanced cfg s owed) (fds : u.fds = s.fds)
    (table : u.table = s.table) : Balanced cfg u owed :=
  balanced.change fds (fun key _ => by
    rw [due, due, carriers, carriers, table]) (table ▸ balanced.own)

theorem Balanced.setEntry {after : Option Nat} (balanced : Balanced cfg s owed)
    (same : ∀ key, fdOurs key = true →
      due cfg (Vfs.setEntry s fd entry) after key = due cfg s owed key)
    (own : ∀ e, entry = some e → fdOurs e.localFd = true → e.vfs = cfg.rootVfs ∧
      e.permanent = false) :
    Balanced cfg (Vfs.setEntry s fd entry) after := by
  refine balanced.change rfl same fun place e within used ours => ?_
  by_cases here : place = fd
  · simp only [Vfs.setEntry, here, update_self] at used
    exact own e used ours
  · simp only [Vfs.setEntry, update_of_ne here] at used
    exact balanced.own place e within used ours

theorem any_key_false (other : entry.any (fun e => fdOurs e.localFd) = false)
    (ours : fdOurs key = true) : entry.any (·.localFd == key) = false := by
  cases entry with
  | none => rfl
  | some e =>
    simp only [Option.any_some, beq_eq_false_iff_ne] at other ⊢
    intro same
    rw [same, ours] at other
    cases other

theorem Balanced.other (balanced : Balanced cfg s owed)
    (before : (s.table fd).any (fun e => fdOurs e.localFd) = false)
    (after : entry.any (fun e => fdOurs e.localFd) = false) : Balanced cfg
    (Vfs.setEntry s fd entry) owed := by
  refine balanced.setEntry (fun key ours => ?_) fun e same ours => ?_
  · refine congrArg (· + _) (tally_update_same ?_ cfg.maxFds)
    rw [any_key_false before ours, any_key_false after ours]
  · simp [same, ours] at after

theorem Balanced.dropped (balanced : Balanced cfg s none) (within : fd < cfg.maxFds)
    (used : s.table fd = some e) : Balanced cfg (Vfs.setEntry s fd none) (some e.localFd) := by
  refine balanced.setEntry (fun key _ => ?_) nofun
  have carried := carriers_setEntry within s none key
  rw [used] at carried
  simpa [due, beq_eq_decide] using carried

theorem Balanced.given (balanced : Balanced cfg s (some key)) (within : fd < cfg.maxFds)
    (unused : s.table fd = none) :
    Balanced cfg (Vfs.setEntry s fd (some ⟨cfg.rootVfs, key, false⟩)) none := by
  refine balanced.setEntry (fun other _ => ?_) ?_
  · have carried := carriers_setEntry within s (some ⟨cfg.rootVfs, key, false⟩) other
    rw [unused] at carried
    simpa [due, beq_eq_decide] using carried
  · rintro e ⟨⟩ -
    exact ⟨rfl, rfl⟩

theorem Balanced.setFd {after : Option Nat} (balanced : Balanced cfg s owed)
    (ours : fdOurs key = true)
    {entry : Option Slot} (elsewhere : ∀ other, other ≠ key →
      (owed = some other ↔ after = some other))
    (held : ∀ slot, entry = some slot →
      slot.refs = carriers cfg s key + (decide (after = some key)).toNat ∧ 0 < slot.refs)
    (empty : entry = none → carriers cfg s key = 0 ∧ after ≠ some key) :
    Balanced cfg (setFd s key entry) after where
  ours other slot used := by
    by_cases here : other = key
    · rw [here]
      exact ours
    · simp only [Vfs.setFd, update_of_ne here] at used
      exact balanced.ours other slot used
  refs other slot used := by
    by_cases here : other = key
    · simp only [Vfs.setFd, here, update_self] at used
      rw [here]
      exact held slot used
    · simp only [Vfs.setFd, update_of_ne here] at used
      have same := elsewhere other here
      simp only [← same]
      exact balanced.refs other slot used
  free other mine unused := by
    by_cases here : other = key
    · simp only [Vfs.setFd, here, update_self] at unused
      rw [here]
      exact empty unused
    · simp only [Vfs.setFd, update_of_ne here] at unused
      have before := balanced.free other mine unused
      exact ⟨before.1, fun owes => before.2 ((elsewhere other here).mpr owes)⟩
  own := balanced.own

theorem Balanced.referred (balanced : Balanced cfg s none) {slot : Slot}
    (used : s.fds key = some slot) :
    Balanced cfg (Vfs.setFd s key (some { slot with refs := slot.refs + 1 })) (some key) := by
  have before := balanced.refs key slot used
  refine balanced.setFd (balanced.ours key slot used) ?_ ?_ (fun impossible => by cases impossible)
  · intro other apart
    simpa using Ne.symm apart
  · intro now same
    cases same
    simp at before ⊢
    omega

theorem Balanced.closed (balanced : Balanced cfg s (some key)) (ours : fdOurs key = true) :
    Balanced cfg (vfsClose s key) none := by
  have low : (decide (synthFdBase ≤ key) || !fdOurs key) = false := by
    rw [ours, Bool.not_true, Bool.or_false]
    exact decide_eq_false (Nat.not_le.mpr ((fdOurs_lt ours).trans (by decide)))
  have elsewhere : ∀ other, other ≠ key →
      (some key = some other ↔ (none : Option Nat) = some other) := by
    intro other apart
    simpa using Ne.symm apart
  unfold vfsClose
  rw [low]
  cases used : s.fds key with
  | none => exact absurd rfl (balanced.free key ours used).2
  | some slot =>
    have before := balanced.refs key slot used
    simp only [decide_true, Bool.toNat_true] at before
    simp only [Bool.false_eq_true, if_false]
    split
    · refine balanced.setFd ours elsewhere ?_ (fun impossible => by cases impossible)
      intro now same
      cases same
      simp
      omega
    · have last := balanced.of_same (call_fds s slot.mount .close (.fd slot.lowerFd))
        (call_table s slot.mount .close (.fd slot.lowerFd))
      refine last.setFd ours elsewhere (fun _ impossible => by
        cases impossible) fun _ => ⟨?_, by simp⟩
      have same : carriers cfg (call s slot.mount .close (.fd slot.lowerFd)) key =
          carriers cfg s key := by
        rw [carriers, carriers, call_table]
      omega

end References

section Operations

variable {cfg : Config} {s u : State}

theorem vfsClose_other {key : Nat} (other : fdOurs key = false) (s : State) :
    vfsClose s key = s := by
  simp [vfsClose, other]

theorem call_setEntry (s : State) (i fd : Nat) (cb : Callback) (arg : Arg) (entry : Option Entry) :
    setEntry (call s i cb arg) fd entry = call (setEntry s fd entry) i cb arg := by
  cases mounted : s.mounts i with
  | none => simp [call, setEntry, mounted, State.note]
  | some m =>
    by_cases answers : (!m.dead && m.has cb) = true <;>
      simp [call, setEntry, mounted, answers, State.note]

theorem vfsClose_setEntry (s : State) (key fd : Nat) (entry : Option Entry) :
    setEntry (vfsClose s key) fd entry = vfsClose (setEntry s fd entry) key := by
  unfold vfsClose
  split
  · rfl
  · cases used : s.fds key with
    | none => simp [setEntry, used]
    | some slot =>
      by_cases shared : slot.refs > 1
      · simp [setEntry, setFd, used, shared]
      · have kept : (setEntry s fd entry).fds key = some slot := used
        simp only [kept, shared, if_false]
        rw [← call_setEntry]
        rfl

theorem vfsClose_frame (s : State) (key : Nat) :
    (vfsClose s key).table = s.table ∧ ∀ other, other ≠ key →
    (vfsClose s key).fds other = s.fds other := by
  fun_cases vfsClose s key with
  | case1 | case2 => exact ⟨rfl, fun _ _ => rfl⟩
  | case3 => exact ⟨rfl, fun other apart => update_of_ne apart _ _⟩
  | case4 =>
    refine ⟨call_table s _ .close _, fun other apart => ?_⟩
    change update (call s _ .close _).fds key none other = _
    rw [update_of_ne apart, call_fds]

theorem getFdEntry_eq_some {fd : Nat} (used : getFdEntry cfg s fd = some e) :
    fd < cfg.maxFds ∧ s.table fd = some e := by
  rw [getFdEntry, cfg.entry_eq] at used
  split at used
  · rename_i within
    exact ⟨within, used⟩
  · cases used

section

variable (balanced : Balanced cfg s none)

include balanced

theorem idfClose_ours {fd : Nat}
    (used : getFdEntry cfg s fd = some e) (mine : fdOurs e.localFd = true) :
    idfClose cfg s fd = vfsClose (setEntry s fd none) e.localFd := by
  obtain ⟨within, there⟩ := getFdEntry_eq_some used
  obtain ⟨root, passing⟩ := balanced.own fd e within there mine
  simp only [idfClose, used, root, passing, if_true, Bool.false_eq_true, if_false]
  rw [unregisterFd_eq (by rw [(vfsClose_frame s _).1, there]; exact passing)]
  exact vfsClose_setEntry s e.localFd fd none

theorem balanced_idfClose (fd : Nat) : Balanced cfg (idfClose cfg s fd) none := by
  cases used : getFdEntry cfg s fd with
  | none =>
    simp only [idfClose, used]
    exact balanced
  | some e =>
    obtain ⟨within, there⟩ := getFdEntry_eq_some used
    cases mine : fdOurs e.localFd with
    | true =>
      rw [idfClose_ours balanced used mine]
      exact (balanced.dropped within there).closed mine
    | false =>
      simp only [idfClose, used, vfsClose_other mine, ite_self]
      split
      · exact balanced
      · rename_i passing
        rw [unregisterFd_eq (by rw [there]; simpa using passing)]
        exact balanced.other (by simp [there, mine]) rfl

theorem balanced_dupPlace (key min : Nat) :
    Balanced cfg (dupPlace cfg s cfg.rootVfs key min).1 none := by
  rcases dupPlace_spec cfg s cfg.rootVfs key min with ⟨slot, fd, used, within, free, placed⟩ | same
  · rw [placed]
    exact (balanced.referred used).given within free
  · rw [same]
    exact balanced

theorem balanced_dupMin (fd min : Nat) : Balanced cfg (dupMin cfg s fd min) none := by
  fun_cases dupMin cfg s fd min with
  | case2 e used asked =>
    obtain ⟨within, there⟩ := getFdEntry_eq_some used
    rw [(balanced.own fd e within there (Bool.and_eq_true_iff.mp asked).1).1]
    exact balanced_dupPlace balanced _ _
  | _ => exact balanced

theorem balanced_dup (fd : Nat) : Balanced cfg (dup cfg s fd) none := by
  fun_cases dup cfg s fd with
  | case2 e used asked =>
    obtain ⟨within, there⟩ := getFdEntry_eq_some used
    rw [(balanced.own fd e within there asked).1]
    exact balanced_dupPlace balanced _ _
  | _ => exact balanced

theorem balanced_dupOnto (key newfd : Nat) :
    Balanced cfg (dupOnto cfg s cfg.rootVfs key newfd) none := by
  have placed := balanced_dupPlace balanced key newfd
  unfold dupOnto
  generalize dupPlace cfg s cfg.rootVfs key newfd = result at placed ⊢
  obtain ⟨u, given⟩ := result
  cases given with
  | none => exact placed
  | some nfd =>
    dsimp only at placed ⊢
    split
    · exact placed
    · exact balanced_idfClose placed nfd

theorem balanced_dup2 (pid : Option Nat) (oldfd newfd : Nat) :
    Balanced cfg (dup2 cfg s pid oldfd newfd) none := by
  have root : ∀ e, getFdEntry cfg s oldfd = some e →
      ¬(!fdOurs e.localFd || decide (cfg.maxFds ≤ newfd)) = true → e.vfs = cfg.rootVfs := by
    intro e used asked
    obtain ⟨within, there⟩ := getFdEntry_eq_some used
    exact (balanced.own oldfd e within there (by simp_all)).1
  fun_cases dup2 cfg s pid oldfd newfd with
  | case4 e used asked =>
    rw [root e used asked]
    exact balanced_dupOnto balanced _ _
  | case5 e used asked =>
    rw [root e used asked]
    exact balanced_dupOnto (balanced_idfClose balanced newfd) _ _
  | _ => exact balanced

end

theorem keepOpened_table (env : Env) (s : State) (p : Path) (flags : OpenFlags) (mode i fd : Nat) :
    (keepOpened env s p flags mode i fd).1.table = s.table := by
  unfold keepOpened
  split
  · exact call_table s i .close (.fd fd)
  · split
    · exact call_table s i .close (.fd fd)
    · rename_i key w found
      obtain ⟨_, _, rfl⟩ := fdSlotAlloc_spec found
      split
      · exact (notes_fsClaim env _ p mode).table
      · rfl

theorem vfsOpen_table (t : Trees) (env : Env) (s : State) (path : Path) (flags : OpenFlags)
    (mode : Nat)
    (answer : OpenAnswer) : (vfsOpen t env s path flags mode answer).1.table = s.table := by
  fun_cases vfsOpen t env s path flags mode answer with
  | case5 p =>
    unfold openBelow
    dsimp only
    split
    · cases answer.lower with
      | none => exact call_table _ _ .open _
      | some fd => exact (keepOpened_table env _ _ flags mode _ fd).trans (call_table _ _ .open _)
    · rfl
  | _ => rfl

theorem balanced_idfOpen (sound : Sound s) (balanced : Balanced cfg s none) (t : Trees) (env : Env)
    (path : Path) (flags : OpenFlags) (mode : Nat) (answer : OpenAnswer) :
    Balanced cfg (idfOpen cfg t env s path flags mode answer) none := by
  have opens := vfsOpen_spec sound t env path flags mode answer
  have table := vfsOpen_table t env s path flags mode answer
  unfold idfOpen
  generalize vfsOpen t env s path flags mode answer = result at opens table ⊢
  obtain ⟨u, given⟩ := result
  dsimp only at opens table ⊢
  cases opens.2 with
  | nothing same => exact balanced.of_same same table
  | tree key other same =>
    have still := balanced.of_same same table
    dsimp only
    split
    · rw [vfsClose_other other]
      exact still
    · rename_i fd w taken
      obtain ⟨_, free, rfl⟩ := registerFd_spec taken
      exact still.other (by rw [free]; rfl) (by simpa using other)
  | file key slot ours free one taken =>
    have unheld := (balanced.free key ours free).1
    have held : Balanced cfg (setFd s key (some slot)) (some key) := by
      refine balanced.setFd ours ?_ ?_ (fun impossible => by cases impossible)
      · intro other apart
        simpa using Ne.symm apart
      · intro now same
        cases same
        simp [one, unheld]
    have still := held.of_same (u := u) taken table
    dsimp only
    split
    · exact still.closed ours
    · rename_i fd w placed
      obtain ⟨within, empty, rfl⟩ := registerFd_spec placed
      exact still.given within empty

end Operations

section Quiet

variable {cfg : Config} {t : Trees} {s u : State}

def Still (s u : State) : Prop := u.fds = s.fds ∧ u.table = s.table

theorem still_call (s : State) (i : Nat) (cb : Callback) (arg : Arg) : Still s (call s i cb arg) :=
  ⟨call_fds s i cb arg, call_table s i cb arg⟩

theorem still_callDir (s : State) (i : Nat) (cb : Callback) (d : Nat) :
    Still s (callDir s i cb d) := by
  unfold callDir
  split
  · exact ⟨rfl, rfl⟩
  · split <;> exact ⟨rfl, rfl⟩

theorem still_dirMapSet (s : State) (d i : Nat) : Still s (dirMapSet s d i) := by
  unfold dirMapSet
  split <;> exact ⟨rfl, rfl⟩

theorem still_vfsOpendir (env : Env) (s : State) (path : Path) (answer : Option Nat) :
    Still s (vfsOpendir t env s path answer).1 := by
  have below := fun notes i arg => still_call (s.note notes) i .opendir arg
  fun_cases vfsOpendir t env s path answer with
  | case3 => exact below _ _ _
  | case4 _ _ _ _ _ _ _ d =>
    exact ⟨(still_dirMapSet _ d _).1.trans (below _ _ _).1,
      (still_dirMapSet _ d _).2.trans (below _ _ _).2⟩
  | _ => exact ⟨rfl, rfl⟩

theorem still_vfsClosedir (s : State) (d : Nat) : Still s (vfsClosedir s d) := by
  fun_cases vfsClosedir s d with
  | case1 => exact ⟨rfl, rfl⟩
  | case2 i =>
    have below := still_callDir s i .closedir d
    unfold dirMapClear
    split <;> exact below

theorem still_remount {u : State} (remount : Remount s u) : Still s u := by
  cases remount <;> exact ⟨rfl, rfl⟩

end Quiet

variable {seen : List Nat} {pid : Nat}

section Teardown

variable {cfg : Config} {s : State}

theorem idfClose_frees (balanced : Balanced cfg s none) {fd key : Nat} (ours : fdOurs key = true)
    (carries : (getFdEntry cfg s fd).any (·.localFd == key) = true) :
    (idfClose cfg s fd).table = Function.update s.table fd none ∧
      ∀ other, other ≠ key → (idfClose cfg s fd).fds other = s.fds other := by
  cases used : getFdEntry cfg s fd with
  | none => simp [used] at carries
  | some e =>
    have same : e.localFd = key := by simpa [used] using carries
    rw [idfClose_ours balanced used (same ▸ ours), same]
    exact vfsClose_frame (setEntry s fd none) key

structure Swept (cfg : Config) (s u : State) (key : Nat) (seen : List Nat) : Prop where
  balanced : Balanced cfg u none
  gone : ∀ fd ∈ seen, (getFdEntry cfg u fd).any (·.localFd == key) = false
  others : ∀ other, other ≠ key → u.fds other = s.fds other

theorem swept_turn {u : State} {key : Nat} (ours : fdOurs key = true)
    (swept : Swept cfg s u key seen) (fd : Nat) :
    Swept cfg s (if (getFdEntry cfg u fd).any (·.localFd == key) then idfClose cfg u fd else u) key
      (seen ++ [fd]) := by
  split
  · rename_i carries
    obtain ⟨table, kept⟩ := idfClose_frees swept.balanced ours carries
    have entry : ∀ place, getFdEntry cfg (idfClose cfg u fd) place =
        if place = fd then none else getFdEntry cfg u place := by
      intro place
      simp only [getFdEntry, cfg.entry_eq, table, update_apply]
      split <;> split <;> rfl
    refine ⟨balanced_idfClose swept.balanced fd, ?_, ?_⟩
    · intro place member
      rw [entry]
      split
      · rfl
      · rename_i apart
        exact swept.gone place (by simpa [apart] using member)
    · intro other apart
      rw [kept other apart, swept.others other apart]
  · rename_i spared
    refine ⟨swept.balanced, ?_, swept.others⟩
    intro place member
    rcases List.mem_append.mp member with earlier | last
    · exact swept.gone place earlier
    · rw [List.mem_singleton.mp last]
      simpa using spared

theorem swept_foldl {u : State} {key : Nat} (ours : fdOurs key = true)
    (swept : Swept cfg s u key seen) (places : List Nat) :
    Swept cfg s (places.foldl (fun s fd =>
      if (getFdEntry cfg s fd).any (·.localFd == key) then idfClose cfg s fd else s) u) key
      (seen ++ places) := by
  induction places generalizing u seen with
  | nil => simpa using swept
  | cons fd places ih => simpa using ih (swept_turn ours swept fd)

theorem closeKey_spec (balanced : Balanced cfg s none) {key : Nat} (ours : fdOurs key = true) :
    Balanced cfg (closeKey cfg s key) none ∧ (closeKey cfg s key).fds key = none ∧
      ∀ other, other ≠ key → (closeKey cfg s key).fds other = s.fds other := by
  have start : Swept cfg s s key [] := ⟨balanced, by simp, fun _ _ => rfl⟩
  have swept := swept_foldl ours start (List.range cfg.maxFds)
  rw [← closeKey, List.nil_append] at swept
  refine ⟨swept.balanced, ?_, swept.others⟩
  have nobody : carriers cfg (closeKey cfg s key) key = 0 := by
    refine tally_eq_zero.mpr fun fd within => ?_
    have gone := swept.gone fd (List.mem_range.mpr within)
    simpa [getFdEntry, cfg.entry_eq, within] using gone
  cases used : (closeKey cfg s key).fds key with
  | none => rfl
  | some slot =>
    have counted := swept.balanced.refs key slot used
    simp [nobody] at counted
    omega

structure Emptied (cfg : Config) (u : State) (pid : Nat) (seen : List Nat) : Prop where
  balanced : Balanced cfg u none
  gone : ∀ key ∈ seen, (u.fds key).any (·.owner == some pid) = false

theorem emptied_turn {u : State} {key : Nat} (ours : fdOurs key = true)
    (emptied : Emptied cfg u pid seen) :
    Emptied cfg (if (u.fds key).any (·.owner == some pid) then closeKey cfg u key else u) pid
      (seen ++ [key]) := by
  split
  · obtain ⟨balanced, free, others⟩ := closeKey_spec emptied.balanced ours
    refine ⟨balanced, ?_⟩
    intro other member
    by_cases here : other = key
    · rw [here, free]
      rfl
    · rw [others other here]
      exact emptied.gone other (by simpa [here] using member)
  · rename_i spared
    refine ⟨emptied.balanced, ?_⟩
    intro other member
    rcases List.mem_append.mp member with earlier | last
    · exact emptied.gone other earlier
    · rw [List.mem_singleton.mp last]
      simpa using spared

theorem emptied_foldl {u : State} (emptied : Emptied cfg u pid seen)
    (places : List Nat) (ours : ∀ key ∈ places, fdOurs key = true) :
    Emptied cfg (places.foldl (fun s key =>
      if (s.fds key).any (·.owner == some pid) then closeKey cfg s key else s) u) pid
      (seen ++ places) := by
  induction places generalizing u seen with
  | nil => simpa using emptied
  | cons key places ih =>
    obtain ⟨here, later⟩ := List.forall_mem_cons.mp ours
    simpa using ih (emptied_turn here emptied) later

theorem fdOurs_iff {key : Nat} : fdOurs key = true ↔ key ∈ List.range' fdBase fdMax := by
  rw [List.mem_range'_1, fdOurs, Bool.and_eq_true, decide_eq_true_eq, decide_eq_true_eq]

theorem fdsCloseOwned_spec (balanced : Balanced cfg s none) (pid : Nat) :
    Balanced cfg (fdsCloseOwned cfg s pid) none ∧
      ∀ key slot, (fdsCloseOwned cfg s pid).fds key = some slot → slot.owner ≠ some pid := by
  have start : Emptied cfg s pid [] := ⟨balanced, by simp⟩
  have emptied := emptied_foldl start (List.range' fdBase fdMax) fun key => fdOurs_iff.mpr
  rw [← fdsCloseOwned, List.nil_append] at emptied
  refine ⟨emptied.balanced, fun key slot used owned => ?_⟩
  have gone := emptied.gone key (fdOurs_iff.mp (emptied.balanced.ours key slot used))
  simp [used, owned] at gone

end Teardown

section Runs

variable {cfg : Config} {t : Trees} {s u : State}

theorem balanced_still (balanced : Balanced cfg s none) (still : Still s u) : Balanced cfg u none :=
  balanced.of_same still.1 still.2

theorem balanced_notes (balanced : Balanced cfg s none) (notes : Notes s u) : Balanced cfg u none :=
  balanced.of_same notes.fds notes.table

theorem balanced_step (sound : Sound s) (balanced : Balanced cfg s none) {e : Event}
    (next : step cfg t s e = some u) : Balanced cfg u none := by
  have remount := remount_step next
  cases e with try cases next
  | path env call =>
    cases call with
    | «open» path flags mode answer =>
        exact balanced_idfOpen sound balanced t env path flags mode answer
    | unlink path | rmdir path | truncate path =>
      exact balanced_notes balanced (notes_onName sound env _ _ (by decide) (by decide) path)
    | rename src dst => exact balanced_notes balanced (notes_vfsRename sound t env src dst)
    | mkdir path mode made =>
        exact balanced_notes balanced (notes_vfsMkdir sound env path mode made)
    | utime path => exact balanced_notes balanced (notes_vfsUtime sound t env path)
    | stat path => exact balanced_notes balanced (notes_vfsStat sound t env path)
    | opendir path answer => exact balanced_still balanced (still_vfsOpendir env s path answer)
  | onFd fd call => exact balanced_notes balanced (notes_onFd cfg sound fd call)
  | close fd => exact balanced_idfClose balanced fd
  | dup fd => exact balanced_dup balanced fd
  | dupMin fd min => exact balanced_dupMin balanced fd min
  | dup2 pid oldfd newfd => exact balanced_dup2 balanced pid oldfd newfd
  | teardown pid => exact (fdsCloseOwned_spec balanced pid).1
  | onDir d call => exact balanced_notes balanced (notes_onDir sound d call)
  | closedir d => exact balanced_still balanced (still_vfsClosedir s d)
  | addMount | delMount | mountDead => exact balanced_still balanced (still_remount (remount rfl))
  | foreign fd entry =>
    obtain ⟨before, after, rfl⟩ := step_foreign next
    exact balanced.other before after

/-- The descriptors that other components hold when the root is registered carry no keys. -/
def Keyless (table : Nat → Option Entry) : Prop :=
  ∀ fd e, table fd = some e → fdOurs e.localFd = false

theorem keyless_none : Keyless fun _ => none := fun _ _ used => nomatch used

theorem balanced_boot {table : Nat → Option Entry} (keyless : Keyless table)
    (has : Callback → Bool) :
    Balanced cfg (boot has table) none where
  ours key slot used := by cases used
  refs key slot used := by cases used
  free key ours _ := by
    refine ⟨tally_eq_zero.mpr fun fd _ => any_key_false ?_ ours, by simp⟩
    change (table fd).any _ = false
    cases used : table fd with
    | none => rfl
    | some e => exact keyless fd e used
  own fd e _ used ours := by
    rw [keyless fd e used] at ours
    cases ours

theorem balanced_run {has : Callback → Bool} {table : Nat → Option Entry} {es : List Event}
    (keyless : Keyless table) (reached : run (step cfg t) (boot has table) es = some s) :
    Balanced cfg s none := by
  have both : Sound s ∧ Balanced cfg s none := by
    refine run_invariant (P := fun s => Sound s ∧ Balanced cfg s none) ?_ reached
      ⟨sound_boot has table, balanced_boot keyless has⟩
    intro s e u kept next
    exact ⟨sound_step kept.1 next, balanced_step kept.1 kept.2 next⟩
  exact both.2

def carried (cfg : Config) (s : State) (i f : Nat) : Nat :=
  (List.range fdPlaces).countP fun key =>
    ((s.fds key).any fun slot => slot.mount == i && slot.lowerFd == f) &&
      decide (0 < carriers cfg s key)

/-- Each slot counts the descriptors that carry its key and is there as long as there is one. A
file that was opened below is closed or still carried. -/
structure Shared (cfg : Config) (s : State) : Prop where
  refs : ∀ key slot, s.fds key = some slot → slot.refs = carriers cfg s key
  used : ∀ key, fdOurs key = true → ((s.fds key).isSome ↔ 0 < carriers cfg s key)
  closes : ∀ i m f, s.mounts i = some m → m.dead = false → m.has .close = true →
    opened s.log m.id f = closed s.log m.id f + carried cfg s i f

theorem shared_of_balanced (sound : Sound s) (balanced : Balanced cfg s none) : Shared cfg s := by
  have counted : ∀ key slot, s.fds key = some slot → slot.refs = carriers cfg s key ∧
      0 < slot.refs := by
    intro key slot held
    simpa using balanced.refs key slot held
  refine ⟨fun key slot held => (counted key slot held).1, ?_, ?_⟩
  · intro key ours
    cases held : s.fds key with
    | none =>
      have nobody := (balanced.free key ours held).1
      simp [nobody]
    | some slot =>
      have count := counted key slot held
      simp
      omega
  · intro i m f mounted alive has
    rw [sound.books i m f mounted alive has]
    congr 1
    refine List.countP_congr fun key _ => ?_
    cases held : s.fds key with
    | none => simp
    | some slot =>
      have count := counted key slot held
      have positive : 0 < carriers cfg s key := by omega
      simp [positive]

/-- Whatever is opened, duplicated, closed and torn down, and whatever is mounted meanwhile. -/
theorem descriptors_share_files (has : Callback → Bool) {table : Nat → Option Entry}
    (es : List Event)
    (keyless : Keyless table) (reached : run (step cfg t) (boot has table) es = some s) :
    Shared cfg s ∧ ∀ pid u, step cfg t s (.teardown pid) = some u →
      ∀ key slot, u.fds key = some slot → slot.owner ≠ some pid := by
  have balanced := balanced_run keyless reached
  refine ⟨shared_of_balanced (sound_run reached) balanced, ?_⟩
  intro pid u next
  cases next
  exact (fdsCloseOwned_spec balanced pid).2

/-- A file of process 7 is opened and duplicated, and the first descriptor is closed: the second
carries the key, and the file is closed with it. -/
theorem second_descriptor_keeps_the_file :
    ∃ s, run (step (lowest 4 0) noTrees) (boot (fun _ => true) fun _ => none)
        [.path opener (.open "/a".toList ⟨true, true, false, false, false⟩ 0 ⟨some 3, none⟩),
          .dup 0, .close 0] =
          some s ∧
      (carriers (lowest 4 0) s 128 = 1 ∧ opened s.log 0 3 = 1 ∧ closed s.log 0 3 = 0 ∧
        closed (idfClose (lowest 4 0) s 1).log 0 3 = 1) ∧
      Shared (lowest 4 0) s ∧ ∀ pid u, step (lowest 4 0) noTrees s (.teardown pid) = some u →
        ∀ key slot, u.fds key = some slot → slot.owner ≠ some pid :=
  ⟨_, rfl, by decide +kernel, descriptors_share_files (fun _ => true)
    [.path opener (.open "/a".toList ⟨true, true, false, false, false⟩ 0 ⟨some 3, none⟩),
      .dup 0, .close 0]
    keyless_none rfl⟩

end Runs

end Espix.Fs.Descriptors
