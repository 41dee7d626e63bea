import Espix.Fs.Effects

/-! The descriptors of ESP-IDF over the keys of the root VFS.

A number above a floor is reached by holding every free number below it. What is left of that
is one entry for the key. -/

namespace Espix.Fs.Placing

open Function Access Effects Vfs

variable {fd : Nat} {held : List Nat}

section Placing

variable {cfg : Config} {vfs : Nat} {s u : State}

theorem registerFd_spec {localFd : Nat} (taken : registerFd cfg s vfs localFd = some (fd, u)) :
    fd < cfg.maxFds ∧ s.table fd = none ∧ u = setEntry s fd (some ⟨vfs, localFd, false⟩) := by
  obtain ⟨free, first, given⟩ := Option.map_eq_some_iff.mp taken
  obtain ⟨rfl, rfl⟩ := Prod.mk.inj given
  exact ⟨(cfg.register_free first).1, (cfg.register_free first).2, rfl⟩

theorem unregisterFd_eq (passing : (s.table fd).any (·.permanent) = false) :
    unregisterFd cfg s fd = setEntry s fd none := by
  rw [unregisterFd, cfg.unregister_passing passing]
  rfl

theorem setEntry_none (free : s.table fd = none) (e : Option Entry) :
    setEntry (setEntry s fd e) fd none = s := by
  simp only [setEntry, update_idem, ← free, update_eq_self]

structure Holding (s u : State) (held : List Nat) : Prop where
  only : u = { s with table := u.table }
  taken : ∀ fd ∈ held, s.table fd = none ∧ ∃ e, u.table fd = some e ∧ e.permanent = false
  rest : ∀ fd, fd ∉ held → u.table fd = s.table fd

theorem Holding.refl (s : State) : Holding s s [] where
  only := rfl
  taken := by simp
  rest _ _ := rfl

theorem Holding.outside (holding : Holding s u held) (free : u.table fd = none) : fd ∉ held := by
  intro inside
  obtain ⟨-, e, there, -⟩ := holding.taken fd inside
  rw [free] at there
  cases there

theorem Holding.next (holding : Holding s u held) (free : u.table fd = none) {e : Entry}
    (passing : e.permanent = false) : Holding s (setEntry u fd (some e)) (held ++ [fd]) where
  only := by
    conv_lhs => rw [holding.only]
    rfl
  taken other member := by
    by_cases last : other = fd
    · subst last
      exact ⟨by rw [← holding.rest other (holding.outside free), free], e, by simp [setEntry],
        passing⟩
    · have inside : other ∈ held := by simpa [last] using member
      exact ⟨(holding.taken other inside).1, by
        simpa [setEntry, last] using (holding.taken other inside).2⟩
  rest other outside := by
    have apart : other ∉ held ∧ other ≠ fd := by simpa using outside
    change update u.table fd (some e) other = s.table other
    rw [update_of_ne apart.2, holding.rest other apart.1]

theorem holdBelow_holding (cfg : Config) (vfs min turns : Nat) (holding : Holding s u held) :
    Holding s (holdBelow cfg vfs min turns u held).1 (holdBelow cfg vfs min turns u held).2 := by
  induction turns generalizing u held with
  | zero => exact holding
  | succ turns ih =>
    unfold holdBelow
    split
    · exact holding
    · rename_i fd w taken
      obtain ⟨_, free, rfl⟩ := registerFd_spec taken
      split
      · rw [unregisterFd_eq (by simp [setEntry]), setEntry_none free]
        exact holding
      · exact ih (holding.next free rfl)

theorem foldl_unregisterFd {held : List Nat} {u : State}
    (passing : ∀ fd ∈ held, (u.table fd).any (·.permanent) = false) :
    held.foldl (unregisterFd cfg) u =
      { u with table := fun fd => if fd ∈ held then none else u.table fd } := by
  induction held generalizing u with
  | nil => simp
  | cons fd held ih =>
    obtain ⟨here, later⟩ := List.forall_mem_cons.mp passing
    rw [List.foldl_cons, unregisterFd_eq here, ih fun other member => ?_, setEntry]
    swap
    · by_cases same : other = fd <;> simp [setEntry, same, later other member]
    congr 1
    funext other
    by_cases here : other = fd <;> by_cases later : other ∈ held <;> simp [here, later]

theorem Holding.passing (holding : Holding s u held) :
    ∀ fd ∈ held, (u.table fd).any (·.permanent) = false := by
  intro fd inside
  obtain ⟨-, e, there, passing⟩ := holding.taken fd inside
  rw [there]
  exact passing

theorem Holding.released (cfg : Config) (holding : Holding s u held) :
    held.foldl (unregisterFd cfg) u = s := by
  have back : (fun fd => if fd ∈ held then none else u.table fd) = s.table := by
    funext fd
    split
    · rename_i inside
      exact (holding.taken fd inside).1.symm
    · rename_i outside
      exact holding.rest fd outside
  rw [foldl_unregisterFd holding.passing, back, holding.only]

theorem Holding.placed (holding : Holding s u held) (free : u.table fd = none) (e : Entry) :
    s.table fd = none ∧
      held.foldl (unregisterFd cfg) (setEntry u fd (some e)) = setEntry s fd (some e) := by
  have outside := holding.outside free
  refine ⟨by rw [← holding.rest fd outside, free], ?_⟩
  conv_rhs => rw [← holding.released cfg]
  rw [foldl_unregisterFd holding.passing, foldl_unregisterFd fun other inside => ?_, setEntry,
    setEntry]
  swap
  · have apart : other ≠ fd := fun same => outside (same ▸ inside)
    simpa [setEntry, apart] using holding.passing other inside
  congr 1
  funext other
  by_cases here : other = fd
  · simp [here, outside]
  · simp [here]

theorem dupPlace_spec (cfg : Config) (s : State) (vfs key min : Nat) :
    (∃ slot fd, s.fds key = some slot ∧ fd < cfg.maxFds ∧ s.table fd = none ∧
      dupPlace cfg s vfs key min =
        (setEntry (setFd s key (some { slot with refs := slot.refs + 1 })) fd
          (some ⟨vfs, key, false⟩),
          some fd)) ∨
    dupPlace cfg s vfs key min = (s, none) := by
  unfold dupPlace
  cases used : s.fds key with
  | none => exact .inr rfl
  | some slot =>
    dsimp only
    have holding := holdBelow_holding cfg vfs min cfg.maxFds
      (Holding.refl (setFd s key (some { slot with refs := slot.refs + 1 })))
    generalize holdBelow cfg vfs min cfg.maxFds _ [] = stopped at holding ⊢
    obtain ⟨u, held⟩ := stopped
    dsimp only at holding ⊢
    split
    · right
      rw [holding.released cfg]
      simp [setFd, ← used]
    · rename_i fd w taken
      obtain ⟨within, free, rfl⟩ := registerFd_spec taken
      obtain ⟨before, placed⟩ := holding.placed free ⟨vfs, key, false⟩
      exact .inl ⟨slot, fd, rfl, within, before, by rw [placed]⟩

end Placing

section Descriptors

variable (cfg : Config) {s : State}

theorem acts_dupPlace (s : State) (vfs key min : Nat) : Acts s (dupPlace cfg s vfs key min).1 := by
  rcases dupPlace_spec cfg s vfs key min with ⟨slot, fd, used, _, _, placed⟩ | same
  · rw [placed]
    exact (acts_refs used).trans (acts_table _ _)
  · rw [same]
    exact Acts.refl s

theorem acts_idfClose (sound : Sound s) (fd : Nat) : Acts s (idfClose cfg s fd) := by
  unfold idfClose
  split
  · exact Acts.refl s
  · rename_i e _
    have below : Acts s (if e.vfs = cfg.rootVfs then vfsClose s e.localFd else s) := by
      split
      · exact acts_vfsClose sound e.localFd
      · exact Acts.refl s
    dsimp only
    split
    · exact below
    · exact below.trans (acts_table _ _)

theorem acts_idfOpen (sound : Sound s) (t : Trees) (env : Env) (path : Path) (flags : OpenFlags)
    (mode : Nat) (answer : OpenAnswer) : Acts s (idfOpen cfg t env s path flags mode answer) := by
  have opens := (vfsOpen_spec sound t env path flags mode answer).1
  unfold idfOpen
  generalize vfsOpen t env s path flags mode answer = result at opens ⊢
  obtain ⟨u, given⟩ := result
  cases given with
  | none => exact opens
  | some key =>
    dsimp only at opens ⊢
    split
    · exact opens.trans (acts_vfsClose (sound.acts opens) key)
    · rename_i fd w taken
      obtain ⟨_, _, rfl⟩ := registerFd_spec taken
      exact opens.trans (acts_table u _)

theorem acts_dup (s : State) (fd : Nat) : Acts s (dup cfg s fd) := by
  fun_cases dup cfg s fd with
  | case2 e => exact acts_dupPlace cfg s _ _ 0
  | _ => exact Acts.refl s

theorem acts_dupMin (s : State) (fd min : Nat) : Acts s (dupMin cfg s fd min) := by
  fun_cases dupMin cfg s fd min with
  | case2 e => exact acts_dupPlace cfg s _ _ min
  | _ => exact Acts.refl s

theorem acts_dupOnto (sound : Sound s) (vfs key newfd : Nat) :
    Acts s (dupOnto cfg s vfs key newfd) := by
  have placed := acts_dupPlace cfg s vfs key newfd
  unfold dupOnto
  generalize dupPlace cfg s vfs key newfd = result at placed ⊢
  obtain ⟨u, given⟩ := result
  cases given with
  | none => exact placed
  | some nfd =>
    dsimp only at placed ⊢
    split
    · exact placed
    · exact placed.trans (acts_idfClose cfg (sound.acts placed) nfd)

theorem acts_dup2 (sound : Sound s) (pid : Option Nat) (oldfd newfd : Nat) :
    Acts s (dup2 cfg s pid oldfd newfd) := by
  fun_cases dup2 cfg s pid oldfd newfd with
  | case4 => exact acts_dupOnto cfg sound _ _ newfd
  | case5 =>
    have closed := acts_idfClose cfg sound newfd
    exact closed.trans (acts_dupOnto cfg (sound.acts closed) _ _ newfd)
  | _ => exact Acts.refl s

theorem acts_foldl {turn : State → Nat → State} (each : ∀ u n, Sound u → Acts u (turn u n))
    (sound : Sound s) (places : List Nat) : Acts s (places.foldl turn s) := by
  induction places generalizing s with
  | nil => exact Acts.refl s
  | cons n places ih =>
    have first := each s n sound
    exact first.trans (ih (sound.acts first))

theorem acts_closeKey (sound : Sound s) (key : Nat) : Acts s (closeKey cfg s key) := by
  refine acts_foldl (fun u fd sound => ?_) sound _
  split
  · exact acts_idfClose cfg sound fd
  · exact Acts.refl u

theorem acts_fdsCloseOwned (sound : Sound s) (pid : Nat) : Acts s (fdsCloseOwned cfg s pid) := by
  refine acts_foldl (fun u key sound => ?_) sound _
  split
  · exact acts_closeKey cfg sound key
  · exact Acts.refl u

theorem notes_onFd (sound : Sound s) (fd : Nat) (op : FdCall) :
    Notes s (onFd cfg s fd op.callback) := by
  fun_cases onFd cfg s fd op.callback with
  | case2 e =>
    fun_cases onKey s e.localFd op.callback with
    | case3 _ slot used =>
      exact notes_call (sound.slots _ slot used).2 op.callback (by cases op <;> decide)
        (by cases op <;> decide) _
    | _ => exact Notes.refl s
  | _ => exact Notes.refl s

end Descriptors

end Espix.Fs.Placing
