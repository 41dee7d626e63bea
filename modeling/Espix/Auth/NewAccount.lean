import Espix.Auth.Users

/-! What a new account starts with, and what is left when it is deleted again.

Both files are rewritten from what was read of them, so the records that are there afterwards
are the ones that survive a rewriting, with the new one and without it. -/

namespace Espix.Auth.NewAccount

open Lib.CText Lib.CWrite Lib.PathText Accounts Store Sudo Users

variable {io : Io} {files after : Files} {name user : List Char}
    {system removeHome : Bool} {uid : Nat}

section Members

variable {g : Group}

theorem parts_sub {members part : List Char} (member : part ∈ parts members) :
    part ∈ members.splitOn ',' := by
  simp only [parts] at member
  split at member
  · exact List.dropLast_subset _ member
  · exact member

theorem foldl_keep_apart {segs : List (List Char)} (plain : ∀ part ∈ segs, ',' ∉ part)
    (some_name : user ≠ []) :
    user ∉ (segs.foldl (keep user) []).splitOn ',' := by
  refine List.foldlRecOn (motive := (user ∉ ·.splitOn ',')) segs (keep user)
    (by rwa [List.splitOn_nil, List.mem_singleton]) fun out apart part member => ?_
  fun_cases keep user out part with
  | case1 => exact apart
  | case2 other =>
    split
    · rename_i nothing
      rw [nothing, List.nil_append, List.splitOn_eq_singleton (plain part member),
        List.mem_singleton]
      exact Ne.symm other
    · rw [List.splitOn_append_cons_self, List.splitOn_eq_singleton (plain part member),
        List.mem_append,
        List.mem_singleton, not_or]
      exact ⟨apart, Ne.symm other⟩

theorem room_keep (user out part : List Char) :
    room (keep user out part) ≤ room out + (part.length + 1) := by
  fun_cases keep user out part with
  | case1 => exact Nat.le_add_right _ _
  | case2 =>
    unfold room
    by_cases nothing : out = []
    · subst nothing
      simp only [List.nil_append, if_true]
      split <;> omega
    · rw [if_neg nothing, if_neg nothing, List.length_append, List.length_cons]
      split <;> omega

theorem sum_parts_le (members : List Char) :
    ((parts members).map fun part => part.length + 1).sum ≤ members.length + 1 := by
  rw [← sum_splitOn members ',']
  simp only [parts]
  split
  · exact ((List.dropLast_sublist _).map _).sum_le_sum fun _ _ => Nat.zero_le _
  · exact Nat.le_refl _

theorem length_rebuilt_le (user members : List Char) :
    ((parts members).foldl (keep user) []).length ≤ members.length := by
  have bound := room_foldl (room_keep user) (parts members) []
  have sum := sum_parts_le members
  unfold room at bound
  split at bound
  · rename_i nothing
    rw [nothing]
    exact Nat.zero_le _
  · simp only [if_true] at bound
    omega

theorem mem_rebuilt {segs : List (List Char)} :
    ∀ c ∈ segs.foldl (keep user) [], c = ',' ∨ ∃ part ∈ segs, c ∈ part := by
  refine List.foldlRecOn (motive := (∀ c ∈ ·, c = ',' ∨ ∃ part ∈ segs, c ∈ part)) segs
    (keep user) nofun
    fun out known part member c => ?_
  fun_cases keep user out part with
  | case1 => exact known c
  | case2 =>
    intro inside
    rcases List.mem_append.mp inside with before | behind
    · exact known c before
    · split at behind
      · exact .inr ⟨part, member, behind⟩
      · exact (List.mem_cons.mp behind).imp id fun inside => ⟨part, member, inside⟩

theorem stored_strip (stored : StoredGroup g) (user : List Char) : StoredGroup (strip user g) := by
  unfold strip
  split
  · refine ⟨stored.name, stored.gid, ?_, ?_⟩
    · simp only [strlcpy, List.length_take, membersMax, maxAccounts, userMax]
      omega
    · intro c member
      rcases mem_rebuilt c (List.mem_of_mem_take member) with rfl | ⟨part, there, inside⟩
      · decide
      · obtain ⟨before, behind, whole, -⟩ := exists_of_mem_splitOn (parts_sub there)
        apply stored.inside c
        rw [whole]
        simp [inside]
  · exact stored

theorem strip_apart (stored : StoredGroup g) (some_name : user ≠ []) :
    memberOf (strip user g).members user = false := by
  have apart {members : List Char} (outside : user ∉ members.splitOn ',') :
      memberOf members user = false := by
    rw [show memberOf members user = (parts members).any (· == user) from rfl, List.any_eq_false]
    intro part member same
    rw [beq_iff_eq] at same
    exact outside (same ▸ parts_sub member)
  unfold strip
  split
  · apply apart
    have short := Nat.lt_of_le_of_lt (length_rebuilt_le user g.members) stored.short
    rw [strlcpy_short short]
    exact foldl_keep_apart (fun _ member => sep_notMem_of_mem_splitOn (parts_sub member)) some_name
  · rename_i outside
    exact Bool.eq_false_iff.mpr outside

theorem strip_same (outside : memberOf g.members user = false) : strip user g = g := by
  rw [strip, outside]
  rfl

end Members

section Added

structure Added (io : Io) (files : Files) (name : List Char) (system : Bool) (uid : Nat)
    (after : Files) : Prop where
  some_name : name ≠ []
  short : name.length < userMax
  fresh : ∀ r ∈ accounts files, r.name ≠ name
  free : taken files uid = false
  range : 100 ≤ uid ∧ uid ≤ 65533
  room : (loadable files).length < maxAccounts
  wrote : after = addPrivateGroup io name uid
    (storeAll (loadable files ++ [newRecord name system uid]) files)

theorem range_of_nextFreeId
    (found : nextFreeId files (idRange system).1 (idRange system).2 = some uid) :
    taken files uid = false ∧ 100 ≤ uid ∧ uid ≤ 65533 := by
  have free : taken files uid = false := by simpa using List.find?_some found
  have member := List.mem_of_find?_eq_some found
  rw [List.mem_range'_1] at member
  refine ⟨free, ?_⟩
  cases system with
  | true =>
    simp only [idRange, if_true] at member
    omega
  | false =>
    simp only [idRange, Bool.false_eq_true, if_false] at member
    omega

theorem added_of_ok (added : userAdd io files name system = .ok after) :
    ∃ uid, Added io files name system uid after := by
  revert added
  fun_cases userAdd io files name system with
  | case1 | case2 | case3 => exact nofun
  | case4 accepted unknown uid found =>
    intro added
    rw [not_or, Nat.not_le] at accepted
    have fresh : ∀ r ∈ accounts files, r.name ≠ name := by
      intro r member same
      rw [findRecord_eq, List.find?_isSome] at unknown
      exact unknown ⟨r, member, by simpa using same⟩
    obtain ⟨free, range⟩ := range_of_nextFreeId found
    have absent : (loadAll files).findIdx? (·.name == (newRecord name system uid).name) = none := by
      rw [List.findIdx?_eq_none_iff]
      intro r member
      have other := fresh r (accounts_of_loadable (List.mem_of_mem_take member))
      rw [newRecord, strlcpy_short accepted.2]
      simpa using other
    simp only [upsert, absent] at added
    split at added
    · cases added
    · rename_i room
      have fewer : (loadable files).length < maxAccounts := by
        rw [loadAll, List.length_take] at room
        omega
      rw [loadAll, List.take_of_length_le fewer.le, stored] at added
      split at added
      · cases added
        exact ⟨uid, accepted.1, accepted.2, fresh, free, range, fewer, rfl⟩
      · cases added

def Private (io : Io) (files : Files) : Prop :=
  (groupsLoad files).length < maxGroups ∧ io.group = true

instance (io : Io) (files : Files) : Decidable (Private io files) :=
  inferInstanceAs (Decidable ((groupsLoad files).length < maxGroups ∧ io.group = true))

def newHome (name : List Char) (system : Bool) : List Char :=
  (if system then ['/'] else "/home/".toList ++ name).takeWhile (!fieldEnd.contains ·)

def account (name : List Char) (system : Bool) (uid : Nat) : Record :=
  { newRecord name system uid with name := name, home := newHome name system }

theorem homePath_length (short : name.length < userMax) (system : Bool) :
    (if system then ['/'] else "/home/".toList ++ name).length < homeMax := by
  have six : "/home/".toList.length = 6 := rfl
  split
  · decide
  · rw [List.length_append, six]
    simp only [userMax, homeMax] at *
    omega

theorem stored_new (fits : Fits name) (system : Bool) (range : uid ≤ 65533) :
    Stored (newRecord name system uid) := by
  have short := homePath_length fits.short system
  have letters : ∀ c ∈ "/home/".toList, c ≠ '\n' ∧ c ≠ '\x00' := by decide
  refine ⟨?_, ?_, ?_, ?_, ⟨Nat.le_trans range (by decide), Nat.le_trans range (by decide)⟩,
    fun _ => ⟨rfl, rfl, rfl⟩, nofun⟩
  · rw [newRecord, strlcpy_short fits.short]
    exact fits
  · rw [newRecord, strlcpy_short short]
    refine ⟨?_, short⟩
    split
    · exact List.cons_ne_nil _ _
    · exact List.cons_ne_nil _ _
  · rw [newRecord, strlcpy_short short]
    intro c first
    have slash : c = '/' := by
      split at first
      · exact (Option.some.inj first).symm
      · exact (Option.some.inj first).symm
    rw [slash]
    decide
  · rw [newRecord, strlcpy_short short]
    intro c member
    split at member
    · rw [List.mem_singleton.mp member]
      decide
    · rcases List.mem_append.mp member with letter | inside
      · exact letters c letter
      · exact (fits.inside c inside).2

theorem reread_new (short : name.length < userMax) (system : Bool) (uid : Nat) :
    reread (newRecord name system uid) = account name system uid := by
  simp only [reread, newRecord, account, newHome, strlcpy_short short,
    strlcpy_short (homePath_length short system)]

theorem stored_private (fits : Fits name) (range : uid ≤ 65533) :
    StoredGroup (privateGroup name uid) := by
  refine ⟨?_, Nat.le_trans range (by decide), Nat.zero_lt_succ _, nofun⟩
  rw [privateGroup, strlcpy_short fits.short]
  exact fits

theorem stored_written (added : Added io files name system uid after) (fits : Fits name) :
    ∀ r ∈ loadable files ++ [newRecord name system uid], Stored r := by
  intro r member
  rcases List.mem_append.mp member with old | new
  · exact (stored_of_accounts (accounts_of_loadable old)).1
  · rw [List.mem_singleton.mp new]
    exact stored_new fits system added.range.2

theorem map_reread {recs : List Record} (old : ∀ r ∈ recs, r ∈ accounts files) :
    recs.map reread = recs := by
  have same : ∀ r ∈ recs, reread r = id r := fun r member => (stored_of_accounts (old r member)).2
  rw [List.map_congr_left same, List.map_id]

theorem written_back (short : name.length < userMax) (P : Option Char → Prop) [DecidablePred P] :
    (((loadable files ++ [newRecord name system uid]).filter fun r =>
      ¬ P r.name.head?).map reread) =
      ((loadable files).filter fun r => ¬ P r.name.head?) ++
        if P name.head? then [] else [account name system uid] := by
  have old : ∀ r ∈ (loadable files).filter fun r => ¬ P r.name.head?, r ∈ accounts files :=
    fun r member => accounts_of_loadable (List.mem_of_mem_filter member)
  have named : (newRecord name system uid).name = name := strlcpy_short short
  rw [List.filter_append, List.map_append, map_reread old, List.filter_singleton, named]
  by_cases comment : P name.head?
  · simp [comment]
  · simp [comment, reread_new short]

theorem groupsLoad_whole (fewer : (groupsLoad files).length < maxGroups) :
    groupsLoad files = groups files := by
  rw [groupsLoad_eq] at fewer ⊢
  apply List.take_of_length_le
  rw [List.length_take] at fewer
  omega

def seen (g : Group) : Bool := decide (¬ Skipped g.name.head?)

section

variable (added : Added io files name system uid after)

include added

theorem passwd_after :
    after.passwd = (storeAll (loadable files ++ [newRecord name system uid]) files).passwd := by
  rw [added.wrote, addPrivateGroup]
  split
  · rfl
  · rfl

theorem accounts_after (fits : Fits name) :
    accounts after = ((loadable files).filter fun r => ¬ Comment r.name.head?) ++
      if Comment name.head? then [] else [account name system uid] := by
  rw [accounts, passwd_after added]
  exact (accounts_storeAll (stored_written added fits) files).trans
    (written_back added.short Comment)

theorem loadable_after (fits : Fits name) :
    loadable after = ((loadable files).filter fun r => ¬ Skipped r.name.head?) ++
      if Skipped name.head? then [] else [account name system uid] := by
  rw [loadable, passwd_after added]
  exact (loadable_storeAll (stored_written added fits) files).trans
    (written_back added.short Skipped)

theorem groups_after (fits : Fits name) (room : Private io files) :
    groups after = (groups files ++ [privateGroup name uid]).filter seen := by
  have stored : ∀ g ∈ groups files ++ [privateGroup name uid], StoredGroup g := by
    intro g member
    rcases List.mem_append.mp member with old | new
    · exact stored_of_groups old
    · rw [List.mem_singleton.mp new]
      exact stored_private fits added.range.2
  have wrote : after = groupsStore (groupsLoad files ++ [privateGroup name uid])
      (storeAll (loadable files ++ [newRecord name system uid]) files) := by
    rw [added.wrote, addPrivateGroup]
    exact if_pos room
  rw [wrote, groupsLoad_whole room.1]
  exact groups_groupsStore stored _

theorem groups_unchanged (full : ¬ Private io files) : groups after = groups files := by
  have wrote : after = storeAll (loadable files ++ [newRecord name system uid]) files := by
    rw [added.wrote, addPrivateGroup]
    exact if_neg full
  rw [wrote]
  rfl

theorem sudoers_after : after.sudoers = files.sudoers := by
  rw [added.wrote, addPrivateGroup]
  split
  · rfl
  · rfl

theorem findRecord_after (fits : Fits name)
    (plain : name.head? ≠ some '#') : findRecord after name = some (account name system uid) := by
  have others : ((loadable files).filter fun r => ¬ Comment r.name.head?).find?
      (·.name == name) = none := by
    rw [List.find?_eq_none]
    intro r member same
    rw [beq_iff_eq] at same
    exact added.fresh r (accounts_of_loadable (List.mem_of_mem_filter member)) same
  rw [findRecord_eq, accounts_after added fits, if_neg (fits.not_comment plain), List.find?_append,
    others]
  simp [account]

theorem fits_of_lookup (found : (lookup after name).isSome = true) : Fits name ∧
    name.head? ≠ some '#' := by
  rw [lookup, Option.isSome_map, findRecord_eq, List.find?_isSome] at found
  obtain ⟨r, member, same⟩ := found
  rw [beq_iff_eq] at same
  have fits : Fits name := same ▸ (stored_of_accounts member).1.name
  refine ⟨fits, ?_⟩
  intro hash
  rw [accounts_after added fits, if_pos (.inl hash), List.append_nil] at member
  have kept := List.of_mem_filter member
  rw [same] at kept
  simp [Comment, hash] at kept

end

end Added

section Deleted

def Reaches (name : List Char) (system removeHome : Bool) (path : List Char) : Prop :=
  removeHome = true ∧ system = false ∧ covers (newHome name system) path = true

instance (name : List Char) (system removeHome : Bool) (path : List Char) :
    Decidable (Reaches name system removeHome path) :=
  inferInstanceAs (Decidable (removeHome = true ∧ system = false ∧
    covers (newHome name system) path = true))

/-- The accounts that are still there when a file was rewritten twice. -/
def survivors (files : Files) : List Record :=
  (loadable files).filter fun r => ¬ Skipped r.name.head?

theorem accounts_survivors (files' : Files) :
    accounts (storeAll (survivors files) files') = survivors files := by
  have old : ∀ r ∈ survivors files, r ∈ accounts files :=
    fun r member => accounts_of_loadable (List.mem_of_mem_filter member)
  have kept : (survivors files).filter (fun r => ¬ Comment r.name.head?) = survivors files := by
    rw [List.filter_eq_self]
    intro r member
    have visible := List.of_mem_filter member
    simp only [decide_eq_true_eq] at visible ⊢
    exact fun comment => visible comment.skipped
  rw [accounts_storeAll fun r member => (stored_of_accounts (old r member)).1, kept, map_reread old]

theorem loaded_without (added : Added io files name system uid after) (fits : Fits name) :
    (loadAll after).filter (·.name != name) = survivors files := by
  have others : (survivors files).filter (·.name != name) = survivors files := by
    rw [List.filter_eq_self]
    intro r member
    simpa using added.fresh r (accounts_of_loadable (List.mem_of_mem_filter member))
  have fewer : (loadable after).length ≤ maxAccounts := by
    have shorter :=
      List.length_filter_le (fun r => decide (¬ Skipped r.name.head?)) (loadable files)
    have room := added.room
    rw [loadable_after added fits, List.length_append]
    split
    · simp only [List.length_nil]
      omega
    · simp only [List.length_singleton]
      omega
  rw [loadAll, List.take_of_length_le fewer, loadable_after added fits, List.filter_append]
  rw [show (loadable files).filter (fun r => ¬ Skipped r.name.head?) =
    survivors files from rfl, others]
  split
  · simp
  · simp [account]

theorem groups_purge (files : Files) :
    groups (membershipPurge ⟨true, true⟩ name files) =
      ((groupsLoad files).map (strip name)).filter seen := by
  apply groups_groupsStore
  intro g member
  obtain ⟨old, inside, rfl⟩ := List.mem_map.mp member
  exact stored_strip (stored_of_groups (List.mem_of_mem_take inside)) name

def withoutGroup (name : List Char) (files : Files) : Files :=
  match groupDel ⟨true, true⟩ name files with
  | .ok files => files
  | .error _ => files

theorem withoutGroup_eq (name : List Char) (files : Files) : withoutGroup name files =
    if (groupsLoad files).any (·.name == name) then
    groupsStore ((groupsLoad files).filter (·.name != name)) files
    else files := by
  cases named : (groupsLoad files).any (·.name == name) <;>
    simp only [withoutGroup, groupDel, named] <;> rfl

theorem groups_withoutGroup (few : (groups files).length ≤ maxGroups)
    (visible : ∀ g ∈ groups files, seen g = true) :
    groups (withoutGroup name files) = (groups files).filter (·.name != name) := by
  have whole : groupsLoad files = groups files := by rw [groupsLoad_eq, List.take_of_length_le few]
  rw [withoutGroup_eq, whole]
  split
  · rw [groups_groupsStore fun g member => stored_of_groups (List.mem_of_mem_filter member)]
    exact List.filter_eq_self.mpr fun g member => visible g (List.mem_of_mem_filter member)
  · rename_i absent
    symm
    rw [List.filter_eq_self]
    intro g member
    by_contra same
    apply absent
    rw [List.any_eq_true]
    exact ⟨g, member, by simpa using same⟩

theorem withoutGroup_passwd (name : List Char) (files : Files) :
    (withoutGroup name files).passwd = files.passwd := by
  rw [withoutGroup_eq]
  split
  · rfl
  · rfl

def leftGroups (name : List Char) (after : Files) : List Group :=
  (((groupsLoad after).map (strip name)).filter seen).filter (·.name != name)

theorem accounts_rmRf (dir : List Char) (files : Files) :
    accounts (rmRf dir files) = if covers dir passwdPath then [] else accounts files := by
  simp only [accounts, rmRf]
  split
  · rfl
  · rfl

theorem groups_rmRf (dir : List Char) (files : Files) :
    groups (rmRf dir files) = if covers dir groupPath then [] else groups files := by
  simp only [groups, rmRf]
  split
  · rfl
  · rfl

theorem home_removed (name : List Char) (system removeHome : Bool) :
    (removeHome && newHome name system != [] && newHome name system != ['/']) =
      (removeHome && !system) := by
  cases system with
  | true =>
    have root : newHome name true = ['/'] := rfl
    rw [root]
    simp
  | false =>
    have start : ∃ rest, newHome name false = '/' :: 'h' :: rest := ⟨_, rfl⟩
    obtain ⟨rest, same⟩ := start
    have longer : ('/' :: 'h' :: rest != []) = true ∧ ('/' :: 'h' :: rest != ['/']) = true := by
      constructor
      · rfl
      · simp [bne_iff_ne]
    rw [same, longer.1, longer.2, Bool.and_true, Bool.and_true, Bool.not_false, Bool.and_true]

theorem read_removed {α : Type} {read : Files → List α} {path : List Char}
    (removed : ∀ dir files, read (rmRf dir files) = if covers dir path then [] else read files)
    (name : List Char) (system removeHome : Bool) (files : Files) :
    read (if removeHome && !system then rmRf (newHome name system) files else files) =
      if Reaches name system removeHome path then [] else read files := by
  split
  · rename_i asked
    have both : removeHome = true ∧ system = false := by simpa using asked
    rw [removed]
    simp only [Reaches, both.1, both.2, true_and]
  · rename_i stays
    have unasked : ¬ Reaches name system removeHome path :=
      fun reaches => stays (by simp [reaches.1, reaches.2.1])
    rw [if_neg unasked]

theorem deleted (added : Added io files name system uid after) (fits : Fits name)
    (plain : name.head? ≠ some '#') (removeHome : Bool) :
    ∃ gone, userDel ⟨true, true⟩ after name removeHome = .ok gone ∧
      accounts gone = (if Reaches name system removeHome passwdPath then [] else survivors files) ∧
      groups gone =
        (if Reaches name system removeHome groupPath then [] else leftGroups name after) := by
  generalize written : storeAll (survivors files) after = f1
  generalize purged : membershipPurge ⟨true, true⟩ name f1 = f2
  have kept : accounts (withoutGroup name f2) = survivors files := by
    have same : (withoutGroup name f2).passwd = f1.passwd := by
      rw [withoutGroup_passwd, ← purged]
      rfl
    rw [accounts, same, ← written]
    exact accounts_survivors after
  have loaded : groups f2 = ((groupsLoad after).map (strip name)).filter seen := by
    rw [← purged, groups_purge, ← written]
    rfl
  have left : groups (withoutGroup name f2) = leftGroups name after := by
    rw [groups_withoutGroup, loaded, leftGroups]
    · have few : ((groupsLoad after).map (strip name)).length ≤ maxGroups := by
        rw [List.length_map, groupsLoad_eq, List.length_take]
        exact Nat.min_le_left _ _
      rw [loaded]
      exact Nat.le_trans (List.length_filter_le _ _) few
    · intro g member
      rw [loaded] at member
      exact List.of_mem_filter member
  have nonzero : (account name system uid).uid ≠ 0 := by
    have range := added.range.1
    show uid ≠ 0
    omega
  refine ⟨if removeHome && !system then rmRf (newHome name system) (withoutGroup name f2)
    else withoutGroup name f2, ?_, ?_, ?_⟩
  · rw [userDel, findRecord_after added fits plain]
    simp only [if_neg nonzero, Users.stored, if_true, loaded_without added fits,
      written, Except.map,
      purged]
    rw [show (account name system uid).home = newHome name system from rfl, home_removed]
    rfl
  · rw [← kept]
    exact read_removed accounts_rmRf name system removeHome _
  · rw [← left]
    exact read_removed groups_rmRf name system removeHome _

end Deleted

/-- The list of who may become root names the account itself. -/
def Named (files : Files) (name : List Char) : Prop := ∃ line ∈ lines files, firstWord line = name

instance (files : Files) (name : List Char) : Decidable (Named files name) :=
  inferInstanceAs (Decidable (∃ line ∈ lines files, firstWord line = name))

def buffers (files : Files) : List (List Char) := fgetsAll lineRoom (files.sudoers.getD [])

/-- A new account starts with nothing, and leaves nothing when it is deleted. -/
structure StartsClean (files after : Files) (name : List Char) (removeHome : Bool) : Prop where
  outside : ∀ g ∈ groups files, inGroup after name g.name = false ∧
    ∀ max, g.gid ∉ authGroups after name max
  no_sudo : maySudo after name = true → Named files name
  own : ∃ u, lookup after name = some u ∧ u.gid = u.uid ∧
    (∀ r ∈ accounts files, r.uid ≠ u.uid ∧ r.gid ≠ u.uid) ∧ ∀ g ∈ groups files, g.gid ≠ u.uid
  undone : ∃ gone, userDel ⟨true, true⟩ after name removeHome = .ok gone ∧
    (∀ r, r ∈ accounts gone ↔ r ∈ accounts files) ∧ ∀ g, g ∈ groups gone ↔ g ∈ groups files

structure Safe (io : Io) (files : Files) (name : List Char) (system removeHome : Bool) : Prop where
  plain : ':' ∉ name ∧ '\n' ∉ name ∧ name.head? ≠ some '#'
  surviving : ∀ r ∈ accounts files, ¬ Skipped r.name.head?
  unrelated : ∀ g ∈ groups files, g ∈ groupsLoad files ∧ seen g = true ∧ g.name ≠ name ∧
    memberOf g.members name = false
  sudoers : (∃ b ∈ buffers files, word b = name ∧ name.head? ≠ some '%' ∨
    word b = '%' :: name ∧ Private io files) → Named files name
  passwd_kept : Reaches name system removeHome passwdPath → accounts files = []
  group_kept : Reaches name system removeHome groupPath → groups files = []

section Clean

def Apart (files : Files) (name : List Char) : Prop :=
  ∀ g ∈ groups files, g.name ≠ name ∧ memberOf g.members name = false

section

variable (added : Added io files name system uid after)

include added

theorem groupsLoad_after (fits : Fits name) (room : Private io files) :
    groupsLoad after = (groups files ++ [privateGroup name uid]).filter seen := by
  have shorter := List.length_filter_le seen (groups files ++ [privateGroup name uid])
  have fewer := room.1
  rw [groupsLoad_whole room.1] at fewer
  rw [List.length_append, List.length_singleton] at shorter
  rw [groupsLoad_eq, groups_after added fits room]
  exact List.take_of_length_le (by omega)

theorem mem_groupsLoad_after (fits : Fits name) {g : Group} (member : g ∈ groupsLoad after) :
    g ∈ groupsLoad files ∨ g = privateGroup name uid ∧ Private io files := by
  by_cases room : Private io files
  · rw [groupsLoad_after added fits room] at member
    rcases List.mem_append.mp (List.mem_of_mem_filter member) with old | new
    · rw [groupsLoad_whole room.1]
      exact .inl old
    · exact .inr ⟨List.mem_singleton.mp new, room⟩
  · rw [groupsLoad_eq, groups_unchanged added room] at member
    exact .inl member

theorem lookup_after (fits : Fits name) (plain : name.head? ≠ some '#') :
    lookup after name = some ⟨name, newHome name system, uid, uid⟩ := by
  have short : (newHome name system).length < homeMax :=
    Nat.lt_of_le_of_lt (List.takeWhile_prefix _).length_le (homePath_length added.short system)
  rw [lookup, findRecord_after added fits plain]
  simp only [Option.map_some, account, strlcpy_short added.short, strlcpy_short short, newRecord]

theorem free_ids :
    (∀ r ∈ loadable files, r.uid ≠ uid ∧ r.gid ≠ uid) ∧ ∀ g ∈ groupsLoad files, g.gid ≠ uid := by
  have free := added.free
  rw [taken, loadAll, List.take_of_length_le added.room.le, Bool.or_eq_false_iff, List.any_eq_false,
    List.any_eq_false] at free
  refine ⟨?_, ?_⟩
  · intro r member
    simpa [not_or] using free.1 r member
  · intro g member
    simpa using free.2 g member

theorem inGroup_after (fits : Fits name)
    (plain : name.head? ≠ some '#') (apart : Apart files name) {group : List Char}
    (inside : inGroup after name group = true) : group = name ∧ Private io files := by
  rw [inGroup, List.any_eq_true] at inside
  obtain ⟨g, member, both⟩ := inside
  rw [Bool.and_eq_true, beq_iff_eq] at both
  obtain ⟨rfl, listed⟩ := both
  rcases mem_groupsLoad_after added fits member with old | ⟨rfl, room⟩
  · have outside := (apart g (List.mem_of_mem_take old)).2
    rw [lookup_after added fits plain, outside, Bool.false_or] at listed
    exact absurd (by simpa using listed) (Ne.symm ((free_ids added).2 g old))
  · exact ⟨strlcpy_short added.short, room⟩

theorem inGroup_own (fits : Fits name)
    (visible : ¬ Skipped name.head?)
    (room : Private io files) : inGroup after name name = true := by
  have plain : name.head? ≠ some '#' := fun hash => visible (.inl hash)
  have named : (privateGroup name uid).name = name := strlcpy_short added.short
  rw [inGroup, List.any_eq_true]
  refine ⟨privateGroup name uid, ?_, ?_⟩
  · rw [groupsLoad_after added fits room, List.mem_filter]
    refine ⟨List.mem_append_right _ (List.mem_singleton_self _), ?_⟩
    rw [seen, named]
    exact decide_eq_true visible
  · rw [named, lookup_after added fits plain]
    simp [privateGroup]

end

theorem authGroups_unlisted {u : User}
    (nobody : ∀ g ∈ groupsLoad files, memberOf g.members name = false)
    (known : lookup files name = some u) (max : Nat) : ∀ gid ∈ authGroups files name max,
    gid = u.gid := by
  have unchanged : ∀ (gs : List Group) (out : List Nat),
    (∀ g ∈ gs, memberOf g.members name = false) →
      gs.foldl (fun out g =>
        if out.length < max ∧ memberOf g.members name = true ∧ g.gid ∉ out then out ++ [g.gid]
        else out) out = out := by
    intro gs out outside
    induction gs with
    | nil => rfl
    | cons g gs ih =>
      obtain ⟨here, later⟩ := List.forall_mem_cons.mp outside
      rw [List.foldl_cons, here, if_neg (by simp)]
      exact ih later
  intro gid member
  rw [authGroups] at member
  split at member
  · cases member
  · rw [unchanged _ _ nobody, known] at member
    simpa using member

theorem authGroups_after (added : Added io files name system uid after) (fits : Fits name)
    (plain : name.head? ≠ some '#') (apart : Apart files name) (max : Nat) :
    ∀ gid ∈ authGroups after name max, gid = uid := by
  have nobody : ∀ g ∈ groupsLoad after, memberOf g.members name = false := by
    intro g member
    rcases mem_groupsLoad_after added fits member with old | ⟨rfl, -⟩
    · exact (apart g (List.mem_of_mem_take old)).2
    · rfl
  exact authGroups_unlisted nobody (lookup_after added fits plain) max

theorem visible_of_word {b : List Char} (inside : word b = '%' :: name) : ¬ Skipped name.head? := by
  have letter {c : Char} (first : name.head? = some c) : wordChar c = true := by
    have member : c ∈ b.takeWhile wordChar := by
      rw [← word_eq, inside]
      exact List.mem_cons_of_mem _ (List.mem_of_mem_head? first)
    exact List.mem_takeWhile_imp member
  rintro (hash | newline | carriage)
  · exact absurd (letter hash) (by decide)
  · exact absurd (letter newline) (by decide)
  · exact absurd (letter carriage) (by decide)

section

variable (added : Added io files name system uid after) (fits : Fits name)

include added fits

theorem found_after (plain : name.head? ≠ some '#') (apart : Apart files name) (b : List Char) :
    found after name b = true ↔
      word b = name ∧ name.head? ≠ some '%' ∨ word b = '%' :: name ∧ Private io files := by
  rw [found, grants.eq_def]
  split
  · rename_i nothing
    simp [nothing, Ne.symm added.some_name]
  · rename_i group percent
    constructor
    · intro inside
      obtain ⟨rfl, room⟩ := inGroup_after added fits plain apart inside
      exact .inr ⟨percent, room⟩
    · rintro (⟨same, other⟩ | ⟨same, room⟩)
      · rw [← same, percent] at other
        exact absurd rfl other
      · obtain rfl : group = name := (List.cons.inj (percent.symm.trans same)).2
        exact inGroup_own added fits (visible_of_word percent) room
  · rename_i some_word no_percent
    constructor
    · intro same
      rw [beq_iff_eq] at same
      refine .inl ⟨same, ?_⟩
      intro percent
      obtain ⟨group, whole⟩ := List.head?_eq_some_iff.mp percent
      exact no_percent group (same.trans whole)
    · rintro (⟨same, -⟩ | ⟨same, -⟩)
      · simpa using same
      · exact absurd same (no_percent name)

theorem maySudo_after (plain : name.head? ≠ some '#') (apart : Apart files name) :
    maySudo after name = true ↔ ∃ b ∈ buffers files, word b = name ∧ name.head? ≠ some '%' ∨
      word b = '%' :: name ∧ Private io files := by
  rw [maySudo, Bool.and_eq_true, List.any_eq_true, sudoers_after added]
  constructor
  · rintro ⟨-, b, member, granted⟩
    exact ⟨b, member, (found_after added fits plain apart b).mp granted⟩
  · rintro ⟨b, member, granted⟩
    exact ⟨by simpa using added.some_name, b, member,
      (found_after added fits plain apart b).mpr granted⟩

theorem groupsLoad_kept {g : Group}
    (member : g ∈ groupsLoad files) (visible : seen g = true) : g ∈ groupsLoad after := by
  by_cases room : Private io files
  · rw [groupsLoad_after added fits room, List.mem_filter]
    exact ⟨List.mem_append_left _ (List.mem_of_mem_take member), visible⟩
  · rw [groupsLoad_eq, groups_unchanged added room]
    exact member

theorem mem_leftGroups {g : Group} :
    g ∈ leftGroups name after ↔
      ∃ old ∈ groupsLoad files, g = strip name old ∧ seen g = true ∧ g.name ≠ name := by
  have same_name (old : Group) : (strip name old).name = old.name := by
    unfold strip
    split
    · rfl
    · rfl
  rw [leftGroups, List.mem_filter, List.mem_filter, List.mem_map, bne_iff_ne]
  constructor
  · rintro ⟨⟨⟨old, member, rfl⟩, visible⟩, other⟩
    rcases mem_groupsLoad_after added fits member with before | ⟨rfl, -⟩
    · exact ⟨old, before, rfl, visible, other⟩
    · rw [same_name] at other
      exact absurd (strlcpy_short added.short) other
  · rintro ⟨old, before, rfl, visible, other⟩
    have kept : seen old = true := by
      rw [seen, same_name] at visible
      exact visible
    exact ⟨⟨⟨old, groupsLoad_kept added fits before kept, rfl⟩, visible⟩, other⟩

theorem unrelated_of_left (all : ∀ g ∈ groups files, g ∈ leftGroups name after) :
    ∀ g ∈ groups files, g ∈ groupsLoad files ∧ seen g = true ∧ g.name ≠ name ∧
      memberOf g.members name = false := by
  have outside : ∀ g ∈ groups files, memberOf g.members name = false := by
    intro g member
    obtain ⟨old, before, rfl, -⟩ := (mem_leftGroups added fits).mp (all g member)
    exact strip_apart (stored_of_groups (List.mem_of_mem_take before)) added.some_name
  intro g member
  obtain ⟨old, before, stripped, visible, other⟩ := (mem_leftGroups added fits).mp (all g member)
  have same : g = old := by rw [stripped, strip_same (outside old (List.mem_of_mem_take before))]
  exact ⟨same ▸ before, visible, other, outside g member⟩

theorem left_of_unrelated (unrelated : ∀ g ∈ groups files, g ∈ groupsLoad files ∧
    seen g = true ∧ g.name ≠ name ∧
      memberOf g.members name = false) (g : Group) : g ∈ leftGroups name after ↔
      g ∈ groups files := by
  rw [mem_leftGroups added fits]
  constructor
  · rintro ⟨old, before, rfl, -⟩
    have member := List.mem_of_mem_take before
    rw [strip_same (unrelated old member).2.2.2]
    exact member
  · intro member
    obtain ⟨before, visible, other, outside⟩ := unrelated g member
    exact ⟨g, before, (strip_same outside).symm, visible, other⟩

end

theorem loadable_of_safe (surviving : ∀ r ∈ accounts files, ¬ Skipped r.name.head?) :
    loadable files = accounts files :=
  loadable_eq fun r member carriage => surviving r member (.inr (.inr carriage))

theorem survivors_of_safe (surviving : ∀ r ∈ accounts files, ¬ Skipped r.name.head?) :
    survivors files = accounts files := by
  rw [survivors, loadable_of_safe surviving, List.filter_eq_self]
  intro r member
  simpa using surviving r member

theorem clean_of_safe (text : '\x00' ∉ name) (added : Added io files name system uid after)
    (safe : Safe io files name system removeHome) : StartsClean files after name removeHome := by
  obtain ⟨no_colon, no_newline, plain⟩ := safe.plain
  have fits : Fits name := by
    refine ⟨added.some_name, added.short, fun c member => ⟨?_, ?_, ?_⟩⟩
    · rintro rfl
      exact no_colon member
    · rintro rfl
      exact no_newline member
    · rintro rfl
      exact text member
  have apart : Apart files name := fun g member => (safe.unrelated g member).2.2
  have ids := free_ids added
  refine ⟨?_, ?_, ?_, ?_⟩
  · intro g member
    have other := (safe.unrelated g member).2.2.1
    refine ⟨?_, ?_⟩
    · rw [Bool.eq_false_iff]
      intro inside
      exact other (inGroup_after added fits plain apart inside).1
    · intro max listed
      exact ids.2 g (safe.unrelated g member).1
        (authGroups_after added fits plain apart max _ listed)
  · intro granted
    exact safe.sudoers ((maySudo_after added fits plain apart).mp granted)
  · refine ⟨_, lookup_after added fits plain, rfl, ?_, ?_⟩
    · rw [← loadable_of_safe safe.surviving]
      exact ids.1
    · exact fun g member => ids.2 g (safe.unrelated g member).1
  · obtain ⟨gone, done, left_accounts, left_groups⟩ := deleted added fits plain removeHome
    refine ⟨gone, done, ?_, ?_⟩
    · intro r
      rw [left_accounts]
      split
      · rename_i reaches
        rw [safe.passwd_kept reaches]
      · rw [survivors_of_safe safe.surviving]
    · intro g
      rw [left_groups]
      split
      · rename_i reaches
        rw [safe.group_kept reaches]
      · exact left_of_unrelated added fits safe.unrelated g

theorem safe_of_clean (added : Added io files name system uid after)
    (clean : StartsClean files after name removeHome) : Safe io files name system removeHome := by
  obtain ⟨u, known, -⟩ := clean.own
  obtain ⟨fits, plain⟩ := fits_of_lookup added (by rw [known]; rfl)
  obtain ⟨gone, done, left_accounts, left_groups⟩ := deleted added fits plain removeHome
  obtain ⟨gone', done', same_accounts, same_groups⟩ := clean.undone
  obtain rfl : gone = gone' := Except.ok.inj (done.symm.trans done')
  have unrelated : ∀ g ∈ groups files, g ∈ groupsLoad files ∧ seen g = true ∧ g.name ≠ name ∧
      memberOf g.members name = false := by
    apply unrelated_of_left added fits
    intro g member
    have left := (same_groups g).mpr member
    rw [left_groups] at left
    split at left
    · cases left
    · exact left
  have inside : ':' ∉ name ∧ '\n' ∉ name :=
    ⟨fun colon => (fits.inside _ colon).1 rfl, fun newline => (fits.inside _ newline).2.1 rfl⟩
  refine ⟨⟨inside.1, inside.2, plain⟩, ?_, unrelated, ?_, ?_, ?_⟩
  · intro r member
    have left := (same_accounts r).mpr member
    rw [left_accounts] at left
    split at left
    · cases left
    · simpa using List.of_mem_filter left
  · intro granted
    have apart : Apart files name := fun g member => (unrelated g member).2.2
    exact clean.no_sudo ((maySudo_after added fits plain apart).mpr granted)
  · intro reaches
    rw [if_pos reaches] at left_accounts
    rw [List.eq_nil_iff_forall_not_mem]
    intro r member
    have left := (same_accounts r).mpr member
    rw [left_accounts] at left
    cases left
  · intro reaches
    rw [if_pos reaches] at left_groups
    rw [List.eq_nil_iff_forall_not_mem]
    intro g member
    have left := (same_groups g).mpr member
    rw [left_groups] at left
    cases left

end Clean

theorem new_account_starts_clean_iff (text : '\x00' ∉ name)
    (added : userAdd io files name system = .ok after) :
    StartsClean files after name removeHome ↔ Safe io files name system removeHome := by
  obtain ⟨uid, known⟩ := added_of_ok added
  exact ⟨safe_of_clean known, clean_of_safe text known⟩

/-- A device as it comes, with the list of who may become root that is seeded. -/
def device : Files := ensureSudoers true freshFiles

def person : List Char := "ada".toList

theorem ada_starts_clean :
    ∃ after, userAdd ⟨true, true⟩ device person false = .ok after ∧
      (StartsClean device after person true ↔ Safe ⟨true, true⟩ device person false true) ∧
      Safe ⟨true, true⟩ device person false true := by
  obtain ⟨after, added⟩ : ∃ after, userAdd ⟨true, true⟩ device person false = .ok after := ⟨_, rfl⟩
  refine ⟨after, added, new_account_starts_clean_iff (by decide) added, ?_⟩
  exact ⟨by decide +kernel, by decide +kernel, by decide +kernel, by decide +kernel,
    by decide +kernel, by decide +kernel⟩

def sudoName : List Char := "sudo".toList

/-- An account with the name of a group gets a second group of that name, and with it what
the first one may do; the deletion takes both. -/
theorem account_called_sudo :
    ∃ after, userAdd ⟨true, true⟩ device sudoName false = .ok after ∧
      (∃ g ∈ groups device, g.name = sudoName) ∧ inGroup after sudoName sudoName = true ∧
      maySudo after sudoName = true ∧ ¬ Named device sudoName ∧
      ∃ gone, userDel ⟨true, true⟩ after sudoName false = .ok gone ∧
        ¬ ∃ g ∈ groups gone, g.name = sudoName := by
  refine ⟨_, rfl, by decide +kernel, by decide +kernel, by decide +kernel, by
    decide +kernel, _, rfl,
    by decide +kernel⟩

end Espix.Auth.NewAccount
