import Espix.Nfsd.Requests

/-! What the paths behind the handles have to do with the exports.

A handle is answered from two tables that nothing ties together: the export it names and
the slot it names. They agree for handles that were given out under the present exports. -/

namespace Espix.Nfsd.Confine

open Fs.Access (Path)
open Lib.PathText Lib.Run Lib.SlotTable Exports
open Handles hiding Event step boot
open Requests

/-- The path is the export's or below it. One that has room for another two characters is
the export's own or strictly below, so that a name cut to two dots does not lead out. -/
structure Within (x : Export) (path : Path) : Prop where
  named : path ≠ []
  fits : path.length < pathCap
  below : normalise x.path <+: normalise path
  strict : path.length < pathCap - 2 → path = x.path ∨ normalise path ≠ normalise x.path

section Names

variable {x : Export} {dir name path : Path}

theorem nameOk_spec (ok : nameOk name = true) :
    name ≠ [] ∧ '/' ∉ name ∧ name ≠ ['.'] ∧ name ≠ ['.', '.'] := by
  simp only [nameOk, Bool.and_eq_true, bne_iff_ne, Bool.not_eq_true', List.contains_eq_mem,
    decide_eq_false_iff_not] at ok
  exact ⟨ok.1.1.1.1, ok.1.1.2, ok.1.2, ok.2⟩

theorem normalise_name (dir : Path) (ok : nameOk name = true) :
    normalise (dir ++ '/' :: name) = normalise dir ++ [name] := by
  obtain ⟨some_text, plain, not_dot, not_up⟩ := nameOk_spec ok
  rw [normalise_component dir plain, push, if_neg (not_or.mpr ⟨some_text, not_dot⟩), if_neg not_up]

theorem Within.root (x : Export) : Within x x.path where
  named := x.named
  fits := Nat.lt_trans x.fits (by decide)
  below := List.prefix_rfl
  strict := fun _ => .inl rfl

theorem Within.under {q : Path} (within : Within x dir) (ok : nameOk name = true)
    (same : normalise q = normalise dir) (fits : (q ++ '/' :: name).length < pathCap) :
    Within x (q ++ '/' :: name) := by
  have deeper : normalise (q ++ '/' :: name) = normalise dir ++ [name] := by
    rw [normalise_name q ok, same]
  constructor
  · simp
  · exact fits
  · rw [deeper]
    exact within.below.trans (List.prefix_append _ _)
  · intro _
    right
    intro level
    have shorter := within.below.length_le
    rw [← level, deeper, List.length_append, List.length_singleton] at shorter
    omega

theorem Within.join (within : Within x dir) (ok : nameOk name = true)
    (joined : joinPath dir name = some path) : Within x path := by
  unfold joinPath at joined
  split at joined
  · rename_i fits
    cases joined
    apply within.under ok rfl
    rw [List.length_append, List.length_cons]
    omega
  · cases joined

theorem prefix_dropLast {root above : List Path} (below : root <+: above) (strict : above ≠ root) :
    root <+: above.dropLast := by
  obtain ⟨more, rfl⟩ := below
  have some_more : more ≠ [] := fun none_more => strict (by rw [none_more, List.append_nil])
  rw [List.dropLast_append_of_ne_nil some_more]
  exact List.prefix_append _ _

theorem Within.cut {q : Path} {k : Nat} (within : Within x dir) (ok : nameOk name = true)
    (same : normalise q = normalise dir) (shorter : q.length ≤ dir.length)
    (nearly : dir.length ≤ q.length + 1) (full : q.length + 1 + k = pathCap - 1) :
    Within x (q ++ '/' :: name.take k) := by
  obtain ⟨-, plain, -, -⟩ := nameOk_spec ok
  by_cases whole : name.length ≤ k
  · rw [List.take_of_length_le whole]
    apply within.under ok same
    rw [List.length_append, List.length_cons]
    omega
  · have cut_length : (name.take k).length = k := List.length_take_of_le (by omega)
    have length : (q ++ '/' :: name.take k).length = pathCap - 1 := by
      rw [List.length_append, List.length_cons, cut_length]
      omega
    have level : normalise (q ++ '/' :: name.take k) = push (normalise dir) (name.take k) := by
      rw [normalise_component q (fun inside => plain (List.mem_of_mem_take inside)), same]
    constructor
    · simp
    · rw [length]
      decide
    · rw [level, push]
      split
      · exact within.below
      · split
        · rename_i up
          -- two dots are left of the name: the directory is too long to be the export itself
          have two : k = 2 := by rw [← cut_length, up]; rfl
          apply prefix_dropLast within.below
          have long : x.path.length < exportPathCap := x.fits
          have room : dir.length < pathCap - 2 := by simp only [pathCap] at *; omega
          apply (within.strict room).resolve_left
          intro itself
          rw [itself] at shorter
          simp only [pathCap, exportPathCap] at *
          omega
        · exact within.below.trans (List.prefix_append _ _)
    · intro room
      omega

theorem childPath_eq (fits : dir.length ≤ pathCap - 1) :
    (∃ q k, childPath dir name = q ++ '/' :: name.take k ∧ normalise q = normalise dir ∧
        q.length ≤ dir.length ∧ dir.length ≤ q.length + 1 ∧ q.length + 1 + k = pathCap - 1) ∨
      childPath dir name = dir := by
  have split_take (q : Path) (inside : q.length + 1 ≤ pathCap - 1) :
      (q ++ ['/'] ++ name).take (pathCap - 1) =
        q ++ '/' :: name.take (pathCap - 1 - (q.length + 1)) := by
    rw [List.take_append, List.take_of_length_le (by simpa using inside)]
    simp
  by_cases slashed : dir.getLast? = some '/'
  · obtain ⟨q, rfl⟩ := List.getLast?_eq_some_iff.mp slashed
    rw [List.length_append, List.length_singleton] at fits
    left
    refine ⟨q, _, ?_, (normalise_trailing q).symm, by simp, by simp, Nat.add_sub_cancel' fits⟩
    simp only [childPath, if_pos slashed, split_take q fits]
  · by_cases full : dir.length = pathCap - 1
    · right
      have no_room : (dir ++ ['/']).take (pathCap - 1) = dir := by rw [← full, List.take_left']; rfl
      simp only [childPath, if_neg slashed, no_room]
      rw [← full, List.take_left']
      rfl
    · have room : dir.length + 1 ≤ pathCap - 1 := by omega
      have slash_fits : (dir ++ ['/']).take (pathCap - 1) = dir ++ ['/'] :=
        List.take_of_length_le (by simpa using room)
      left
      refine ⟨dir, _, ?_, rfl, Nat.le_refl _, Nat.le_succ _, Nat.add_sub_cancel' room⟩
      simp only [childPath, if_neg slashed, slash_fits, split_take dir room]

theorem Within.child (within : Within x dir) (ok : nameOk name = true) :
    Within x (childPath dir name) := by
  have fits : dir.length ≤ pathCap - 1 := Nat.le_pred_of_lt within.fits
  rcases childPath_eq fits with ⟨q, k, path, same, shorter, nearly, full⟩ | path
  · rw [path]
    exact within.cut ok same shorter nearly full
  · rw [path]
    exact within

end Names

def Sound (exports : List Export) (t : Table) (fh : Handle) : Prop :=
  ∃ e id x, fhKey fh = some (e, id) ∧ exports[e]? = some x ∧ id ≠ 0 ∧ id ≤ t.cursor ∧
    ∀ slots, t.slots = some slots → ∀ slot ∈ slots, slot.id = id → Within x slot.val

def Numbers (t : Table) (more : Nat) : Prop := Counted t ∧ t.cursor + more < idBound

section Making

variable {exports : List Export} {t u : Table} {heap : Bool} {exp more : Nat} {path : Path}
variable {fh g : Handle} {x : Export}

theorem Numbers.make (numbers : Numbers t (more + 1)) :
    Numbers (fhMake heap t exp path).1 more := by
  obtain ⟨counted, left⟩ := numbers
  refine ⟨counted.make ?_, ?_⟩
  · simp only [cursorMax, idBound] at *
    omega
  · have grows : (fhMake heap t exp path).1.cursor ≤ t.cursor + 1 := by
      unfold fhMake
      split
      · exact Nat.le_succ _
      · split
        · exact Nat.le_succ _
        · exact Nat.le_refl _
    omega

theorem Numbers.next (numbers : Numbers t (more + 1)) : t.nextId % idBound = t.cursor + 1 := by
  obtain ⟨counted, left⟩ := numbers
  rw [counted.next, Nat.mod_eq_of_lt (by omega)]

theorem cursor_le_make : t.cursor ≤ (fhMake heap t exp path).1.cursor := by
  unfold fhMake
  split
  · exact Nat.le_refl _
  · split
    · exact Nat.le_refl _
    · exact Nat.le_succ _

/-- A handle given out before keeps its slot or loses it: the new number is another. -/
theorem Sound.make (sound : Sound exports t g) (numbers : Numbers t (more + 1)) :
    Sound exports (fhMake heap t exp path).1 g := by
  obtain ⟨e, id, x, key, exported, used, given, all⟩ := sound
  refine ⟨e, id, x, key, exported, used, Nat.le_trans given cursor_le_make, ?_⟩
  have ensured (slots : List (Slot Path)) (ready : slotsEnsure heap t = some slots) :
      ∀ slot ∈ slots, slot.id = id → Within x slot.val := by
    rcases slotsEnsure_some ready with present | rfl
    · exact all _ present
    · intro slot member named
      rw [(List.mem_replicate.mp member).2] at named
      exact absurd named.symm used
  fun_cases fhMake heap t exp path with
  | case1 => exact all
  | case2 old ready =>
    rintro _ ⟨⟩
    exact ensured old ready
  | case3 old ready =>
    rintro _ ⟨⟩ slot member named
    rcases mem_put member with before | rfl
    · exact ensured old ready slot before named
    · have now : t.cursor + 1 = id := numbers.next.symm.trans named
      omega

theorem make_sound (numbers : Numbers t (more + 1)) (few : exports.length ≤ maxExports)
    (exported : exports[exp]? = some x) (within : Within x path)
    (minted : fhMake heap t exp path = (u, some fh)) : Sound exports u fh := by
  have not_zero : t.nextId % idBound ≠ 0 := by
    rw [numbers.next]
    omega
  have below : exp < maxExports :=
    Nat.lt_of_lt_of_le (List.getElem?_eq_some_iff.mp exported).1 few
  obtain ⟨id, key, used, stands, turn, before, number⟩ :=
    make_stands numbers.1 within.fits not_zero minted
  have bounded : u.cursor < idBound := by
    have after : Numbers (fhMake heap t exp path).1 more := numbers.make
    rw [minted] at after
    exact Nat.lt_of_le_of_lt (Nat.le_add_right _ _) after.2
  rw [Nat.mod_eq_of_lt (by simp only [maxExports] at below; omega)] at key
  refine ⟨exp, id, x, key, exported, used, ?_, ?_⟩
  · rw [number]
    exact Nat.le_trans (Nat.mod_le _ _) before
  · intro slots table slot member named
    rw [stands slots table slot member named]
    exact within

theorem makeAll_sound (heap : Bool) {paths : List Path} {given : List Handle}
    (numbers : Numbers t (more + paths.length)) (few : exports.length ≤ maxExports)
    (within : ∀ path ∈ paths, ∃ x, exports[exp]? = some x ∧ Within x path)
    (sound : ∀ g ∈ given, Sound exports t g) :
    Numbers (makeAll heap exp t paths).1 more ∧
      ∀ g ∈ given ++ (makeAll heap exp t paths).2, Sound exports
      (makeAll heap exp t paths).1 g := by
  induction paths generalizing t given with
  | nil => simpa [makeAll] using ⟨numbers, sound⟩
  | cons path paths ih =>
    obtain ⟨⟨x, exported, here⟩, later⟩ := List.forall_mem_cons.mp within
    have one : Numbers t (more + paths.length + 1) := numbers
    have both : ∀ g ∈ given ++ (fhMake heap t exp path).2.toList,
        Sound exports (fhMake heap t exp path).1 g := by
      intro g member
      rcases List.mem_append.mp member with old | new
      · exact (sound g old).make one
      · exact make_sound one few exported here (Prod.ext rfl (Option.mem_toList.mp new))
    simpa only [makeAll, List.append_assoc] using ih one.make later both

end Making

/-- The handle was given out under the present exports, or its number is in no slot. -/
def Known (w : World) (fh : Handle) : Prop :=
  (∃ g ∈ w.given, fhKey g = fhKey fh) ∨
    ∀ e id slots, fhKey fh = some (e, id) → w.server.table.slots = some slots →
      lookup slots id = none

/-- The clients present handles they were given, directories list neither themselves nor
their parent, and the slot numbers have not come round. -/
def Fair (w : World) : Event → Prop
  | .nfs _ call answers =>
    (∀ fh ∈ call.handles, Known w fh) ∧ (∀ name ∈ answers.listing, nameOk name = true) ∧
      w.server.table.cursor + (answers.listing.length + 1) < idBound
  | .mnt .. => w.server.table.cursor + 1 < idBound
  | .umnt .. | .umntall _ | .reload _ => True

structure Inv (w : World) : Prop where
  numbers : Numbers w.server.table 0
  few : w.server.exports.length ≤ maxExports
  sound : ∀ g ∈ w.given, Sound w.server.exports w.server.table g

section Steps

variable {w w' : World} {peer : Peer} {call : Call} {answers : Answers} {r : Resolved} {fh : Handle}

theorem Inv.resolve (inv : Inv w) (known : Known w fh)
    (answered : resolve w.server peer fh = some r) :
    ∃ x, w.server.exports[r.exp]? = some x ∧ ruleFor x peer.src = some r.rule ∧
      Within x r.path := by
  obtain ⟨x, id, slots, key, exported, rule, table, found⟩ := fhResolve_some answered
  refine ⟨x, exported, rule, ?_⟩
  rcases known with ⟨g, given, same⟩ | nowhere
  · obtain ⟨e, id', x', key', exported', -, -, all⟩ := inv.sound g given
    rw [same, key] at key'
    cases key'
    rw [exported] at exported'
    cases exported'
    obtain ⟨slot, hit, value⟩ := Option.map_eq_some_iff.mp found
    rw [← value]
    apply all slots table slot (List.mem_of_find?_eq_some hit)
    simpa using List.find?_some hit
  · rw [nowhere r.exp id slots key table] at found
    cases found

theorem mem_resolutions (answered : r ∈ resolutions w.server peer call) :
    ∃ fh ∈ call.handles, resolve w.server peer fh = some r := by
  cases call with
  | rename fromFh fromName toFh toName =>
    simp only [resolutions] at answered
    split at answered
    · cases answered
    · rename_i found
      rcases List.mem_cons.mp answered with rfl | second
      · exact ⟨fromFh, by simp [Call.handles], found⟩
      · exact ⟨toFh, by simp [Call.handles], Option.mem_toList.mp second⟩
  | lookup fh name | create fh name | mkdir fh name | readdirplus fh | other fh =>
    exact ⟨fh, by simp [Call.handles], Option.mem_toList.mp answered⟩

theorem nameIn_within (inv : Inv w) (known : Known w fh) {name path : Path}
    (accepted : nameIn w.server peer fh name = some (r, path)) :
    ∃ x, w.server.exports[r.exp]? = some x ∧ Within x path := by
  unfold nameIn at accepted
  split at accepted
  · cases accepted
  · rename_i found
    split at accepted
    · rename_i ok
      obtain ⟨joined, fits, same⟩ := Option.map_eq_some_iff.mp accepted
      cases same
      obtain ⟨x, exported, -, within⟩ := inv.resolve known found
      exact ⟨x, exported, within.join ok fits⟩
    · cases accepted

theorem asked_within (inv : Inv w) (fair : Fair w (.nfs peer call answers)) :
    ∀ path ∈ (asked w.server peer answers call).2,
      ∃ x, w.server.exports[(asked w.server peer answers call).1]? = some x ∧ Within x path := by
  obtain ⟨known, names, -⟩ := fair
  cases call with
  | lookup fh name | create fh name | mkdir fh name =>
    have here : Known w fh := known fh (by simp [Call.handles])
    simp only [asked]
    split
    · rename_i accepted
      split
      · intro path member
        rw [List.mem_singleton.mp member]
        exact nameIn_within inv here accepted
      · exact nofun
    · exact nofun
  | readdirplus fh =>
    have here : Known w fh := known fh (by simp [Call.handles])
    simp only [asked]
    split
    · rename_i found
      split
      · intro path member
        obtain ⟨name, listed, rfl⟩ := List.mem_map.mp member
        obtain ⟨x, exported, -, within⟩ := inv.resolve here found
        exact ⟨x, exported, within.child (names name listed)⟩
      · exact nofun
    · exact nofun
  | rename fromFh fromName toFh toName => exact nofun
  | other fh => exact nofun

theorem length_asked_le : (asked w.server peer answers call).2.length ≤
    answers.listing.length + 1 := by
  cases call <;> simp only [asked] <;> (repeat' split) <;> simp

theorem Inv.boot : Inv boot := by
  refine ⟨⟨Counted.boot, by decide⟩, by decide, nofun⟩

theorem mountable_spec {s : Server} {src exp : Nat} {dir path : Path}
    (mounts : mountable s src dir = some (exp, path)) :
    ∃ x rule, s.exports[exp]? = some x ∧ x.path = path ∧ ruleFor x src = some rule := by
  revert mounts
  fun_cases mountable s src dir with
  | case3 i longest x exported listed =>
    rintro ⟨⟩
    obtain ⟨rule, found⟩ := Option.isSome_iff_exists.mp listed
    exact ⟨x, rule, exported, rfl, found⟩
  | _ => rintro ⟨⟩

theorem unmounted_inv {mounted : List Mount} (inv : Inv w) :
    Inv { w with server := unmounted w.server mounted } := by
  unfold unmounted
  by_cases last : nothingMounted mounted
  · simp only [last, if_true]
    refine ⟨⟨⟨inv.numbers.1.next, nofun⟩, inv.numbers.2⟩, inv.few, ?_⟩
    intro g member
    obtain ⟨e, id, x, key, exported, used, given, -⟩ := inv.sound g member
    exact ⟨e, id, x, key, exported, used, given, nofun⟩
  · simp only [last]
    exact ⟨inv.numbers, inv.few, inv.sound⟩

theorem step_inv {e : Event} (inv : Inv w) (fair : Fair w e) (next : step w e = some w') :
    Inv w' := by
  revert fair next
  fun_cases step w e with
  | case1 peer call answers exp paths asks made =>
    rintro fair ⟨⟩
    have left := fair.2.2
    have few : (asked w.server peer answers call).2.length ≤ answers.listing.length + 1 :=
      length_asked_le
    have numbers : Numbers w.server.table (0 + (asked w.server peer answers call).2.length) :=
      ⟨inv.numbers.1, by omega⟩
    obtain ⟨numbers', sound⟩ := makeAll_sound answers.heap numbers inv.few (asked_within inv fair)
      inv.sound
    rw [asks] at numbers' sound
    exact ⟨numbers', inv.few, sound⟩
  | case4 src dir heap e path mounts _ fh minted =>
    rintro fair ⟨⟩
    obtain ⟨x, -, exported, rfl, -⟩ := mountable_spec mounts
    have one : Numbers w.server.table (0 + 1) := ⟨inv.numbers.1, fair⟩
    refine ⟨one.make, inv.few, ?_⟩
    intro g member
    rcases List.mem_append.mp member with old | new
    · exact (inv.sound g old).make one
    · rw [List.mem_singleton.mp new]
      exact make_sound one inv.few exported (Within.root x) (Prod.ext rfl minted)
  | case6 | case7 =>
    rintro - ⟨⟩
    exact unmounted_inv inv
  | case8 exports =>
    rintro - ⟨⟩
    exact ⟨inv.numbers, List.length_take_le _ _, nofun⟩
  | _ =>
    rintro - ⟨⟩
    exact inv

end Steps

def priv : Export :=
  ⟨"/srv/priv".toList, [⟨0x0A000005, 0xFFFFFFFF, false, .root, 65534, 65534⟩], by decide, by decide⟩

def stranger : Peer := ⟨0x0A000009, none⟩

def forged (exp id : UInt8) : Handle :=
  [0x45, 0x53, 0x50, 0x58, exp, id, 0, 0, 0] ++ List.replicate 19 0

def mounting (src : Nat) (x : Export) : List Event := [.reload [pub, priv], .mnt src x.path true]

end Espix.Nfsd.Confine
