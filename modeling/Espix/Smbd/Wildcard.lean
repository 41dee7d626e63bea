import Espix.Smbd.Handlers

/-! The search pattern of a listing.

`name_matches` goes back only to the last star. That is enough, but where a star of the pattern
meets a star of the name, the two are taken for the same character. -/

namespace Espix.Smbd.Wildcard

open Handlers

/-- The pattern with some text for every `*` and a character for every `?`. -/
def Expands : List Char → List Char → Prop
  | [], text => text = []
  | q :: p, text =>
    if q = '*' then ∃ run rest, text = run ++ rest ∧ Expands p rest
    else ∃ c rest, text = c :: rest ∧ (q = '?' ∨ c = q) ∧ Expands p rest

def Fits (p name : List Char) : Prop := ∃ text, Expands p text ∧ sameName text name

variable {p n b m : List Char} {q c : Char} {star : Option (List Char × List Char)}

theorem fits_nil : Fits [] n ↔ n = [] := by simp [Fits, Expands, sameName, eq_comm]

theorem fits_star : Fits ('*' :: p) n ↔ ∃ k, Fits p (n.drop k) := by
  simp only [Fits, Expands, sameName, decide_eq_true_eq, if_true]
  constructor
  · rintro ⟨_, ⟨run, rest, rfl, expands⟩, same⟩
    refine ⟨run.length, rest, expands, ?_⟩
    rw [List.map_drop, ← same, List.map_append, List.drop_left' (List.length_map _)]
  · rintro ⟨k, text, expands, same⟩
    refine ⟨n.take k ++ text, ⟨_, text, rfl, expands⟩, ?_⟩
    rw [List.map_append, same, ← List.map_append, List.take_append_drop]

theorem fits_char (char : q ≠ '*') : Fits (q :: p) n ↔
    ∃ c rest, n = c :: rest ∧ (q = '?' ∨ lowerAscii q = lowerAscii c) ∧ Fits p rest := by
  simp only [Fits, Expands, sameName, decide_eq_true_eq, if_neg char]
  constructor
  · rintro ⟨_, ⟨t, text, rfl, one, expands⟩, same⟩
    obtain ⟨c, rest, rfl, first, later⟩ := List.map_eq_cons_iff.mp same.symm
    exact ⟨c, rest, rfl, one.imp_right fun eq => by rw [← eq, first], text, expands, later.symm⟩
  · rintro ⟨c, rest, rfl, one, text, expands, same⟩
    rcases one with any | same_char
    · exact ⟨c :: text, ⟨c, text, rfl, .inl any, expands⟩, by simp [same]⟩
    · exact ⟨q :: text, ⟨q, text, rfl, .inr rfl, expands⟩, by simp [same, same_char]⟩

theorem fits_append {q t : List Char} :
    Fits (q ++ p) t ↔ ∃ x y, t = x ++ y ∧ Fits q x ∧ Fits p y := by
  induction q generalizing t with
  | nil => simp [fits_nil]
  | cons c q ih =>
    by_cases star : c = '*'
    · subst star
      simp only [List.cons_append, fits_star, ih]
      constructor
      · rintro ⟨k, x, y, rest, head, tail⟩
        refine ⟨t.take k ++ x, y, by rw [List.append_assoc, ← rest, List.take_append_drop],
          ⟨(t.take k).length, by simpa using head⟩, tail⟩
      · rintro ⟨x, y, rfl, ⟨k, head⟩, tail⟩
        by_cases inside : k ≤ x.length
        · exact ⟨k, x.drop k, y, List.drop_append_of_le_length inside, head, tail⟩
        · refine ⟨x.length, [], y, List.drop_left, ?_, tail⟩
          rwa [List.drop_of_length_le (by omega)] at head
    · simp only [List.cons_append, fits_char star, ih]
      constructor
      · rintro ⟨d, _, rfl, same, x, y, rfl, head, tail⟩
        exact ⟨d :: x, y, rfl, ⟨d, x, rfl, same, head⟩, tail⟩
      · rintro ⟨_, y, rfl, ⟨d, x, rfl, same, head⟩, tail⟩
        exact ⟨d, x ++ y, rfl, same, x, y, rfl, head, tail⟩

theorem fits_length {f t : List Char} (free : '*' ∉ f) (fits : Fits f t) : t.length = f.length := by
  induction f generalizing t with
  | nil => simp [fits_nil.mp fits]
  | cons c f ih =>
    rw [List.mem_cons, not_or] at free
    obtain ⟨d, rest, rfl, -, fits⟩ := (fits_char (Ne.symm free.1)).mp fits
    simp [ih free.2 fits]

def Shortest (q t : List Char) : Prop := Fits q t ∧ ∀ k < t.length, ¬Fits q (t.take k)

/-- What stands before a star of the pattern first fits where no star of the name follows. -/
def Clear (p name : List Char) : Prop :=
  ∀ q r t n, p = q ++ '*' :: r → name = t ++ n → Shortest q t → n.head? ≠ some '*'

/-- The pattern up to its next star has no earlier place than this one. -/
def Ahead (pattern name p n : List Char) : Prop :=
  ∃ q t, pattern = q ++ p ∧ name = t ++ n ∧ Fits q t ∧
    ∀ f r, p = f ++ '*' :: r → '*' ∉ f → ∀ k < t.length, ¬Fits (q ++ f) (name.take (k + f.length))

section Ahead

variable {pattern name : List Char}

theorem ahead_start : Ahead pattern name pattern name :=
  ⟨[], [], rfl, rfl, fits_nil.mpr rfl, by simp⟩

theorem Ahead.not_star (ahead : Ahead pattern name ('*' :: p) (c :: n))
    (clear : Clear pattern name) : c ≠ '*' := by
  obtain ⟨q, t, rfl, rfl, fits, first⟩ := ahead
  rintro rfl
  refine clear q p t ('*' :: n) rfl rfl ⟨fits, fun k short => ?_⟩ rfl
  have earlier := first [] p rfl (by simp) k short
  rwa [List.append_nil, List.length_nil, List.take_append_of_le_length (by omega)] at earlier

theorem Ahead.char (ahead : Ahead pattern name (q :: p) (c :: n)) (char : q ≠ '*')
    (one : q = '?' ∨ lowerAscii q = lowerAscii c) : Ahead pattern name p n := by
  obtain ⟨front, t, rfl, rfl, fits, first⟩ := ahead
  refine ⟨front ++ [q], t ++ [c], by simp, by simp, fits_append.mpr ⟨t, [c], rfl, fits, ?_⟩, ?_⟩
  · exact (fits_char char).mpr ⟨c, [], rfl, one, fits_nil.mpr rfl⟩
  · rintro f r rfl free k below found
    rw [List.append_assoc, List.singleton_append] at found
    have plain : '*' ∉ q :: f := by simp [Ne.symm char, free]
    cases k with
    | zero =>
      obtain ⟨x, y, same, -, last⟩ := fits_append.mp found
      have short := congrArg List.length same
      rw [List.length_append, fits_length plain last, List.length_take, List.length_cons] at short
      omega
    | succ k =>
      rw [List.length_append, List.length_singleton] at below
      refine first (q :: f) r rfl plain k (by omega) ?_
      rwa [List.length_cons, ← Nat.succ_add_eq_add_succ]

theorem Ahead.behind (ahead : Ahead pattern name ('*' :: p) n) : Ahead pattern name p n := by
  obtain ⟨front, t, rfl, rfl, fits, first⟩ := ahead
  refine ⟨front ++ ['*'], t, by simp, rfl, ?_, ?_⟩
  · exact fits_append.mpr ⟨t, [], by simp, fits, fits_star.mpr ⟨0, fits_nil.mpr rfl⟩⟩
  · rintro f r rfl free k below found
    rw [List.append_assoc, List.singleton_append] at found
    obtain ⟨x, y, same, head, tail⟩ := fits_append.mp found
    obtain ⟨j, tail⟩ := fits_star.mp tail
    have long := fits_length free tail
    have size := congrArg List.length same
    rw [List.length_append, List.length_take, List.length_append] at size
    rw [List.length_drop] at long
    have start : x = (t ++ n).take x.length :=
      List.prefix_iff_eq_take.mp ((same ▸ List.prefix_append x y).trans (List.take_prefix ..))
    refine first [] (f ++ '*' :: r) rfl (by simp) x.length (by omega) ?_
    rwa [List.append_nil, List.length_nil, Nat.add_zero, ← start]

theorem Ahead.later {d : Char}
    (ahead : Ahead pattern name b (d :: m)) (star : ∃ q, pattern = q ++ '*' :: b)
    (misses : ∀ f r, b = f ++ '*' :: r → '*' ∉ f → ¬Fits f ((d :: m).take f.length)) :
    Ahead pattern name b m := by
  obtain ⟨front, t, rfl, rfl, fits, first⟩ := ahead
  obtain ⟨q, same⟩ := star
  obtain rfl : front = q ++ ['*'] := List.append_cancel_right (by simpa using same)
  refine ⟨q ++ ['*'], t ++ [d], rfl, by simp, ?_, ?_⟩
  · obtain ⟨x, y, rfl, head, -⟩ := fits_append.mp fits
    exact fits_append.mpr ⟨x, y ++ [d], by simp, head,
      fits_star.mpr ⟨(y ++ [d]).length, by simp [fits_nil]⟩⟩
  · rintro f r rfl free k below found
    obtain ⟨x, y, split, -, last⟩ := fits_append.mp found
    have short := fits_length free last
    have size := congrArg List.length split
    rw [List.length_append, List.length_take, short] at size
    rw [List.length_append, List.length_singleton] at below
    by_cases earlier : x.length < t.length
    · refine first f r rfl free x.length earlier ?_
      rwa [← size, ← List.take_eq_take_min]
    · obtain rfl : k = t.length := by omega
      rw [List.take_length_add_append] at split
      refine misses f r rfl free ?_
      rwa [(List.append_inj split (by omega)).2]

end Ahead

theorem fits_empty_iff : Fits p [] ↔ p.all (· = '*') = true := by
  induction p with
  | nil => simp [fits_nil]
  | cons q p ih =>
    by_cases star : q = '*'
    · simp [star, fits_star, ih]
    · simp [star, fits_char star]

theorem star_of_lower (same : lowerAscii c = '*') : c = '*' := by
  unfold lowerAscii at same
  split at same
  · rename_i upper
    have large : 65 ≤ c.toNat := upper.1
    have small : c.toNat ≤ 90 := upper.2
    rw [Char.ofNat, dif_pos (.inl (by omega))] at same
    have low : c.toNat + 32 = 42 := congrArg Char.toNat same
    omega
  · exact same

def Found (p n : List Char) (star : Option (List Char × List Char)) : Prop :=
  Fits p n ∨ ∃ b m, star = some (b, m) ∧ ∃ k, Fits b (m.drop (k + 1))

theorem found_star : Found b m (some (b, m)) ↔ ∃ k, Fits b (m.drop k) := by
  constructor
  · rintro (fits | ⟨_, _, ⟨⟩, k, fits⟩)
    · exact ⟨0, fits⟩
    · exact ⟨k + 1, fits⟩
  · rintro ⟨k, fits⟩
    cases k with
    | zero => exact .inl fits
    | succ k => exact .inr ⟨b, m, rfl, k, fits⟩

theorem found_mono (char : q ≠ '*') (one : q = '?' ∨ lowerAscii q = lowerAscii c) :
    Found (q :: p) (c :: n) star ↔ Found p n star := by
  simp [Found, fits_char char, one]

def Since (p n : List Char) (star : Option (List Char × List Char)) : Prop :=
  ∀ b m, star = some (b, m) → ∃ s u, b = s ++ p ∧ m = u ++ n ∧ s.length = u.length

theorem since_star : Since b m (some (b, m)) := by
  rintro _ _ ⟨⟩
  exact ⟨[], [], rfl, rfl, rfl⟩

theorem Since.tail (since : Since (q :: p) (c :: n) star) : Since p n star := by
  intro b m same
  obtain ⟨s, u, rfl, rfl, long⟩ := since b m same
  exact ⟨s ++ [q], u ++ [c], by simp, by simp, by simp [long]⟩

def cost (p n : List Char) : Option (List Char × List Char) → Nat
  | none => n.length * (p.length + 1) + p.length
  | some (b, m) => m.length * (b.length + 1) + p.length

theorem Since.le_cost (since : Since p n star) :
    n.length * (p.length + 1) + p.length ≤ cost p n star := by
  cases star with
  | none => exact le_rfl
  | some star =>
    obtain ⟨s, u, pattern, name, -⟩ := since star.1 star.2 rfl
    have shorter : p.length ≤ star.1.length := by simp [pattern]
    have inside : n.length ≤ star.2.length := by simp [name]
    exact Nat.add_le_add_right (Nat.mul_le_mul inside (Nat.succ_le_succ shorter)) _

theorem Since.cost_star (since : Since ('*' :: p) n star) :
    cost p n (some (p, n)) < cost ('*' :: p) n star := by
  have most := since.le_cost
  simp only [cost, List.length_cons, Nat.mul_succ] at most ⊢
  omega

theorem cost_tail : cost p n star < cost (q :: p) (c :: n) star := by
  cases star with
  | none =>
    simp only [cost, List.length_cons, Nat.mul_succ, Nat.succ_mul]
    omega
  | some star => exact Nat.lt_succ_self _

theorem cost_back {d : Char} : cost b m (some (b, m)) < cost p n (some (b, d :: m)) := by
  simp only [cost, List.length_cons, Nat.succ_mul]
  omega

def back (fuel : Nat) : Option (List Char × List Char) → Bool
  | none => false
  | some (b, m) => matchLoop fuel b m.tail (some (b, m.tail))

theorem matchLoop_over (fuel : Nat) : matchLoop (fuel + 1) [] (c :: n) star = back fuel star := by
  cases star <;> rfl

theorem matchLoop_cons (fuel : Nat) : matchLoop (fuel + 1) (q :: p) (c :: n) star =
    if q = '?' ∨ lowerAscii q = lowerAscii c then matchLoop fuel p n star
    else if q = '*' then matchLoop fuel p (c :: n) (some (p, c :: n))
    else back fuel star := by
  cases star <;> rfl

theorem back_more {fuel : Nat} (more : Nat)
    (ih : ∀ {p n star}, Since p n star → cost p n star < fuel →
      matchLoop (fuel + more) p n star = matchLoop fuel p n star)
    (since : Since p (c :: n) star) (enough : cost p (c :: n) star < fuel + 1) :
    back (fuel + more) star = back fuel star := by
  rcases star with _ | ⟨b, m⟩
  · rfl
  · obtain ⟨s, u, -, name, -⟩ := since b m rfl
    cases m with
    | nil => simp at name
    | cons d m => exact ih since_star (Nat.lt_of_lt_of_le cost_back (Nat.le_of_lt_succ enough))

/-- The loop ends: more turns than the bound change nothing. -/
theorem matchLoop_more {fuel : Nat} (more : Nat) (since : Since p n star)
    (enough : cost p n star < fuel) : matchLoop (fuel + more) p n star =
    matchLoop fuel p n star := by
  induction fuel generalizing p n star with
  | zero => cases enough
  | succ fuel ih =>
    rw [Nat.succ_add]
    cases n with
    | nil => rfl
    | cons c n =>
      cases p with
      | nil => rw [matchLoop_over, matchLoop_over, back_more more ih since enough]
      | cons q p =>
        rw [matchLoop_cons, matchLoop_cons, back_more more ih since enough,
          ih since.tail (Nat.lt_of_lt_of_le cost_tail (Nat.le_of_lt_succ enough))]
        split_ifs with one sign
        · rfl
        · subst sign
          exact ih since_star (Nat.lt_of_lt_of_le since.cost_star (Nat.le_of_lt_succ enough))
        · rfl

theorem back_found {fuel : Nat}
    (ih : ∀ {p n star}, matchLoop fuel p n star = true → Found p n star)
    (goes : back fuel star = true) : Found p n star := by
  rcases star with _ | ⟨b, m⟩
  · cases goes
  · obtain ⟨k, fits⟩ := found_star.mp (ih goes)
    exact .inr ⟨b, m, rfl, k, by rwa [List.drop_tail] at fits⟩

theorem found_of_matchLoop {fuel : Nat} (accepts : matchLoop fuel p n star = true) :
    Found p n star := by
  induction fuel generalizing p n star with
  | zero => cases accepts
  | succ fuel ih =>
    cases n with
    | nil => exact .inl (fits_empty_iff.mpr accepts)
    | cons c n =>
      cases p with
      | nil => exact back_found ih (matchLoop_over fuel ▸ accepts)
      | cons q p =>
        rw [matchLoop_cons] at accepts
        split_ifs at accepts with one sign
        · by_cases char : q = '*'
          · subst char
            exact (ih accepts).imp_left fun fits => fits_star.mpr ⟨1, fits⟩
          · exact (found_mono char one).mpr (ih accepts)
        · subst sign
          exact .inl (fits_star.mpr (found_star.mp (ih accepts)))
        · exact back_found ih accepts

/-- No star of the name has been taken, and the loop has passed over no place that fits. -/
structure Held (pattern name p n : List Char) (star : Option (List Char × List Char)) : Prop where
  ahead : Ahead pattern name p n
  behind : ∀ b m, star = some (b, m) → Ahead pattern name b m ∧ (∃ q, pattern = q ++ '*' :: b) ∧
    ∃ s u, b = s ++ p ∧ m = u ++ n ∧ s.length = u.length ∧ '*' ∉ s

section Held

variable {pattern name : List Char}

theorem Held.since (held : Held pattern name p n star) : Since p n star := by
  intro b m same
  obtain ⟨-, -, s, u, pattern, name, long, -⟩ := held.behind b m same
  exact ⟨s, u, pattern, name, long⟩

theorem Held.tail (held : Held pattern name (q :: p) (c :: n) star) (char : q ≠ '*')
    (one : q = '?' ∨ lowerAscii q = lowerAscii c) : Held pattern name p n star := by
  refine ⟨held.ahead.char char one, fun b m same => ?_⟩
  obtain ⟨ahead, sign, s, u, rfl, rfl, long, free⟩ := held.behind b m same
  exact ⟨ahead, sign, s ++ [q], u ++ [c], by simp, by simp, by simp [long], by
    simp [free, Ne.symm char]⟩

theorem held_star (ahead : Ahead pattern name b m) (sign : ∃ q, pattern = q ++ '*' :: b) :
    Held pattern name b m (some (b, m)) := by
  refine ⟨ahead, ?_⟩
  rintro _ _ ⟨⟩
  exact ⟨ahead, sign, [], [], rfl, rfl, rfl, by simp⟩

theorem Held.reaches (held : Held pattern name p n (some (b, m))) {k : Nat}
    (fits : Fits b (m.drop k)) : Fits p (n.drop k) := by
  obtain ⟨-, -, s, u, rfl, rfl, long, free⟩ := held.behind b m rfl
  obtain ⟨x, y, split, head, tail⟩ := fits_append.mp fits
  have same : x.length = u.length := (fits_length free head).trans long
  have rest : n.drop k = ((u ++ n).drop k).drop u.length := by
    rw [List.drop_drop, Nat.add_comm, ← List.drop_drop, List.drop_left]
  rwa [rest, split, ← same, List.drop_left]

theorem Held.later {d : Char} (held : Held pattern name p (c :: n) (some (b, d :: m)))
    (misses : p = [] ∨ ∃ q r, p = q :: r ∧ q ≠ '*' ∧ ¬(q = '?' ∨ lowerAscii q = lowerAscii c)) :
    Held pattern name b m (some (b, m)) := by
  obtain ⟨ahead, sign, s, u, rfl, name, long, free⟩ := held.behind b (d :: m) rfl
  refine held_star (ahead.later sign fun f r same plain fits => ?_) sign
  rcases List.append_eq_append_iff.mp same with ⟨a, rfl, rest⟩ | ⟨a, rfl, rest⟩
  · -- The pattern stops fitting before the star that `f` runs up to.
    rcases misses with rfl | ⟨q, r', rfl, char, other⟩
    · simp at rest
    · rcases List.cons_eq_append_iff.mp rest with ⟨rfl, here⟩ | ⟨a, rfl, -⟩
      · exact char (List.cons.inj here).1.symm
      · obtain ⟨x, y, split, head, tail⟩ := fits_append.mp fits
        obtain ⟨c', y, rfl, one, -⟩ := (fits_char char).mp tail
        rw [name, List.length_append, long, List.take_length_add_append, List.length_cons,
          List.take_succ_cons] at split
        have first := (List.append_inj split ((fits_length free head).trans long).symm).2
        exact other ((List.cons.inj first).1 ▸ one)
  · rcases List.cons_eq_append_iff.mp rest with ⟨rfl, here⟩ | ⟨a, rfl, -⟩
    · obtain rfl | ⟨q, r', rfl, char, -⟩ := misses
      · cases here
      · exact char (List.cons.inj here).1
    · simp at free

end Held

theorem matchLoop_of_found {pattern name : List Char} (clear : Clear pattern name) {fuel : Nat}
    (held : Held pattern name p n star) (enough : cost p n star < fuel) (found : Found p n star) :
    matchLoop fuel p n star = true := by
  induction fuel generalizing p n star with
  | zero => cases enough
  | succ fuel ih =>
    cases n with
    | nil =>
      refine fits_empty_iff.mp ?_
      rcases found with fits | ⟨b, m, rfl, k, fits⟩
      · exact fits
      · simpa using held.reaches fits
    | cons c n =>
      have goes (misses : p = [] ∨ ∃ q r, p = q :: r ∧ q ≠ '*' ∧
          ¬(q = '?' ∨ lowerAscii q = lowerAscii c)) : back fuel star = true := by
        obtain fits | ⟨b, m, rfl, k, fits⟩ := found
        · rcases misses with rfl | ⟨q, r, rfl, char, other⟩
          · simp [fits_nil] at fits
          · simp [fits_char char, other] at fits
        · obtain ⟨-, -, s, u, -, name, -⟩ := held.behind b m rfl
          cases m with
          | nil => simp at name
          | cons d m =>
            exact ih (held.later misses) (Nat.lt_of_lt_of_le cost_back (Nat.le_of_lt_succ enough))
              (found_star.mpr ⟨k, fits⟩)
      cases p with
      | nil => exact (matchLoop_over fuel).trans (goes (.inl rfl))
      | cons q p =>
        rw [matchLoop_cons]
        split_ifs with one sign
        · have char : q ≠ '*' := by
            rintro rfl
            have same : lowerAscii c = '*' := (one.resolve_left (by decide)).symm
            exact held.ahead.not_star clear (star_of_lower same)
          exact ih (held.tail char one) (Nat.lt_of_lt_of_le cost_tail (Nat.le_of_lt_succ enough))
            ((found_mono char one).mp found)
        · subst sign
          obtain ⟨front, t, pattern, -⟩ := held.ahead
          refine ih (held_star held.ahead.behind ⟨front, pattern⟩)
            (Nat.lt_of_lt_of_le held.since.cost_star (Nat.le_of_lt_succ enough)) (found_star.mpr ?_)
          rcases found with fits | ⟨b, m, rfl, k, fits⟩
          · exact fits_star.mp fits
          · obtain ⟨j, fits⟩ := fits_star.mp (held.reaches fits)
            exact ⟨_, List.drop_drop ▸ fits⟩
        · exact goes (.inr ⟨q, p, rfl, sign, one⟩)

/-- The loop ends for every name and accepts nothing that does not fit. It accepts all that fits
where no star of the name stands at a star of the pattern. -/
theorem nameMatches_fits (pattern name : List Char) :
    (∀ fuel, name.length * (pattern.length + 1) + pattern.length < fuel →
        (decide (pattern = []) || matchLoop fuel pattern name none) = nameMatches pattern name) ∧
      (nameMatches pattern name = true → pattern = [] ∨ Fits pattern name) ∧
      (Clear pattern name → pattern = [] ∨ Fits pattern name →
        nameMatches pattern name = true) := by
  have since : Since pattern name none := by simp [Since]
  have bound : cost pattern name none < (name.length + 1) * (pattern.length + name.length + 2) := by
    simp only [cost, Nat.mul_add, Nat.add_mul]
    omega
  refine ⟨fun fuel enough => ?_, fun accepts => ?_, fun clear fits => ?_⟩
  · rw [nameMatches, ← matchLoop_more fuel since bound, Nat.add_comm, matchLoop_more _ since enough]
  · rw [nameMatches, Bool.or_eq_true, decide_eq_true_eq] at accepts
    exact accepts.imp_right fun accepts => by simpa [Found] using found_of_matchLoop accepts
  · rw [nameMatches, Bool.or_eq_true, decide_eq_true_eq]
    exact fits.imp_right fun fits =>
      matchLoop_of_found clear ⟨ahead_start, by simp⟩ bound (.inl fits)

/-- A star further on in the name does no harm. -/
theorem nameMatches_backup : nameMatches ['a', '*'] ['a', 'b', '*'] = true := by
  refine (nameMatches_fits ['a', '*'] ['a', 'b', '*']).2.2 (fun q r t n pattern name first =>
    ?_) (.inr ?_)
  · obtain rfl : q = ['a'] := by
      rcases q with _ | ⟨c, _ | ⟨d, q⟩⟩ <;> simp at pattern
      rw [pattern.1]
    have one := fits_length (by decide) first.1
    rcases t with _ | ⟨c, _ | ⟨d, t⟩⟩ <;> simp at one
    simp at name
    simp [← name.2]
  · exact (fits_char (by decide)).mpr ⟨'a', _, rfl, .inr rfl, fits_star.mpr ⟨2, fits_nil.mpr rfl⟩⟩

/-- A star in the name is taken for that of the pattern, and the letter behind it is left over. -/
theorem star_misses : nameMatches ['*'] ['*', 'a'] = false ∧ Fits ['*'] ['*', 'a'] :=
  ⟨by decide, fits_star.mpr ⟨2, fits_nil.mpr rfl⟩⟩

end Espix.Smbd.Wildcard
