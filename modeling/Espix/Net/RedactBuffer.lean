import Espix.Net.Redact

/-! Where the redacted URL is written.

The guard of the loop leaves room for one character and the NUL, and the authority rule copies
three. -/

namespace Espix.Net.Redact

open Lib

/-- `espix_net_redact_url` on the memory from the buffer on: the text with its NUL, and the length.
-/
def espixNetRedactUrl (url out : List Char) (len : Nat) : List Char × Nat :=
  if len = 0 then (out, 0)
  else
    let text := redactUrl url len
    (text ++ '\x00' :: out.drop (text.length + 1), text.length)

/-- The buffer alone is written, the text ends in it, and its length is returned. -/
structure Inside (url out : List Char) (len : Nat) : Prop where
  short : (espixNetRedactUrl url out len).2 < len
  ends : (espixNetRedactUrl url out len).1[(espixNetRedactUrl url out len).2]? = some '\x00'
  text : '\x00' ∉ (espixNetRedactUrl url out len).1.take (espixNetRedactUrl url out len).2
  beyond : ∀ i, len ≤ i → (espixNetRedactUrl url out len).1[i]? = out[i]?

variable {len : Nat} {out p s user rest : List Char}

theorem copyBounded_spec (len : Nat) (out text : List Char) :
    (out.length < len → (copyBounded len out text).length < len) ∧
      out.length ≤ (copyBounded len out text).length ∧
      ∀ c ∈ copyBounded len out text, c ∈ out ∨ c ∈ text := by
  induction text generalizing out with
  | nil => exact ⟨id, le_rfl, fun _ => .inl⟩
  | cons c text ih =>
    unfold copyBounded
    split
    · rename_i room
      obtain ⟨short, grows, inside⟩ := ih (out ++ [c])
      rw [List.length_append, List.length_singleton] at short grows
      exact ⟨fun _ => short room, by omega, by simpa [or_assoc] using inside⟩
    · exact ⟨id, le_rfl, fun _ => .inl⟩

theorem masked_spec (len : Nat) (out text : List Char) :
    (out.length < len → (copySecret (copyBounded len out text) len).length < len) ∧
      out.length ≤ (copySecret (copyBounded len out text) len).length ∧
      ('\x00' ∉ out → '\x00' ∉ text → '\x00' ∉ copySecret (copyBounded len out text) len) := by
  obtain ⟨short, grows, inside⟩ := copyBounded_spec len out text
  have plain (before : '\x00' ∉ out) (now : '\x00' ∉ text) : '\x00' ∉ copyBounded len out text :=
    fun member => (inside _ member).elim before now
  unfold copySecret
  split
  · rename_i room
    refine ⟨fun _ => by simpa using room, by simp; omega, fun before now => ?_⟩
    simpa using plain before now
  · exact ⟨short, grows, plain⟩

theorem secretKeys_text : ∀ key ∈ secretKeys, '\x00' ∉ key ∧ ':' ∉ key := by decide

/-- The loop turn by turn: it stops, or one of its rules takes the start of the text. -/
theorem redact_induct (len : Nat) {motive : Option Char → List Char → List Char → Prop}
    (stop : ∀ prev p out, p = [] ∨ ¬out.length + 1 < len → motive prev p out)
    (authority : ∀ prev p out, out.length + 1 < len → userinfo p = none →
      motive (some '/') p (out ++ [':', '/', '/']) → motive prev ([':', '/', '/'] ++ p) out)
    (userinfo : ∀ prev user password rest out, out.length + 1 < len →
      (':' ∉ user ∧ ∀ c ∈ user ++ ':' :: password, c ≠ '@' ∧ c ≠ '/') →
      motive (user ++ ':' :: password).getLast? ('@' :: rest)
        (copySecret (copyBounded len (out ++ [':', '/', '/']) (user ++ [':'])) len) →
      motive prev ([':', '/', '/'] ++ (user ++ ':' :: password) ++ '@' :: rest) out)
    (key : ∀ prev key value rest out, out.length + 1 < len → boundary prev = true →
      key ∈ secretKeys → '&' ∉ value → (rest = [] ∨ rest.head? = some '&') →
      motive none rest (copySecret (copyBounded len out key) len) →
      motive prev (key ++ value ++ rest) out)
    (char : ∀ prev c p out, out.length + 1 < len → ¬[':', '/', '/'] <+: c :: p →
      matchedKey prev (c :: p) = none → motive (some c) p (out ++ [c]) → motive prev (c :: p) out)
    (prev : Option Char) (p out : List Char) : motive prev p out := by
  induction size : p.length using Nat.strong_induction_on generalizing prev p out with
  | _ n ih =>
  subst size
  by_cases room : out.length + 1 < len
  swap
  · exact stop prev p out (.inr room)
  by_cases starts : [':', '/', '/'] <+: p
  · obtain ⟨p, rfl⟩ := starts
    cases found : Redact.userinfo p with
    | none => exact authority prev p out room found (ih _ (by simp; omega) _ _ _ rfl)
    | some hit =>
      obtain ⟨user, password, rest, ⟨rfl, parts⟩, -⟩ := userinfo_some found
      have step := userinfo prev user password rest out room parts (ih _ (by simp; omega) _ _ _ rfl)
      simpa using step
  · cases found : matchedKey prev p with
    | some k =>
      obtain ⟨at_edge, member, t, rfl⟩ := matchedKey_spec found
      have pos := secretKeys_pos k member
      have value := List.takeWhile_append_dropWhile (p := (· != '&')) (l := t)
      have free : '&' ∉ t.takeWhile (· != '&') := fun inside => by
        simpa using List.mem_takeWhile_imp inside
      have ends : t.dropWhile (· != '&') = [] ∨ (t.dropWhile (· != '&')).head? = some '&' :=
        (Scan.dropWhile_bne '&' t).imp_right fun ⟨rest, amp⟩ => by rw [amp, List.head?_cons]
      have less := (List.dropWhile_sublist (l := t) (· != '&')).length_le
      have step :=
        key prev k _ _ out room at_edge member free ends (ih _ (by simp; omega) _ _ _ rfl)
      rwa [List.append_assoc, value] at step
    | none =>
      cases p with
      | nil => exact stop prev [] out (.inl rfl)
      | cons c p => exact char prev c p out room starts found (ih _ (by simp) _ _ _ rfl)

theorem redactFrom_grows (prev : Option Char) (p out : List Char) :
    out.length ≤ (redactFrom len prev p out).length ∧
      ('\x00' ∉ p → '\x00' ∉ out → '\x00' ∉ redactFrom len prev p out) := by
  induction prev, p, out using redact_induct len with
  | stop prev p out ends =>
    have same : redactFrom len prev p out = out := by
      rcases ends with rfl | full
      · rfl
      · exact redactFrom_full len prev p out full
    rw [same]
    exact ⟨le_rfl, fun _ plain => plain⟩
  | authority prev p out room found ih =>
    rw [(turn_authority room found).eq]
    simp only [List.length_append, List.length_cons, List.length_nil] at ih
    exact ⟨by omega, fun left plain => ih.2 (by simpa using left) (by simpa using plain)⟩
  | userinfo prev user password rest out room parts ih =>
    rw [(turn_userinfo room parts).eq]
    obtain ⟨-, grows, stays⟩ := masked_spec len (out ++ [':', '/', '/']) (user ++ [':'])
    rw [List.length_append] at grows
    simp only [List.mem_append, List.mem_cons, not_or] at stays ih ⊢
    exact ⟨by omega, fun left plain =>
      ih.2 left.2 (stays (by simpa using plain) (by simpa using left.1.2.1))⟩
  | key prev key value rest out room at_edge member free ends ih =>
    rw [(turn_key room at_edge member free ends).eq]
    obtain ⟨-, grows, stays⟩ := masked_spec len out key
    refine ⟨grows.trans ih.1, fun left plain => ih.2 (fun inside => left (by simp [inside])) ?_⟩
    exact stays plain (secretKeys_text key member).1
  | char prev c p out room starts free ih =>
    have step : redactFrom len prev (c :: p) out = _ := (turn_char room starts free).eq
    rw [step]
    simp only [List.mem_append, List.mem_cons, not_or, List.length_append] at ih ⊢
    exact ⟨by omega, fun left plain => ih.2 left.2 ⟨plain, left.1, by simp⟩⟩

/-- Wherever a `://` is come to, there is room for it and the NUL. -/
def Roomy (len : Nat) (prev : Option Char) (p out : List Char) : Prop :=
  ∀ l r, p = l ++ [':', '/', '/'] ++ r → Logged len prev l out →
    (redactFrom len prev l out).length + 3 < len

theorem Turn.roomy_iff {prev prev' : Option Char} {out' : List Char}
    (turn : Turn len prev s p out prev' out') : Roomy len prev (s ++ p) out ↔
    Roomy len prev' p out' ∧
      ∀ l x, s = l ++ x → x ≠ [] → [':', '/', '/'] <+: x ++ p → Logged len prev l out →
        (redactFrom len prev l out).length + 3 < len := by
  have here {l r : List Char} (split : p = l ++ [':', '/', '/'] ++ r) :
      redactFrom len prev (s ++ l) out = redactFrom len prev' l out' :=
    turn l (by simp [split]) (by rintro rfl; simp [split])
  constructor
  · refine fun roomy => ⟨fun l r split logged => ?_, ?_⟩
    · rw [← here split]
      exact roomy (s ++ l) r (by simp [split]) ((turn.logged split).mpr logged)
    · rintro l x rfl - ⟨r, split⟩ logged
      exact roomy l r (by simp [← split]) logged
  · rintro ⟨later, inside⟩ l r split logged
    rw [List.append_assoc] at split
    rcases List.append_eq_append_iff.mp split with ⟨a, rfl, rest⟩ | ⟨x, rfl, rest⟩
    · rw [← List.append_assoc] at rest
      rw [here rest]
      exact later a r rest ((turn.logged rest).mp logged)
    · cases x with
      | nil =>
        have whole : p = [] ++ [':', '/', '/'] ++ r := by simpa using rest.symm
        have same := here whole
        have short := later [] r whole ((turn.logged whole).mp (by simpa using logged))
        rw [← same] at short
        simpa using short
      | cons c x => exact inside l (c :: x) rfl (by simp) ⟨r, rest⟩ logged

theorem authority_first {front l x : List Char} (plain : '/' ∉ front)
    (next : front ≠ [] → p.head? = some '@')
    (split : [':', '/', '/'] ++ front = l ++ x) (left : x ≠ [])
    (starts : [':', '/', '/'] <+: x ++ p) :
    l = [] := by
  obtain ⟨r, starts⟩ := starts
  rcases l with _ | ⟨a, _ | ⟨b, _ | ⟨c, l⟩⟩⟩
  · rfl
  · obtain rfl : ['/', '/'] ++ front = x := (List.cons.inj split).2
    simp at starts
  · obtain rfl : '/' :: front = x := (List.cons.inj (List.cons.inj split).2).2
    simp at starts
  · obtain rfl : front = l ++ x := (List.cons.inj (List.cons.inj (List.cons.inj split).2).2).2
    rcases x with _ | ⟨d, _ | ⟨e, x⟩⟩
    · exact absurd rfl left
    · have head := next (by simp)
      simp at starts
      simp [← starts.2] at head
    · obtain rfl : '/' = e := by simpa using (List.cons.inj (List.cons.inj starts).2).1
      simp at plain

theorem authority_short_iff {prev prev' : Option Char} {front out' : List Char}
    (turn : Turn len prev ([':', '/', '/'] ++ front) p out prev' out') (room : out.length + 1 < len)
    (plain : '/' ∉ front) (next : front ≠ [] → p.head? = some '@')
    (grows : out.length + 3 ≤ out'.length) (fits : out.length + 3 < len → out'.length < len)
    (ih : out'.length < len → ((redactFrom len prev' p out').length < len ↔
      Roomy len prev' p out')) :
    (redactFrom len prev ([':', '/', '/'] ++ front ++ p) out).length < len ↔
      Roomy len prev ([':', '/', '/'] ++ front ++ p) out := by
  rw [turn.eq, turn.roomy_iff]
  by_cases wide : out.length + 3 < len
  · rw [ih (fits wide), and_iff_left]
    rintro l x split left starts -
    rw [authority_first plain next split left starts]
    exact wide
  · have long := (@redactFrom_grows len prev' p out').1
    refine iff_of_false (by omega) fun roomy => wide ?_
    exact roomy.2 [] _ rfl (by simp) (by simp) (logged_nil room)

theorem redactFrom_short_iff (prev : Option Char) (p out : List Char) (bound : out.length < len) :
    (redactFrom len prev p out).length < len ↔ Roomy len prev p out := by
  induction prev, p, out using redact_induct len with
  | stop prev p out ends =>
    rcases ends with rfl | full
    · exact iff_of_true bound (by simp [Roomy])
    · rw [redactFrom_full len prev p out full]
      exact iff_of_true bound fun l r _ logged => absurd logged (not_logged_full full)
  | authority prev p out room found ih =>
    exact @authority_short_iff _ _ _ _ _ [] _ (turn_authority room found) room (by simp) (by simp)
      (by simp) (by simp) ih
  | userinfo prev user password rest out room parts ih =>
    obtain ⟨short, grows, -⟩ := masked_spec len (out ++ [':', '/', '/']) (user ++ [':'])
    exact authority_short_iff (turn_userinfo room parts) room (fun slash => (parts.2 _ slash).2 rfl)
      (by simp) (by simpa using grows) (by simpa using short) ih
  | key prev key value rest out room at_edge member free ends ih =>
    have turn := turn_key room at_edge member free ends
    rw [turn.eq, turn.roomy_iff, ih ((masked_spec len out key).1 bound), and_iff_left]
    intro l x split left starts logged
    -- The value is dropped, so no colon of it is logged.
    obtain ⟨r, starts⟩ := starts
    obtain ⟨x, rfl⟩ : ∃ y, x = ':' :: y := by
      cases x with
      | nil => exact absurd rfl left
      | cons d x => exact ⟨x, by rw [← (List.cons.inj starts).1]⟩
    obtain ⟨v, rfl, rfl⟩ : ∃ v, l = key ++ v ∧ value = v ++ ':' :: x := by
      rcases List.append_eq_append_iff.mp split with ⟨v, rfl, rfl⟩ | ⟨k, rfl, tail⟩
      · exact ⟨v, rfl, rfl⟩
      · cases k with
        | nil => exact ⟨[], by simp, by simpa using tail.symm⟩
        | cons d k =>
          obtain rfl := (List.cons.inj tail).1
          exact absurd (by simp) (secretKeys_text _ member).2
    have dropped (v : List Char) (free : '&' ∉ v) :
        redactFrom len prev (key ++ v) out = copySecret (copyBounded len out key) len := by
      have whole := (turn_key room at_edge member free (.inl rfl)).eq
      rwa [List.append_nil] at whole
    simp only [List.mem_append, List.mem_cons, not_or] at free
    rw [Logged, List.append_assoc, dropped _ (by simp [free.1]), dropped v free.1] at logged
    simp at logged
  | char prev c p out room starts free ih =>
    have turn := turn_char room starts free
    rw [← List.singleton_append, turn.eq, turn.roomy_iff, ih (by simpa using room), and_iff_left]
    intro l x split left starts'
    rcases l with _ | ⟨d, l⟩
    · obtain rfl : [c] = x := split
      exact absurd starts' starts
    · simp at split
      exact absurd split.2.2 left

end Espix.Net.Redact
