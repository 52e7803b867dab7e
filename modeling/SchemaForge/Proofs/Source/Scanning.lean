import SchemaForge.Proofs.Number.Legible
import SchemaForge.Source.Loading

/-!
# What a scan finds

Every token of a scan lies within the text, has a first character, and is in the shape of a number
if it is one (`isScanned_tokens`). The place at which a scan gets stuck lies within the text too.
-/

namespace SchemaForge.Source

open Number (IsRun IsExponent IsMagnitude signChars)

variable {cs rest : List Char} {c : Char} {n : ℕ}

/-! ## Numbers -/

/-- As many characters as `countWhile` counts are those that satisfy the test. -/
theorem take_countWhile (p : Char → Bool) (cs : List Char) :
    cs.take (countWhile p cs) = cs.takeWhile p :=
  (List.prefix_iff_eq_take.mp (List.takeWhile_prefix p)).symm

/-- The characters that are counted as digits in front of a text are digits. -/
theorem isDigit_of_mem_take (h : c ∈ cs.take (countWhile Text.isDigit cs)) :
    Text.isDigit c = true := by
  rw [take_countWhile] at h
  exact (List.all_eq_true.mp List.all_takeWhile) c h

/-- The digits in front of a text are a run (`Number.IsRun`) if there are any. -/
theorem isRun_take (h : countWhile Text.isDigit cs ≠ 0) :
    IsRun (cs.take (countWhile Text.isDigit cs)) := by
  refine ⟨fun hnil => h ?_, fun c hc => isDigit_of_mem_take hc⟩
  rw [take_countWhile] at hnil
  rw [countWhile, hnil, List.length_nil]

/-- A mark, a sign and digits, which are counted behind the sign, are an exponent. -/
theorem isExponent_cons {mark : Char} {sign : ℕ} (hm : mark = 'e' ∨ mark = 'E')
    (hs : rest.take sign = [] ∨ rest.take sign = ['+'] ∨ rest.take sign = ['-'])
    (hn : countWhile Text.isDigit (rest.drop sign) ≠ 0) :
    IsExponent ((mark :: rest).take (1 + sign + countWhile Text.isDigit (rest.drop sign))) := by
  have htake : (mark :: rest).take (1 + sign + countWhile Text.isDigit (rest.drop sign))
      = mark :: (rest.take sign
        ++ (rest.drop sign).take (countWhile Text.isDigit (rest.drop sign))) := by
    rw [Nat.add_assoc, Nat.add_comm 1, List.take_succ_cons, List.take_add]
  rw [htake]
  exact .some hm hs (isRun_take hn)

/-- What `exponentLength` measures in front of a text has the shape of an exponent. -/
theorem isExponent_take (cs : List Char) : IsExponent (cs.take (exponentLength cs)) := by
  cases cs with
  | nil => exact .none
  | cons c rest =>
    unfold exponentLength
    dsimp only
    split_ifs with hm hn
    · exact .none
    · refine isExponent_cons hm ?_ hn
      split
      · exact .inr (.inl rfl)
      · exact .inr (.inr rfl)
      · exact .inl rfl
    · exact .none

/-- What `magnitudeLength?` measures in front of a text has the shape of a number without sign. -/
theorem isMagnitude_take (h : magnitudeLength? cs = some n) : IsMagnitude (cs.take n) := by
  obtain ⟨m, hm, rfl⟩ := Option.map_eq_some_iff.mp h
  rw [List.take_add]
  have he := isExponent_take (cs.drop m)
  unfold mantissaLength? at hm
  dsimp only at hm
  split at hm
  · rename_i rest hrest
    split_ifs at hm with hnone
    cases hm
    have htake : cs.take (countWhile Text.isDigit cs + 1 + countWhile Text.isDigit rest)
        = cs.take (countWhile Text.isDigit cs)
          ++ '.' :: rest.take (countWhile Text.isDigit rest) := by
      rw [Nat.add_assoc, List.take_add, hrest, Nat.add_comm 1, List.take_succ_cons]
    rw [htake, List.append_assoc, List.cons_append]
    refine .pointed (fun c hc => isDigit_of_mem_take hc) (fun c hc => isDigit_of_mem_take hc) ?_ he
    -- A point alone is no number: there are digits in front of it or behind it.
    by_cases hw : countWhile Text.isDigit cs = 0
    · exact .inr (isRun_take fun hp => hnone ⟨hw, hp⟩).ne_nil
    · exact .inl (isRun_take hw).ne_nil
  · split_ifs at hm with hw
    cases hm
    exact .whole (isRun_take hw) he

/-- A text in the shape of a number with a sign, so that it can be read as one. -/
def IsNumber (cs : List Char) : Prop :=
  ∃ negative magnitude, cs = signChars negative ++ magnitude ∧ IsMagnitude magnitude

/-- A number begins with its first character, so what `magnitudeLength?` finds is not empty. -/
theorem magnitudeLength?_ne_zero : magnitudeLength? cs ≠ some 0 := by
  intro h
  obtain ⟨c, rest, hnil, -⟩ := (isMagnitude_take h).exists_cons
  cases hnil

/-- What the scanner takes for a number has the shape of one, with or without a sign. -/
theorem isNumber_of_lexeme? (h : lexeme? c rest = some (.token .number, n)) :
    IsNumber (c :: rest.take n) := by
  unfold lexeme? at h
  -- Only the two branches in which a number is measured give one.
  split at h
  · cases h
  split at h
  · split at h
    · cases h
    · obtain ⟨m, -, hm⟩ := Option.map_eq_some_iff.mp h
      cases hm
    · cases h
  split at h
  · obtain ⟨m, -, hm⟩ := Option.map_eq_some_iff.mp h
    cases hm
  split at h
  · rename_i hminus
    obtain ⟨m, hm, heq⟩ := Option.map_eq_some_iff.mp h
    cases heq
    exact ⟨true, _, by rw [hminus]; rfl, isMagnitude_take hm⟩
  split at h
  · rename_i m hm
    cases h
    have htake := isMagnitude_take hm
    cases m with
    | zero => exact absurd hm magnitudeLength?_ne_zero
    | succ m => exact ⟨false, _, rfl, htake⟩
  · split at h
    · cases h
    · split at h
      · cases h
      · cases h

/-! ## Tokens -/

/-- A token as it may be found in a text of length `stop`: it lies within the text, has a first
character, and has the shape of a number if it is one. -/
structure IsScanned (stop : ℕ) (t : Token) : Prop where
  /-- It begins within the text. -/
  position : t.position < stop
  /-- It has a first character. -/
  ne_nil : t.text.toList ≠ []
  /-- If it is a number, it is in the shape of one. -/
  isNumber : t.kind = .number → IsNumber t.text.toList

/-- What is left behind a lexeme lies within the text, unless nothing is left. -/
theorem drop_within {stop position : ℕ}
    (hstop : c :: rest ≠ [] → position + (c :: rest).length ≤ stop) (hne : rest.drop n ≠ []) :
    position + 1 + n + (rest.drop n).length ≤ stop := by
  have hlen := hstop (List.cons_ne_nil c rest)
  have hlong : 0 < (rest.drop n).length := List.length_pos_iff.mpr hne
  rw [List.length_cons] at hlen
  rw [List.length_drop] at hlong ⊢
  omega

/-- A scan of a part of a text finds tokens of the text, and gets stuck within it. The induction is
on the scan, with the tokens that are found already. -/
theorem isScanned_scanFrom {stop position : ℕ} {done : List Token}
    (hstop : cs ≠ [] → position + cs.length ≤ stop) (hdone : ∀ t ∈ done, IsScanned stop t) :
    (∀ t ∈ (scanFrom position done cs).tokens, IsScanned stop t) ∧
      ∀ s ∈ (scanFrom position done cs).stuck, s.2 < stop := by
  induction position, done, cs using scanFrom.induct with
  | case1 position done =>
    unfold scanFrom
    exact ⟨fun t ht => hdone t (List.mem_reverse.mp ht), fun s hs => nomatch hs⟩
  -- What the scan is stuck at is still within the text.
  | case2 position done c rest hnone =>
    unfold scanFrom
    rw [hnone]
    have hlen := hstop (List.cons_ne_nil c rest)
    rw [List.length_cons] at hlen
    refine ⟨fun t ht => hdone t (List.mem_reverse.mp ht), ?_⟩
    rintro s ⟨⟩
    show position < stop
    omega
  | case3 position done c rest kind n hlexeme ih =>
    unfold scanFrom
    rw [hlexeme]
    have hlen := hstop (List.cons_ne_nil c rest)
    rw [List.length_cons] at hlen
    refine ih (drop_within hstop) fun t ht => ?_
    rcases List.mem_cons.mp ht with rfl | ht
    · refine ⟨by show position < stop; omega, by simp, fun hkind => ?_⟩
      obtain rfl : kind = .number := hkind
      rw [String.toList_ofList]
      exact isNumber_of_lexeme? hlexeme
    · exact hdone t ht
  | case4 position done c rest lexeme n hlexeme hlexeme' ih =>
    unfold scanFrom
    rw [hlexeme']
    have hrest : rest.drop n ≠ [] → position + 1 + n + (rest.drop n).length ≤ stop :=
      drop_within hstop
    cases lexeme with
    | token kind => exact absurd rfl (hlexeme kind)
    | blank => exact ih hrest hdone
    | comment => exact ih hrest hdone

/-- A scan of a text finds tokens of the text, and gets stuck within the text. -/
theorem isScanned_scan (text : List Char) :
    (∀ t ∈ (scan text).tokens, IsScanned text.length t) ∧
      ∀ s ∈ (scan text).stuck, s.2 < text.length :=
  isScanned_scanFrom (fun _ => by omega) fun _ ht => absurd ht List.not_mem_nil

/-- The `tokens` of a text are as they may be found in it. -/
theorem isScanned_tokens {text : List Char} {ts : List Token} (h : tokens text = .ok ts) :
    ∀ t ∈ ts, IsScanned text.length t := by
  have hscan := isScanned_scan text
  unfold tokens at h
  dsimp only at h
  split at h
  · cases h
    exact hscan.1
  · cases h

/-- An error whose place, if it has one, is not behind the end of a text of length `stop`. -/
def Error.IsWithin (stop : ℕ) (e : Error) : Prop := ∀ p ∈ e.position, p ≤ stop

/-- An error of `tokens` has its place within the text. -/
theorem isWithin_tokens {text : List Char} {e : Error} (h : tokens text = .error e) :
    e.IsWithin text.length := by
  have hscan := isScanned_scan text
  unfold tokens at h
  dsimp only at h
  split at h
  · cases h
  · rename_i c position hstuck
    cases h
    rintro p ⟨⟩
    exact (hscan.2 (c, position) hstuck).le

end SchemaForge.Source
