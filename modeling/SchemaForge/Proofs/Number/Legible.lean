import Mathlib.Tactic.IntervalCases
import SchemaForge.Proofs.Number.Numeral

/-!
# Numbers in digits of any script

A text in the shape of a number can be read, whatever script its digits are of
(`readDouble?_isSome`), and as an integer if it consists of digits only (`readInt?_isSome`). What
may go wrong with the shape of a number is known beforehand: digits are neither blanks nor signs,
and they begin no name.
-/

namespace SchemaForge.Number

variable {c : Char} {ds rest cs : List Char}

/-! ## Digits of any script -/

/-- The code points of all characters that count as blanks in front of a number and behind it. -/
def blankCodes : List ℕ :=
  List.range' 9 5 ++ (List.range' 0x1c 5 ++ ([0x85, 0xa0, 0x1680]
    ++ (List.range' 0x2000 11 ++ [0x2028, 0x2029, 0x202f, 0x205f, 0x3000])))

/-- The blanks are the characters of `blankCodes`, so that what holds of all of them can be
decided. -/
theorem mem_blankCodes (h : Text.isBlank c = true) : c.toNat ∈ blankCodes := by
  simp only [Text.isBlank, Bool.or_eq_true, Bool.and_eq_true, decide_eq_true_eq, beq_iff_eq] at h
  simp only [blankCodes, List.mem_append, List.mem_range'_1, List.mem_cons, List.not_mem_nil,
    or_false]
  omega

/-- A digit of any script is no blank, so that trimming a number takes none of its digits. -/
theorem isBlank_of_isDigit (h : Text.isDigit c = true) : Text.isBlank c = false := by
  by_contra hblank
  rw [Bool.not_eq_false] at hblank
  have hnot : ∀ n ∈ blankCodes, Text.isDigit (Char.ofNat n) = false := by decide
  have hc := hnot _ (mem_blankCodes hblank)
  rw [Char.ofNat_toNat, h] at hc
  cases hc

/-- What is no digit by `Text.isDigit` is another character than any digit. -/
theorem ne_of_isDigit (h : Text.isDigit c = true) {d : Char} (hd : Text.isDigit d = false) :
    c ≠ d := by
  rintro rfl
  cases h.symm.trans hd

/-- A digit of any script has a value. -/
theorem exists_digitValue (h : Text.isDigit c = true) : ∃ d, Text.digitValue? c = some d :=
  Option.isSome_iff_exists.mp h

/-- Digits that follow others are read by `digitTail` up to where they stop. -/
theorem exists_digitTail (h : ∀ c ∈ ds, Text.isDigit c = true) (hrest : StopsDigits rest) :
    ∃ values, digitTail (ds ++ rest) = (values, rest) := by
  induction ds with
  | nil => exact ⟨[], digitTail_digits hrest fun _ hd => absurd hd List.not_mem_nil⟩
  | cons c ds ih =>
    obtain ⟨values, hvalues⟩ := ih fun d hd => h d (List.mem_cons_of_mem c hd)
    have hc := h c List.mem_cons_self
    -- A digit is no underscore, so the reader takes it and goes on.
    obtain ⟨d, hd⟩ := exists_digitValue hc
    refine ⟨d :: values, ?_⟩
    rw [List.cons_append, digitTail.eq_3 _ _ fun _ _ hu _ => ne_of_isDigit hc (by decide) hu, hd]
    dsimp only
    rw [hvalues]

/-- A run of digits of any script, and at least one, as the reader of numbers takes them
together. -/
structure IsRun (ds : List Char) : Prop where
  /-- There is a digit. -/
  ne_nil : ds ≠ []
  /-- All are digits. -/
  isDigit : ∀ c ∈ ds, Text.isDigit c = true

/-- At a text that stops digits, `digitRun` reads none. -/
theorem digitRun_of_stops (hrest : StopsDigits rest) : digitRun rest = ([], rest) := by
  cases rest with
  | nil => rfl
  | cons c rest => rw [digitRun, (hrest c rfl).1]

/-- Digits are read by `digitRun` up to where they stop, and it finds values if there are any
digits. -/
theorem exists_digitRun (h : ∀ c ∈ ds, Text.isDigit c = true) (hrest : StopsDigits rest) :
    ∃ values, digitRun (ds ++ rest) = (values, rest) ∧ (values = [] → ds = []) := by
  cases ds with
  | nil => exact ⟨[], digitRun_of_stops hrest, fun _ => rfl⟩
  | cons c ds =>
    obtain ⟨v, hv⟩ := exists_digitValue (h c List.mem_cons_self)
    obtain ⟨values, hvalues⟩ :=
      exists_digitTail (fun d hd => h d (List.mem_cons_of_mem c hd)) hrest
    refine ⟨v :: values, ?_, fun hnil => nomatch hnil⟩
    rw [List.cons_append, digitRun, hv]
    dsimp only
    rw [hvalues]

/-- The function `digitRun` reads a run of digits to its end and finds at least one value. -/
theorem IsRun.exists_digitRun (h : IsRun ds) (hrest : StopsDigits rest) :
    ∃ v values, digitRun (ds ++ rest) = (v :: values, rest) := by
  obtain ⟨values, hrun, hempty⟩ := Number.exists_digitRun h.isDigit hrest
  cases values with
  | nil => exact absurd (hempty rfl) h.ne_nil
  | cons v values => exact ⟨v, values, hrun⟩

/-! ## The shape of a number -/

/-- The text of an exponent: nothing at all, or a mark, perhaps a sign, and a run of digits. -/
inductive IsExponent : List Char → Prop
  /-- No exponent. -/
  | none : IsExponent []
  /-- An exponent behind its mark. -/
  | some {mark : Char} {sign ds : List Char} (hm : mark = 'e' ∨ mark = 'E')
      (hs : sign = [] ∨ sign = ['+'] ∨ sign = ['-']) (hd : IsRun ds) :
      IsExponent (mark :: (sign ++ ds))

/-- The text of a number without sign: digits, among which there may be a point, and an exponent.
Digits may be missing on one side of the point. -/
inductive IsMagnitude : List Char → Prop
  /-- A number without a point. -/
  | whole {ds exponent : List Char} (hd : IsRun ds) (he : IsExponent exponent) :
      IsMagnitude (ds ++ exponent)
  /-- A number with a point. -/
  | pointed {ds part exponent : List Char} (hd : ∀ c ∈ ds, Text.isDigit c = true)
      (hp : ∀ c ∈ part, Text.isDigit c = true) (hne : ds ≠ [] ∨ part ≠ [])
      (he : IsExponent exponent) : IsMagnitude (ds ++ '.' :: (part ++ exponent))

/-- An exponent stops the digits before it, being empty or beginning with its mark. -/
theorem IsExponent.stopsDigits (h : IsExponent cs) : StopsDigits cs := by
  cases h with
  | none => exact stopsDigits_nil
  | some hm =>
    rcases hm with rfl | rfl
    · exact stopsDigits_cons rfl (by decide)
    · exact stopsDigits_cons rfl (by decide)

/-- The reader `takeSign` takes a sign off that stands in front of digits, and leaves digits
alone. -/
theorem takeSign_run {sign : List Char} (hs : sign = [] ∨ sign = ['+'] ∨ sign = ['-'])
    (hd : IsRun ds) : (takeSign (sign ++ ds)).2 = ds := by
  rcases hs with rfl | rfl | rfl
  · obtain ⟨c, more, rfl⟩ := List.exists_cons_of_ne_nil hd.ne_nil
    have hc := hd.isDigit c List.mem_cons_self
    rw [List.nil_append, takeSign]
    · exact fun _ h => ne_of_isDigit hc (by decide) (List.cons.inj h).1
    · exact fun _ h => ne_of_isDigit hc (by decide) (List.cons.inj h).1
  · rfl
  · rfl

/-- The reader `readExponent?` reads every text in the shape of an exponent. -/
theorem IsExponent.isSome (h : IsExponent cs) : (readExponent? cs).isSome = true := by
  cases h with
  | none => rfl
  | @some mark sign ds hm hs hd =>
    obtain ⟨v, values, hrun⟩ := hd.exists_digitRun stopsDigits_nil
    rw [List.append_nil] at hrun
    rw [readExponent?, if_pos hm]
    dsimp only
    rw [takeSign_run hs hd, hrun]
    rfl

/-- The reader `readMagnitude?` reads every text in the shape of a number without sign. -/
theorem IsMagnitude.isSome (h : IsMagnitude cs) (negative : Bool) :
    (readMagnitude? negative cs).isSome = true := by
  cases h with
  | @whole ds exponent hd he =>
    obtain ⟨v, values, hrun⟩ := hd.exists_digitRun he.stopsDigits
    have hsome := he.isSome
    cases he with
    | none =>
      rw [readMagnitude?, hrun]
      rfl
    | some hm hs hd =>
      rcases hm with rfl | rfl
      · simp [readMagnitude?, hrun, hsome]
      · simp [readMagnitude?, hrun, hsome]
  | @pointed ds part exponent hd hp hne he =>
    have hstop : StopsDigits ('.' :: (part ++ exponent)) := stopsDigits_cons rfl (by decide)
    obtain ⟨values, hrun, hempty⟩ := exists_digitRun hd hstop
    obtain ⟨parts, hpart, hempty'⟩ := exists_digitRun hp he.stopsDigits
    simp only [readMagnitude?, hrun, hpart]
    rw [if_neg, Option.isSome_map]
    · exact he.isSome
    -- There are digits in front of the point or behind it.
    · intro hnone
      obtain ⟨hv, hp⟩ := Bool.and_eq_true_iff.mp hnone
      exact hne.elim (fun h => h (hempty (List.isEmpty_iff.mp hv)))
        fun h => h (hempty' (List.isEmpty_iff.mp hp))

/-! ## Signs, blanks and names -/

/-- The characters that may occur in a number and are no digits: the point, the letter of an
exponent and the signs. -/
def numberMarks : List Char := ['.', 'e', 'E', '+', '-']

/-- An exponent consists of digits and of `numberMarks`. -/
theorem IsExponent.mem (h : IsExponent cs) (hc : c ∈ cs) :
    Text.isDigit c = true ∨ c ∈ numberMarks := by
  cases h with
  | none => cases hc
  | some hm hs hd =>
    rcases List.mem_cons.mp hc with rfl | hc
    · rcases hm with rfl | rfl
      · exact .inr (by decide)
      · exact .inr (by decide)
    · rcases List.mem_append.mp hc with hc | hc
      · rcases hs with rfl | rfl | rfl
        · cases hc
        · exact .inr (List.mem_singleton.mp hc ▸ by decide)
        · exact .inr (List.mem_singleton.mp hc ▸ by decide)
      · exact .inl (hd.isDigit c hc)

/-- Every character of a number is a digit or one of `numberMarks`. -/
theorem IsMagnitude.mem (h : IsMagnitude cs) (hc : c ∈ cs) :
    Text.isDigit c = true ∨ c ∈ numberMarks := by
  -- A magnitude is made of digits, a point and an exponent, in this order.
  cases h with
  | whole hd he =>
    rcases List.mem_append.mp hc with hc | hc
    · exact .inl (hd.isDigit c hc)
    · exact he.mem hc
  | pointed hd hp hne he =>
    rcases List.mem_append.mp hc with hc | hc
    · exact .inl (hd c hc)
    rcases List.mem_cons.mp hc with rfl | hc
    · exact .inr (by decide)
    rcases List.mem_append.mp hc with hc | hc
    · exact .inl (hp c hc)
    · exact he.mem hc

/-- A number begins with a digit or with its point, and is never empty. -/
theorem IsMagnitude.exists_cons (h : IsMagnitude cs) :
    ∃ c rest, cs = c :: rest ∧ (Text.isDigit c = true ∨ c = '.') := by
  cases h with
  | whole hd =>
    obtain ⟨c, more, rfl⟩ := List.exists_cons_of_ne_nil hd.ne_nil
    exact ⟨c, _, rfl, .inl (hd.isDigit c List.mem_cons_self)⟩
  | @pointed ds part exponent hd =>
    cases ds with
    | nil => exact ⟨'.', _, rfl, .inr rfl⟩
    | cons c more => exact ⟨c, _, rfl, .inl (hd c List.mem_cons_self)⟩

/-- The function `trimBlank` leaves a number with a sign as it is, since neither digits nor marks
are blanks. -/
theorem IsMagnitude.trimBlank_eq (h : IsMagnitude cs) (negative : Bool) :
    trimBlank (signChars negative ++ cs) = signChars negative ++ cs := by
  have hany : numberMarks.any Text.isNumberBlank = false := by decide
  have hmarks : ∀ c ∈ numberMarks, Text.isNumberBlank c = false := fun c hc =>
    Bool.eq_false_iff.mpr (List.any_eq_false.mp hany c hc)
  -- Blanks are cut off at both ends, so it is enough that no character is one.
  refine trimBlank_of_forall fun c hc => ?_
  rcases List.mem_append.mp hc with hc | hc
  · cases negative with
    | true => exact hmarks c (List.mem_singleton.mp hc ▸ by decide)
    | false => cases hc
  · rcases h.mem hc with hdigit | hmark
    · rw [Text.isNumberBlank, isBlank_of_isDigit hdigit, Bool.false_and]
    · exact hmarks c hmark

/-- The reader `takeSign` takes the sign off that is written in front of a number, and nothing
else. -/
theorem IsMagnitude.takeSign_eq (h : IsMagnitude cs) (negative : Bool) :
    takeSign (signChars negative ++ cs) = (negative, cs) := by
  cases negative with
  | true => rfl
  | false =>
    obtain ⟨c, rest, rfl, hc⟩ := h.exists_cons
    -- A digit or a point is not taken for a sign.
    have hne : ∀ d, Text.isDigit d = false → d ≠ '.' → c ≠ d := by
      intro d hd hpoint
      rcases hc with hc | rfl
      · exact ne_of_isDigit hc hd
      · exact hpoint.symm
    show takeSign (c :: rest) = _
    rw [takeSign]
    · exact fun _ h => hne '-' (by decide) (by decide) (List.cons.inj h).1
    · exact fun _ h => hne '+' (by decide) (by decide) (List.cons.inj h).1

/-- A digit has no other case: making it a small letter leaves it as it is. -/
theorem toLower_of_isDigit (h : Text.isDigit c = true) : c.toLower = c := by
  have hcapital : ¬(c.val ≥ 'A'.val ∧ c.val ≤ 'Z'.val) := by
    rintro ⟨hlow, hhigh⟩
    have hnot : ∀ n ∈ List.range' 65 26, Text.isDigit (Char.ofNat n) = false := by decide
    have hlow : 65 ≤ c.toNat := UInt32.le_iff_toNat_le.mp hlow
    have hhigh : c.toNat ≤ 90 := UInt32.le_iff_toNat_le.mp hhigh
    have hd := hnot c.toNat (List.mem_range'_1.mpr (by omega))
    rw [Char.ofNat_toNat, h] at hd
    cases hd
  exact dif_neg hcapital

/-- A number is none of the names of numbers, which all begin with letters. -/
theorem IsMagnitude.toLower_ne (h : IsMagnitude cs) {name : String}
    (hname : name.toList.head?.all (fun c => !Text.isDigit c && c != '.') = true) :
    String.ofList (cs.map Char.toLower) ≠ name := by
  rintro rfl
  obtain ⟨c, rest, rfl, hc⟩ := h.exists_cons
  rw [String.toList_ofList] at hname
  obtain ⟨hdigit, hpoint⟩ := Bool.and_eq_true_iff.mp hname
  rcases hc with hc | rfl
  · rw [toLower_of_isDigit hc, hc] at hdigit
    cases hdigit
  · cases hpoint

/-- The reader `readDouble?` reads every text in the shape of a number with a sign. -/
theorem readDouble?_isSome (h : IsMagnitude cs) (negative : Bool) :
    (readDouble? (signChars negative ++ cs)).isSome = true := by
  unfold readDouble?
  rw [h.trimBlank_eq, h.takeSign_eq]
  dsimp only
  rw [if_neg, if_neg]
  · exact h.isSome negative
  · exact h.toLower_ne (by decide)
  · rintro (hinf | hinf)
    · exact h.toLower_ne (by decide) hinf
    · exact h.toLower_ne (by decide) hinf

/-- The reader `readInt?` reads every text in the shape of a number with a sign, if it has neither
point nor exponent. -/
theorem readInt?_isSome (h : IsMagnitude cs) (negative : Bool)
    (hmarks : ∀ c ∈ cs, c ≠ '.' ∧ c ≠ 'e' ∧ c ≠ 'E') :
    (readInt? (signChars negative ++ cs)).isSome = true := by
  -- Without point and exponent the text is a run of digits and nothing else.
  have hrun : IsRun cs := by
    cases h with
    | whole hd he =>
      cases he with
      | none => rwa [List.append_nil]
      | @some mark sign ds hm hs =>
        obtain ⟨-, he, hE⟩ := hmarks mark (by simp)
        exact absurd hm (not_or.mpr ⟨he, hE⟩)
    | pointed => exact absurd rfl (hmarks '.' (by simp)).1
  obtain ⟨v, values, hread⟩ := hrun.exists_digitRun stopsDigits_nil
  rw [List.append_nil] at hread
  rw [readInt?, h.trimBlank_eq, h.takeSign_eq]
  dsimp only
  rw [hread]
  rfl

end SchemaForge.Number
