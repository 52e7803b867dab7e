import Mathlib.Logic.Relation
import SchemaForge.Proofs.Source.Frame
import SchemaForge.Proofs.Source.Renaming

/-!
# Tokens rewritten

`Rewrites` says what a formatter may do to the tokens of a module: write a text between other
quotes, write a key without quotes, put or leave out a comma behind the last part of an object, an
array or arguments, and import the constructors under another alias.

All of these are cases of one relation, `Rewritten`, that goes through the tokens once. Tokens that
derive a phrase are rewritten to tokens that derive the same phrase under the new alias
(`survives_of_derives`).
-/

namespace SchemaForge.Source

open Value (renamed renamedAll renamedPath)

/-! ## What may be rewritten -/

/-- The shape of the point between the parts of a dotted name. -/
def point : Shape := (.punctuation, ".")

/-- The shape of the comma between two parts, which may be put or left out behind the last one. -/
def comma : Shape := (.punctuation, ",")

/-- The shape of the colon behind a key. -/
def colon : Shape := (.punctuation, ":")

/-- The marks behind which no comma may stand as a last one: those that open, and the comma
itself. -/
def openers : List Shape :=
  [(.punctuation, "\x7b"), (.punctuation, "("), (.punctuation, "["), comma]

/-- Whether a token behind another one is the alias at the head of a dotted name: no point stands in
front of it, and one stands behind it. -/
def isHead (builder : String) (before s : Shape) (behind : List Shape) : Bool :=
  s == (.name, builder) && before != point && behind.head? == some point

/-- The tokens behind another one, with another alias at the heads of dotted names. -/
def renameHeads (old new : String) : Shape → List Shape → List Shape
  | _, [] => []
  | before, s :: ss =>
    (if isHead old before s ss then (.name, new) else s) :: renameHeads old new s ss

/-- The shapes of the beginning of an import, up to the alias. -/
def importHead (builder : String) : List Shape :=
  [(.name, "import"), (.punctuation, "\x7b"), (.name, "Schema"), (.name, "as"), (.name, builder)]

/-- What a formatter may do to the tokens of a module in one step: other quotes, a key without
quotes or with them, a comma more or less at the end of a list, or another alias. -/
inductive Rewrites : List Shape → List Shape → Prop
  /-- A text is written in another way. -/
  | requote {before behind : List Shape} {s x y : String} (hx : IsLiteral s x)
      (hy : IsLiteral s y) :
      Rewrites (before ++ (.string, x) :: behind) (before ++ (.string, y) :: behind)
  /-- The path of the import, in which nothing was escaped, is written in another way. -/
  | requotePath {before behind : List Shape} {path y : String} (hy : IsLiteral path y) :
      Rewrites (before ++ (.name, "from") :: (.string, barePath path) :: behind)
        (before ++ (.name, "from") :: (.string, y) :: behind)
  /-- A key that is a name is written without quotes. -/
  | unquote {before behind : List Shape} {key x : String} (hx : IsLiteral key x)
      (hkey : isName key = true) :
      Rewrites (before ++ (.string, x) :: colon :: behind)
        (before ++ (.name, key) :: colon :: behind)
  /-- A comma is put behind the last part. -/
  | addComma {before behind : List Shape} {s : Shape} {closing : String} (hs : s ∉ openers)
      (hc : closing ∈ closers) :
      Rewrites (before ++ s :: (.punctuation, closing) :: behind)
        (before ++ s :: comma :: (.punctuation, closing) :: behind)
  /-- The comma behind the last part is left out. -/
  | dropComma {before behind : List Shape} {s : Shape} {closing : String} (hs : s ∉ openers)
      (hc : closing ∈ closers) :
      Rewrites (before ++ s :: comma :: (.punctuation, closing) :: behind)
        (before ++ s :: (.punctuation, closing) :: behind)
  /-- The constructors are imported under another alias, and called under it. -/
  | rename {old new : String} {behind : List Shape} (hname : isName new = true)
      (hconst : new ∉ Entries.keys constants) :
      Rewrites (importHead old ++ behind)
        (importHead new ++ renameHeads old new (.name, old) behind)

/-! ## One pass -/

/-- What tokens behind another one may become in one pass, in which the alias may become another
one. All steps of `Rewrites` are passes. -/
inductive Rewritten (old new : String) : Shape → List Shape → List Shape → Prop
  /-- Nothing. -/
  | nil {p : Shape} : Rewritten old new p [] []
  /-- A token stays. -/
  | keep {p s : Shape} {ss ts : List Shape} (hs : isHead old p s ss = false)
      (h : Rewritten old new s ss ts) : Rewritten old new p (s :: ss) (s :: ts)
  /-- An alias at the head of a dotted name becomes another one. -/
  | rename {p s : Shape} {ss ts : List Shape} (hs : isHead old p s ss = true)
      (h : Rewritten old new s ss ts) : Rewritten old new p (s :: ss) ((.name, new) :: ts)
  /-- A text is written in another way. -/
  | requote {p : Shape} {s x y : String} {ss ts : List Shape} (hx : IsLiteral s x)
      (hy : IsLiteral s y) (h : Rewritten old new (.string, x) ss ts) :
      Rewritten old new p ((.string, x) :: ss) ((.string, y) :: ts)
  /-- A path is written in another way. -/
  | requotePath {x y : String} {ss ts : List Shape} (h : Rewritten old new (.string, x) ss ts) :
      Rewritten old new (.name, "from") ((.string, x) :: ss) ((.string, y) :: ts)
  /-- A key that is a name is written without quotes. -/
  | unquote {p : Shape} {key x : String} {ss ts : List Shape} (hx : IsLiteral key x)
      (hkey : isName key = true) (h : Rewritten old new colon ss ts) :
      Rewritten old new p ((.string, x) :: colon :: ss) ((.name, key) :: colon :: ts)
  /-- A comma is put behind the last part. -/
  | addComma {p : Shape} {closing : String} {ss ts : List Shape} (hp : p ∉ openers)
      (hc : closing ∈ closers) (h : Rewritten old new (.punctuation, closing) ss ts) :
      Rewritten old new p ((.punctuation, closing) :: ss) (comma :: (.punctuation, closing) :: ts)
  /-- The comma behind the last part is left out. -/
  | dropComma {p : Shape} {closing : String} {ss ts : List Shape} (hc : closing ∈ closers)
      (h : Rewritten old new (.punctuation, closing) ss ts) :
      Rewritten old new p (comma :: (.punctuation, closing) :: ss) ((.punctuation, closing) :: ts)

section Pass

variable {old new : String} {p s : Shape} {ss ts zs : List Shape}

/-- Only a name is an alias at the head of a dotted name, with a point behind it and none in
front. -/
theorem eq_of_isHead (h : isHead old p s ss = true) :
    s = (.name, old) ∧ p ≠ point ∧ ss.head? = some point := by
  simpa [isHead, and_assoc] using h

/-- A pass that `Rewritten` allows may leave the token in front as it is. -/
theorem Rewritten.same (h : Rewritten old old s ss ts) :
    Rewritten old old p (s :: ss) (s :: ts) := by
  cases hs : isHead old p s ss with
  | true =>
    obtain ⟨rfl, -, -⟩ := eq_of_isHead hs
    exact .rename hs h
  | false => exact .keep hs h

/-- A pass that `Rewritten` allows may leave several tokens in front as they are. -/
theorem Rewritten.behind {before : List Shape} (h : ∀ p, Rewritten old old p ss ts) :
    Rewritten old old p (before ++ ss) (before ++ ts) := by
  induction before generalizing p with
  | nil => exact h p
  | cons s before ih => exact .same ih

/-- A pass that renames a name to itself may leave all tokens as they are. -/
theorem rewritten_self (old : String) (p : Shape) (ss : List Shape) :
    Rewritten old old p ss ss := by
  induction ss generalizing p with
  | nil => exact .nil
  | cons s ss ih => exact .same (ih s)

/-- A pass may rename the alias and do nothing else, as `renameHeads` does it. -/
theorem rewritten_renameHeads (old new : String) (p : Shape) (ss : List Shape) :
    Rewritten old new p ss (renameHeads old new p ss) := by
  induction ss generalizing p with
  | nil => exact .nil
  | cons s ss ih =>
    rw [renameHeads]
    cases hs : isHead old p s ss with
    | true => exact .rename hs (ih s)
    | false => exact .keep hs (ih s)

/-- Each step is a pass that keeps the alias, but for that which renames it. -/
theorem Rewrites.rewritten (h : Rewrites ss ts) :
    (∀ old p, Rewritten old old p ss ts) ∨
      ∃ old new behind, isName new = true ∧ new ∉ Entries.keys constants ∧
        ss = importHead old ++ behind ∧
          ts = importHead new ++ renameHeads old new (.name, old) behind := by
  cases h with
  | requote hx hy =>
    exact .inl fun old p => .behind fun p => .requote hx hy (rewritten_self ..)
  | requotePath hy =>
    exact .inl fun old p => .behind fun p => .same (.requotePath (rewritten_self ..))
  | unquote hx hkey =>
    exact .inl fun old p => .behind fun p => .unquote hx hkey (rewritten_self ..)
  | addComma hs hc =>
    exact .inl fun old p => .behind fun p => .same (.addComma hs hc (rewritten_self ..))
  | dropComma hs hc =>
    exact .inl fun old p => .behind fun p => .same (.dropComma hc (rewritten_self ..))
  | rename hname hconst => exact .inr ⟨_, _, _, hname, hconst, rfl, rfl⟩

/-! ## What becomes of the tokens in front -/

/-- A mark that neither closes nor is a comma stays in a pass: the tokens after the pass begin with
it, too. -/
theorem Rewritten.mark {m : String} (hm : m ∉ closers) (hne : m ≠ ",")
    (h : Rewritten old new p ((.punctuation, m) :: ss) zs) :
    ∃ ts, zs = (.punctuation, m) :: ts ∧ Rewritten old new (.punctuation, m) ss ts := by
  cases h with
  | keep _ h => exact ⟨_, rfl, h⟩
  | rename hs _ => cases (eq_of_isHead hs).1
  | addComma _ hc _ => exact absurd hc hm
  | dropComma _ _ => exact absurd rfl hne

/-- A mark that closes stays in a pass, and may get a comma in front unless it closes what was just
opened. -/
theorem Rewritten.closing {c : String} (hc : c ∈ closers)
    (h : Rewritten old new p ((.punctuation, c) :: ss) zs) :
    ∃ ts, Rewritten old new (.punctuation, c) ss ts ∧ (zs = (.punctuation, c) :: ts ∨
      p ∉ openers ∧ zs = comma :: (.punctuation, c) :: ts) := by
  cases h with
  | keep _ h => exact ⟨_, h, .inl rfl⟩
  | rename hs _ => cases (eq_of_isHead hs).1
  | addComma hp _ h => exact ⟨_, h, .inr ⟨hp, rfl⟩⟩
  | dropComma _ _ => exact absurd hc (by decide)

/-- A comma stays in a pass, or is left out in front of a mark that closes. -/
theorem Rewritten.comma (h : Rewritten old new p (comma :: ss) zs) :
    (∃ ts, zs = Source.comma :: ts ∧ Rewritten old new Source.comma ss ts) ∨
      ∃ c ∈ closers, ∃ us ts, ss = (.punctuation, c) :: us ∧ zs = (.punctuation, c) :: ts ∧
        Rewritten old new (.punctuation, c) us ts := by
  cases h with
  | keep _ h => exact .inl ⟨_, rfl, h⟩
  | rename hs _ => cases (eq_of_isHead hs).1
  | addComma _ hc _ => exact absurd hc (by decide)
  | dropComma hc h => exact .inr ⟨_, hc, _, _, rfl, rfl, h⟩

/-- A name that is no head of a dotted name stays in a pass. -/
theorem Rewritten.name {x : String} (hs : p = point ∨ ss.head? ≠ some point)
    (h : Rewritten old new p ((.name, x) :: ss) zs) :
    ∃ ts, zs = (.name, x) :: ts ∧ Rewritten old new (.name, x) ss ts := by
  cases h with
  | keep _ h => exact ⟨_, rfl, h⟩
  | rename hhead _ =>
    obtain ⟨-, hp, hpoint⟩ := eq_of_isHead hhead
    rcases hs with hp' | hs
    · exact absurd hp' hp
    · exact absurd hpoint hs

/-- A pass leaves a number as it is. -/
theorem Rewritten.number {x : String} (h : Rewritten old new p ((.number, x) :: ss) zs) :
    ∃ ts, zs = (.number, x) :: ts ∧ Rewritten old new (.number, x) ss ts := by
  cases h with
  | keep _ h => exact ⟨_, rfl, h⟩
  | rename hs _ => cases (eq_of_isHead hs).1

/-- A text that is neither a key nor a path stands for the same text after a pass, perhaps with
other quotes. -/
theorem Rewritten.string {x s : String} (hp : p ≠ (.name, "from")) (hss : ss.head? ≠ some colon)
    (hx : ∀ position, decodeString ⟨.string, x, position⟩ = .ok s)
    (h : Rewritten old new p ((.string, x) :: ss) zs) :
    ∃ y ts, zs = (.string, y) :: ts ∧ Rewritten old new (.string, x) ss ts ∧
      ∀ position, decodeString ⟨.string, y, position⟩ = .ok s := by
  cases h with
  | keep _ h => exact ⟨x, _, rfl, h, hx⟩
  | rename hs _ => cases (eq_of_isHead hs).1
  | requote hx' hy h =>
    refine ⟨_, _, rfl, h, fun position => ?_⟩
    rw [hy.decodeString_eq, ← hx position, hx'.decodeString_eq]
  | requotePath _ => exact absurd rfl hp
  | unquote _ _ _ => exact absurd rfl hss

/-- A name is no mark that closes something, so that a new alias cannot end a value. -/
theorem not_mem_closers_of_isName {x : String} (h : isName x = true) : x ∉ closers := by
  rintro hx
  simp only [closers, List.mem_cons, List.not_mem_nil, or_false] at hx
  rcases hx with rfl | rfl | rfl <;> exact absurd h (by decide)

/-- A key stands for the same key after a pass, with quotes or without. -/
theorem Rewritten.key {k : Shape} {key : String} (hp : p ≠ (.name, "from")) (hk : IsKey k key)
    (h : Rewritten old new p (k :: colon :: ss) zs) :
    ∃ k' ts, zs = k' :: colon :: ts ∧ IsKey k' key ∧ Rewritten old new colon ss ts := by
  have hcolon : ∀ {q : Shape} {us : List Shape}, Rewritten old new q (colon :: ss) us →
      ∃ ts, us = colon :: ts ∧ Rewritten old new colon ss ts := fun h =>
    h.mark (by decide) (by decide)
  have hpoint : (colon :: ss).head? ≠ some point := by simp [colon, point]
  -- A key may lose its quotes, but it does not get any.
  cases hk with
  | name hclose =>
    obtain ⟨us, rfl, hus⟩ := h.name (.inr hpoint)
    obtain ⟨ts, rfl, hts⟩ := hcolon hus
    exact ⟨_, ts, rfl, .name hclose, hts⟩
  | string hx =>
    cases h with
    | keep _ hus =>
      obtain ⟨ts, rfl, hts⟩ := hcolon hus
      exact ⟨_, ts, rfl, .string hx, hts⟩
    | rename hs _ => cases (eq_of_isHead hs).1
    | requote hx' hy hus =>
      obtain ⟨ts, rfl, hts⟩ := hcolon hus
      refine ⟨_, ts, rfl, .string fun position => ?_, hts⟩
      rw [hy.decodeString_eq, ← hx position, hx'.decodeString_eq]
    | requotePath _ => exact absurd rfl hp
    | unquote hx' hname hts =>
      have hsame := hx 0
      rw [hx'.decodeString_eq] at hsame
      cases hsame
      exact ⟨_, _, rfl, .name (not_mem_closers_of_isName hname), hts⟩

/-- The parts of a dotted name behind its head stay in a pass, up to the opening bracket. -/
theorem Rewritten.dotted {path : List String}
    (h : Rewritten old new p (dottedShapes path ++ (.punctuation, "(") :: ss) zs) :
    ∃ ts, zs = dottedShapes path ++ (.punctuation, "(") :: ts ∧
      Rewritten old new (.punctuation, "(") ss ts := by
  induction path generalizing p zs with
  | nil => exact h.mark (by decide) (by decide)
  | cons part path ih =>
    obtain ⟨us, rfl, hus⟩ := h.mark (by decide) (by decide)
    obtain ⟨vs, rfl, hvs⟩ := hus.name (.inl rfl)
    obtain ⟨ts, rfl, hts⟩ := ih hvs
    exact ⟨ts, rfl, hts⟩

/-- The head of a call becomes in a pass that of the renamed call. -/
theorem Rewritten.head {name : String} {path : List String} (hp : p ≠ point)
    (hname : name ∉ Entries.keys constants) (hclose : name ∉ closers)
    (hnew : new ∉ Entries.keys constants) (hnew' : new ∉ closers)
    (h : Rewritten old new p
      ((.name, name) :: (dottedShapes path ++ (.punctuation, "(") :: ss)) zs) :
    ∃ name' ts, zs = (.name, name') :: (dottedShapes path ++ (.punctuation, "(") :: ts) ∧
      renamedPath old new (name :: path) = name' :: path ∧
      name' ∉ Entries.keys constants ∧ name' ∉ closers ∧
      Rewritten old new (.punctuation, "(") ss ts := by
  -- Only a name in front of a point is renamed, so a name alone stays.
  cases path with
  | nil =>
    obtain ⟨us, rfl, hus⟩ := h.name (.inr (by simp [dottedShapes, point]))
    obtain ⟨ts, rfl, hts⟩ := hus.mark (by decide) (by decide)
    exact ⟨name, ts, rfl, rfl, hname, hclose, hts⟩
  | cons part path =>
    cases h with
    | keep hs hus =>
      have hne : name ≠ old := by
        rintro rfl
        have hhead : isHead name p (.name, name)
            (dottedShapes (part :: path) ++ (.punctuation, "(") :: ss) = true := by
          simpa [isHead, dottedShapes, point] using hp
        rw [hs] at hhead
        cases hhead
      obtain ⟨ts, rfl, hts⟩ := hus.dotted
      exact ⟨name, ts, rfl, by rw [renamedPath, if_neg hne], hname, hclose, hts⟩
    | rename hs hus =>
      cases (eq_of_isHead hs).1
      obtain ⟨ts, rfl, hts⟩ := hus.dotted
      exact ⟨new, ts, rfl, by rw [renamedPath, if_pos rfl], hnew, hnew', hts⟩

/-! ## Phrases -/

/-- A pass over tokens of a phrase, and over those behind them, makes of the former tokens of the
same phrase under the new alias, and is a pass over the latter. -/
def Survives (old new : String) (ss : List Shape) : Phrase → Prop
  | .value v => ∀ {p : Shape} {rest zs : List Shape}, p.1 = .punctuation → p ≠ point →
      rest.head? ≠ some colon → rest.head? ≠ some point → Rewritten old new p (ss ++ rest) zs →
      ∃ ts more q, zs = ts ++ more ∧ Derives ts (.value (v.renamed old new)) ∧
        Rewritten old new q rest more
  | .items closing vs => closing ∈ closers → ∀ {p : Shape} {rest zs : List Shape}, p ∈ openers →
      Rewritten old new p (ss ++ rest) zs →
      ∃ ts more q, zs = ts ++ more ∧ Derives ts (.items closing (renamedAll old new vs)) ∧
        Rewritten old new q rest more
  | .members fields => ∀ {p : Shape} {rest zs : List Shape}, p ∈ openers →
      Rewritten old new p (ss ++ rest) zs →
      ∃ ts more q, zs = ts ++ more ∧
        Derives ts (.members (Entries.mapValues (renamed old new) fields)) ∧
          Rewritten old new q rest more

/-- What is in `openers`, the comma among it, is a mark and no point. -/
theorem mark_of_mem_openers (h : p ∈ openers) : p.1 = .punctuation ∧ p ≠ point := by
  simp only [openers, List.mem_cons, List.not_mem_nil, or_false] at h
  rcases h with rfl | rfl | rfl | rfl <;> exact ⟨rfl, by decide⟩

/-- A mark is not the word in front of a path. -/
theorem ne_from_of_mark (h : p.1 = .punctuation) : p ≠ (.name, "from") := by
  rintro rfl
  cases h

variable {closing : String} {v : Value} {vs : List Value} {us : List Shape}

/-- A mark of `closers` is neither a colon nor a point. -/
theorem ne_of_mem_closers (hc : closing ∈ closers) (rest : List Shape) :
    ((TokenKind.punctuation, closing) :: rest).head? ≠ some colon ∧
      ((TokenKind.punctuation, closing) :: rest).head? ≠ some point := by
  simp only [closers, List.mem_cons, List.not_mem_nil, or_false] at hc
  rcases hc with rfl | rfl | rfl <;> simp [colon, point]

/-- A comma is neither the colon of a key nor the point of a dotted name. -/
theorem comma_ne (rest : List Shape) : (comma :: rest).head? ≠ some colon ∧
    (comma :: rest).head? ≠ some point := by
  simp [comma, colon, point]

/-- The mark that closes no items is left by every pass. -/
theorem survives_noItem : Survives old new [(.punctuation, closing)] (.items closing []) := by
  intro hc p rest zs hp h
  obtain ⟨more, hmore, rfl | ⟨hp', -⟩⟩ := h.closing hc
  · exact ⟨_, more, _, rfl, .noItem, hmore⟩
  · exact absurd hp hp'

/-- A last item `Survives` a pass, be it with a new comma behind it. -/
theorem survives_lastItem (hc : closing ∈ closers) (h : Survives old new ss (.value v)) :
    Survives old new (ss ++ [(.punctuation, closing)]) (.items closing [v]) := by
  intro _ p rest zs hp hpass
  obtain ⟨hmark, hpoint⟩ := mark_of_mem_openers hp
  obtain ⟨hcolon', hpoint'⟩ := ne_of_mem_closers hc rest
  rw [List.append_assoc] at hpass
  obtain ⟨ts, behind, q, rfl, hd, hbehind⟩ := h hmark hpoint hcolon' hpoint' hpass
  obtain ⟨more, hmore, rfl | ⟨-, rfl⟩⟩ := hbehind.closing hc
  · exact ⟨ts ++ [(.punctuation, closing)], more, _, by simp, .lastItem hc hd, hmore⟩
  · exact ⟨ts ++ comma :: [(.punctuation, closing)], more, _, by simp, .item hc hd .noItem, hmore⟩

/-- No value begins with a mark that closes, so that a comma in front of one is the last. -/
theorem exists_cons_of_derives (h : Derives ss (.value v)) :
    ∃ s more, ss = s :: more ∧ ∀ c ∈ closers, s ≠ (.punctuation, c) := by
  cases h with
  | string _ => exact ⟨_, _, rfl, fun _ _ => nofun⟩
  | number _ => exact ⟨_, _, rfl, fun _ _ => nofun⟩
  | constant _ => exact ⟨_, _, rfl, fun _ _ => nofun⟩
  | object _ => exact ⟨_, _, rfl, by decide⟩
  | array _ => exact ⟨_, _, rfl, by decide⟩
  | call _ _ _ => exact ⟨_, _, rfl, fun _ _ => nofun⟩

/-- Items that begin with a mark that closes are none, and this mark is their own. -/
theorem items_eq_nil {c : String} {rest more : List Shape} (hc : c ∈ closers)
    (heq : us ++ rest = (.punctuation, c) :: more) (h : Derives us (.items closing vs)) :
    c = closing ∧ vs = [] ∧ more = rest := by
  -- No value begins with a closing mark, so there is no item.
  have hvalue : ∀ {ss ts : List Shape} {v : Value}, Derives ss (.value v) →
      ss ++ ts ≠ (.punctuation, c) :: more := by
    intro ss ts v h heq
    obtain ⟨s, _, rfl, hs⟩ := exists_cons_of_derives h
    exact hs c hc (List.cons.inj heq).1
  cases h with
  | noItem =>
    cases heq
    exact ⟨rfl, rfl, rfl⟩
  | lastItem _ h =>
    rw [List.append_assoc] at heq
    exact absurd heq (hvalue h)
  | item _ h _ =>
    rw [List.append_assoc] at heq
    exact absurd heq (hvalue h)

/-- Items survive a pass, be it that the comma in front of the closing mark is left out. -/
theorem survives_item (hc : closing ∈ closers) (h : Survives old new ss (.value v))
    (hd : Derives us (.items closing vs)) (hs : Survives old new us (.items closing vs)) :
    Survives old new (ss ++ comma :: us) (.items closing (v :: vs)) := by
  intro _ p rest zs hp hpass
  obtain ⟨hmark, hpoint⟩ := mark_of_mem_openers hp
  obtain ⟨hcolon', hpoint'⟩ := comma_ne (us ++ rest)
  rw [List.append_assoc] at hpass
  obtain ⟨ts, behind, q, rfl, hfirst, hbehind⟩ := h hmark hpoint hcolon' hpoint' hpass
  rcases hbehind.comma with ⟨zs, rfl, hzs⟩ | ⟨c, hc', us', zs, heq, rfl, hzs⟩
  · obtain ⟨ts', more, q', rfl, hothers, hmore⟩ := hs hc (by decide) hzs
    exact ⟨ts ++ comma :: ts', more, q', by simp, .item hc hfirst hothers, hmore⟩
  · obtain ⟨rfl, rfl, rfl⟩ := items_eq_nil hc' heq hd
    exact ⟨ts ++ [(.punctuation, c)], zs, _, by simp, .lastItem hc hfirst, hzs⟩

variable {k : Shape} {key : String} {fields : List (String × Value)}

/-- The brace that closes no members `Survives`. -/
theorem survives_noMember : Survives old new [(.punctuation, "\x7d")] (.members []) := by
  intro p rest zs hp h
  obtain ⟨more, hmore, rfl | ⟨hp', -⟩⟩ := h.closing (by decide)
  · exact ⟨_, more, _, rfl, .noMember, hmore⟩
  · exact absurd hp hp'

/-- A last member `Survives` a pass, be it with a new comma behind it. -/
theorem survives_lastMember (hk : IsKey k key) (h : Survives old new ss (.value v)) :
    Survives old new (k :: colon :: (ss ++ [(.punctuation, "\x7d")])) (.members [(key, v)]) := by
  intro p rest zs hp hpass
  have hc : "\x7d" ∈ closers := by decide
  obtain ⟨hcolon', hpoint'⟩ := ne_of_mem_closers hc rest
  obtain ⟨k', us, rfl, hk', hus⟩ := hpass.key (ne_from_of_mark (mark_of_mem_openers hp).1) hk
  rw [List.append_eq, List.append_assoc] at hus
  obtain ⟨ts, behind, q, rfl, hd, hbehind⟩ := h rfl (by decide) hcolon' hpoint' hus
  obtain ⟨more, hmore, rfl | ⟨-, rfl⟩⟩ := hbehind.closing hc
  · exact ⟨k' :: colon :: (ts ++ [(TokenKind.punctuation, "\x7d")]), more, _, by simp,
      .lastMember hk' hd, hmore⟩
  · exact ⟨k' :: colon :: (ts ++ comma :: [(TokenKind.punctuation, "\x7d")]), more, _, by simp,
      .member hk' hd .noMember, hmore⟩

/-- Members that begin with a mark that closes are none, and this mark is the brace. -/
theorem members_eq_nil {c : String} {rest more : List Shape}
    (heq : us ++ rest = (.punctuation, c) :: more) (h : Derives us (.members fields)) :
    c = "\x7d" ∧ fields = [] ∧ more = rest := by
  cases h with
  | noMember =>
    cases heq
    exact ⟨rfl, rfl, rfl⟩
  | lastMember hk _ => cases hk <;> cases heq
  | member hk _ _ => cases hk <;> cases heq

/-- Members survive a pass, be it that the comma in front of the closing brace is left out. -/
theorem survives_member (hk : IsKey k key) (h : Survives old new ss (.value v))
    (hd : Derives us (.members fields)) (hs : Survives old new us (.members fields)) :
    Survives old new (k :: colon :: (ss ++ comma :: us)) (.members ((key, v) :: fields)) := by
  intro p rest zs hp hpass
  obtain ⟨hcolon', hpoint'⟩ := comma_ne (us ++ rest)
  obtain ⟨k', us', rfl, hk', hus⟩ := hpass.key (ne_from_of_mark (mark_of_mem_openers hp).1) hk
  rw [List.append_eq, List.append_assoc] at hus
  obtain ⟨ts, behind, q, rfl, hfirst, hbehind⟩ := h rfl (by decide) hcolon' hpoint' hus
  -- The comma is kept, or it is dropped as the last one of the object.
  rcases hbehind.comma with ⟨zs, rfl, hzs⟩ | ⟨c, _, us', zs, heq, rfl, hzs⟩
  · obtain ⟨ts', more, q', rfl, hothers, hmore⟩ := hs (by decide) hzs
    exact ⟨k' :: colon :: (ts ++ comma :: ts'), more, q', by simp, .member hk' hfirst hothers,
      hmore⟩
  · obtain ⟨rfl, rfl, rfl⟩ := members_eq_nil heq hd
    exact ⟨k' :: colon :: (ts ++ [(TokenKind.punctuation, "\x7d")]), zs, _, by simp,
      .lastMember hk' hfirst, hzs⟩

/-- An object is renamed by renaming its members, which keep their keys. -/
theorem renamed_object (fields : List (String × Value)) :
    (Value.mapping (Entries.ofPairs (textEntries fields))).renamed old new
      = .mapping (Entries.ofPairs (textEntries (Entries.mapValues (renamed old new) fields))) := by
  have htext : textEntries (Entries.mapValues (renamed old new) fields)
      = Entries.mapValues (renamed old new) (textEntries fields) := by
    simp [textEntries, Entries.mapValues]
  rw [renamed, Value.renamedEntries_eq, htext, Entries.ofPairs_mapValues]

/-- A number is not changed by renaming, as there is no call in it. -/
theorem renamed_decodeNumber (text : String) :
    (decodeNumber text).renamed old new = decodeNumber text := by
  unfold decodeNumber
  dsimp only
  split_ifs <;> rfl

/-- The value of a constant is not changed by renaming. -/
theorem renamed_constant {x : String} (h : (x, v) ∈ constants) : v.renamed old new = v := by
  simp only [constants, List.mem_cons, Prod.mk.injEq, List.not_mem_nil, or_false] at h
  rcases h with ⟨-, rfl⟩ | ⟨-, rfl⟩ | ⟨-, rfl⟩ <;> rfl

/-- Every phrase survives a pass. The induction is on `Derives`, with one lemma for each way in
which items and members go on. -/
theorem survives_of_derives {phrase : Phrase} (hconst : new ∉ Entries.keys constants)
    (hclose : new ∉ closers) (h : Derives ss phrase) : Survives old new ss phrase := by
  -- What stands in front decides what may be renamed or lose its quotes, and it is a mark all
  -- along.
  induction h with
  | @string x s hx =>
    intro p rest zs hp _ hcolon _ h
    obtain ⟨y, ts, rfl, hts, hy⟩ := h.string (ne_from_of_mark hp) hcolon hx
    exact ⟨[(.string, y)], ts, _, rfl, .string hy, hts⟩
  | @number x hx =>
    intro p rest zs _ _ _ _ h
    obtain ⟨ts, rfl, hts⟩ := h.number
    exact ⟨[(.number, x)], ts, _, rfl, (renamed_decodeNumber x).symm ▸ .number hx, hts⟩
  | @constant x v hx =>
    intro p rest zs _ _ _ hpoint h
    obtain ⟨ts, rfl, hts⟩ := h.name (.inr hpoint)
    exact ⟨[(.name, x)], ts, _, rfl, (renamed_constant hx).symm ▸ .constant hx, hts⟩
  | object _ ih =>
    intro p rest zs _ _ _ _ h
    obtain ⟨us, rfl, hus⟩ := h.mark (by decide) (by decide)
    obtain ⟨ts, more, q, rfl, hd, hmore⟩ := ih (by decide) hus
    exact ⟨_ :: ts, more, q, rfl, renamed_object _ ▸ .object hd, hmore⟩
  | array _ ih =>
    intro p rest zs _ _ _ _ h
    obtain ⟨us, rfl, hus⟩ := h.mark (by decide) (by decide)
    obtain ⟨ts, more, q, rfl, hd, hmore⟩ := ih (by decide) (by decide) hus
    exact ⟨_ :: ts, more, q, rfl, .array hd, hmore⟩
  | @call name path ss vs hname hname' _ ih =>
    intro p rest zs _ hp _ _ h
    rw [List.cons_append, List.append_assoc, List.cons_append] at h
    obtain ⟨name', us, rfl, hpath, hn, hn', hus⟩ := h.head hp hname hname' hconst hclose
    obtain ⟨ts, more, q, rfl, hd, hmore⟩ := ih (by decide) (by decide) hus
    refine ⟨(.name, name') :: (dottedShapes path ++ (.punctuation, "(") :: ts), more, q, by simp,
      ?_, hmore⟩
    rw [renamed, hpath]
    exact .call hn hn' hd
  | noItem => exact survives_noItem
  | lastItem hc _ ih => exact survives_lastItem hc ih
  | item hc _ hs ih ihs => exact survives_item hc ih hs ihs
  | noMember => exact survives_noMember
  | lastMember hk _ ih => exact survives_lastMember hk ih
  | member hk _ hs ih ihs => exact survives_member hk ih hs ihs

end Pass

end SchemaForge.Source
