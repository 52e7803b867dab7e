import SchemaForge.Proofs.Json.Image
import SchemaForge.Proofs.Source.Module

/-!
# Line endings of a module

A module is saved as bytes and loaded from them (sections 6.3 and 6.4 of the specification). A text
`IsUniform` if no carriage return is in it, so that reading it with all line endings made line feeds
gives it back. Whatever a schema holds, its module is uniform (`isUniform_encodeModule`): JSON
escapes the carriage returns of texts, numbers are digits and marks, and what the writer adds of its
own has line feeds only. An encoder `IsUniform` if it writes uniform texts as long as the table
remembers uniform quotes, and leaves such a table.
-/

namespace SchemaForge

/-- No carriage return is in the text, so that reading it with its line endings unified gives it
back. -/
def IsUniform (s : String) : Prop := '\r' ∉ s.toList

/-- Looking at the characters decides it. -/
instance (s : String) : Decidable (IsUniform s) := inferInstanceAs (Decidable ('\r' ∉ s.toList))

variable {s s' : String} {cs : List Char}

namespace IsUniform

/-- A text is uniform if no carriage return is among its characters. -/
theorem ofList (h : '\r' ∉ cs) : IsUniform (String.ofList cs) := by
  rwa [IsUniform, String.toList_ofList]

/-- Two uniform texts make one. -/
theorem append (h : IsUniform s) (h' : IsUniform s') : IsUniform (s ++ s') := by
  rw [IsUniform, String.toList_append, List.mem_append, not_or]
  exact ⟨h, h'⟩

/-- Uniform texts with a uniform separator between them make a uniform text. -/
theorem join (hs : IsUniform s) {texts : List String} (h : ∀ t ∈ texts, IsUniform t) :
    IsUniform (Text.join s texts) := by
  induction texts with
  | nil => exact List.not_mem_nil
  | cons t rest ih =>
    have ht := h t List.mem_cons_self
    cases rest with
    | nil => exact ht
    | cons t' rest =>
      exact (ht.append hs).append (ih fun u hu => h u (List.mem_cons_of_mem t hu))

end IsUniform

/-! ## Fragments -/

namespace Fragment

/-- No line of a fragment has a carriage return, nor has the margin of one level. -/
structure IsUniform (f : Fragment) : Prop where
  /-- The margin of one level. -/
  unit : '\r' ∉ f.unit
  /-- The lines. -/
  written : ∀ line ∈ f.written, '\r' ∉ line

variable {f : Fragment} {text : List Char}

/-- The characters of the lines that `Text.lines` cuts a text into are those of the text. -/
theorem mem_of_mem_lines {line : List Char} {c : Char} (hline : line ∈ Text.lines text)
    (hc : c ∈ line) : c ∈ text := by
  induction text generalizing line with
  | nil =>
    rw [List.mem_singleton.mp hline] at hc
    exact hc
  | cons d ds ih =>
    rw [Text.lines] at hline
    split_ifs at hline with hd
    · rcases List.mem_cons.mp hline with rfl | hline
      · cases hc
      · exact List.mem_cons_of_mem d (ih hline hc)
    -- the character belongs to the first line of the rest
    · obtain ⟨first, more, heq⟩ := Source.exists_lines_eq_cons ds
      rw [heq] at ih hline
      rcases List.mem_cons.mp hline with rfl | hline
      · rcases List.mem_cons.mp hc with rfl | hc
        · exact List.mem_cons_self
        · exact List.mem_cons_of_mem d (ih List.mem_cons_self hc)
      · exact List.mem_cons_of_mem d (ih (List.mem_cons_of_mem first hline) hc)

/-- A fragment stays uniform when a text without carriage returns is added. -/
theorem IsUniform.line (h : f.IsUniform) (ht : '\r' ∉ text) : (f.line text).IsUniform := by
  refine ⟨h.unit, fun line hline hc => ?_⟩
  rcases List.mem_append.mp hline with hline | hline
  · exact h.written line hline hc
  · obtain ⟨bare, hbare, rfl⟩ := List.mem_map.mp hline
    unfold withMargin at hc
    split_ifs at hc with hempty
    · cases hc
    · rcases List.mem_append.mp hc with hc | hc
      · obtain ⟨unit, hunit, hc⟩ := List.mem_flatten.mp hc
        rw [List.eq_of_mem_replicate hunit] at hc
        exact h.unit hc
      · exact ht (mem_of_mem_lines hbare hc)

/-- A fragment stays uniform when several texts without carriage returns are added. -/
theorem IsUniform.linesOf (h : f.IsUniform) {texts : List (List Char)}
    (ht : ∀ text ∈ texts, '\r' ∉ text) : (f.linesOf texts).IsUniform := by
  induction texts generalizing f with
  | nil => exact h
  | cons text rest ih =>
    exact ih (h.line (ht text List.mem_cons_self)) fun t hmem =>
      ht t (List.mem_cons_of_mem text hmem)

/-- The expression of a fragment with uniform lines has no carriage return. -/
theorem IsUniform.expression (h : f.IsUniform) : '\r' ∉ f.expression := by
  intro hc
  have hc : '\r' ∈ f.text :=
    List.mem_reverse.mp ((List.dropWhile_sublist _).subset (List.mem_reverse.mp hc))
  obtain ⟨line, hline, hc⟩ := List.mem_flatMap.mp hc
  rcases List.mem_append.mp hc with hc | hc
  · exact h.written line hline hc
  · exact absurd (List.mem_singleton.mp hc) (by decide)

/-- What `Fragment.block` makes of uniform texts is uniform. -/
theorem isUniform_block {opening closing : String} {items : List String}
    (ho : SchemaForge.IsUniform opening) (hi : ∀ item ∈ items, SchemaForge.IsUniform item)
    (hc : SchemaForge.IsUniform closing) : SchemaForge.IsUniform (block opening items closing) := by
  have hempty : ({} : Fragment).IsUniform :=
    ⟨by decide, fun _ hline => absurd hline List.not_mem_nil⟩
  have hindented : ((({} : Fragment).line opening.toList).indent 1).IsUniform :=
    ⟨hempty.unit, (hempty.line ho).written⟩
  have htexts : ∀ text ∈ items.map String.toList, '\r' ∉ text := by
    intro text htext
    obtain ⟨item, hitem, rfl⟩ := List.mem_map.mp htext
    exact hi item hitem
  have hbody : ((((({} : Fragment).line opening.toList).indent 1).linesOf
      (items.map String.toList)).indent (-1)).IsUniform :=
    ⟨(hindented.linesOf htexts).unit, (hindented.linesOf htexts).written⟩
  exact .ofList (hbody.line hc).expression

end Fragment

/-! ## Numbers and JSON -/

/-- The text of a well-formed numeral, its sign included, has no carriage return. -/
theorem Number.Numeral.WellFormed.not_mem_chars {n : Numeral} (h : n.WellFormed) (negative : Bool) :
    '\r' ∉ signChars negative ++ n.chars := by
  rw [List.mem_append, not_or]
  refine ⟨by cases negative <;> decide, fun hc => ?_⟩
  rcases mem_chars h hc with ⟨d, hd, heq⟩ | heq | heq | heq | heq
  · interval_cases d <;> cases heq
  all_goals cases heq

/-- The text of an integer has digits and a sign, and no carriage return. -/
theorem isUniform_intText (n : ℤ) : IsUniform (Number.intText n) := by
  rw [IsUniform, Number.intText_toList]
  exact (Number.wellFormed_digits _).not_mem_chars _

/-- The JSON text of a number has no carriage return, and the names of NaN and of the infinities
have none. -/
theorem isUniform_doubleText (x : Double) : IsUniform (x.text Number.jsonLayout) := by
  cases x with
  | nan mark => exact (by decide : IsUniform "NaN")
  | infinite negative =>
    cases negative with
    | false => exact (by decide : IsUniform "Infinity")
    | true => exact (by decide : IsUniform "-Infinity")
  | finite negative b f =>
    obtain ⟨n, hn, -, heq, -⟩ := Number.exists_numeral_text Number.jsonLayout negative b f
    rw [IsUniform, heq]
    exact hn.not_mem_chars negative

namespace Json

variable {style : Style} {depth : ℕ} {text : String} {texts : List String}

/-- The function `escapedChar` escapes a carriage return, and nothing it writes holds one. -/
theorem return_not_mem_escapedChar (c : Char) : '\r' ∉ escapedChar c := by
  have hhex : ∀ d < 16, Text.hexDigit d ≠ '\r' := by decide
  unfold escapedChar
  split_ifs with hq hb hn hr ht h8 h12 h32
  all_goals try decide
  · have hdigit := fun n : ℕ => (hhex (n % 16) (Nat.mod_lt n (by decide))).symm
    simp [Text.hexOnto, hdigit]
  · simpa using fun h => hr h.symm

/-- What `quote` writes is uniform, whatever the text. -/
theorem isUniform_quote (s : String) : IsUniform (quote s) := by
  refine .ofList ?_
  simp only [List.mem_cons, List.mem_append, List.mem_flatMap, not_or]
  exact ⟨by decide, fun ⟨c, _, hc⟩ => return_not_mem_escapedChar c hc, by decide, List.not_mem_nil⟩

/-- What a style writes for a scalar `IsUniform`. -/
theorem isUniform_scalar {s : Scalar} (h : style.scalar s = .ok text) : IsUniform text := by
  cases s with
  | null => exact Except.ok.inj h ▸ (by decide : IsUniform "null")
  | bool b =>
    cases b with
    | false => exact Except.ok.inj h ▸ (by decide : IsUniform "false")
    | true => exact Except.ok.inj h ▸ (by decide : IsUniform "true")
  | int n => exact Except.ok.inj h ▸ isUniform_intText n
  | float x =>
    rw [Style.scalar, Style.number] at h
    split_ifs at h
    exact Except.ok.inj h ▸ isUniform_doubleText x
  | str s => exact Except.ok.inj h ▸ isUniform_quote s
  | time t => cases h
  | bytes b => cases h

/-- The line break of a JSON style is a line feed with blanks behind it, or nothing. -/
theorem isUniform_lineBreak (style : Style) (depth : ℕ) : IsUniform (style.lineBreak depth) := by
  intro hc
  rcases isGap_lineBreak style depth _ hc with h | h <;> cases h

/-- The separator of a JSON style has no carriage return. -/
theorem isUniform_separator (style : Style) (depth : ℕ) : IsUniform (style.separator depth) := by
  obtain ⟨gaps, heq, hgaps⟩ := separator_toList style depth
  rw [IsUniform, heq, List.mem_cons, not_or]
  refine ⟨by decide, fun hc => ?_⟩
  rcases hgaps _ hc with h | h <;> cases h

/-- What `enclose` makes of uniform texts is uniform. -/
theorem isUniform_enclose {opening closing : String} (ho : IsUniform opening)
    (hc : IsUniform closing) (h : ∀ t ∈ texts, IsUniform t) :
    IsUniform (style.enclose depth opening closing texts) := by
  cases texts with
  | nil => exact ho.append hc
  | cons t rest =>
    have hbreak := isUniform_lineBreak style
    exact (((ho.append (hbreak _)).append (.join (isUniform_separator style _) h)).append
      (hbreak _)).append hc

mutual

/-- What a style writes for a tree is uniform. The induction is on the tree, together with
`isUniform_writeAll` and `isUniform_writeEntries`. -/
theorem isUniform_styleWrite {depth : ℕ} {v : Value} {text : String}
    (h : style.write depth v = .ok text) : IsUniform text := by
  cases v with
  | scalar s => exact isUniform_scalar h
  | list items =>
    obtain ⟨texts, htexts, h⟩ := Outcome.bind_eq_ok.mp h
    exact Except.ok.inj h ▸ isUniform_enclose (by decide) (by decide) (isUniform_writeAll htexts)
  | tuple items =>
    obtain ⟨texts, htexts, h⟩ := Outcome.bind_eq_ok.mp h
    exact Except.ok.inj h ▸ isUniform_enclose (by decide) (by decide) (isUniform_writeAll htexts)
  | mapping entries =>
    obtain ⟨texts, htexts, h⟩ := Outcome.bind_eq_ok.mp h
    exact Except.ok.inj h ▸
      isUniform_enclose (by decide) (by decide) (isUniform_writeEntries htexts)
  | _ => cases h

/-- What a style writes for several trees `IsUniform`, text by text. -/
theorem isUniform_writeAll {depth : ℕ} {items : List Value} {texts : List String}
    (h : style.writeAll depth items = .ok texts) : ∀ t ∈ texts, IsUniform t := by
  cases items with
  | nil => exact Except.ok.inj h ▸ fun _ ht => absurd ht List.not_mem_nil
  | cons v rest =>
    obtain ⟨text, htext, h⟩ := Outcome.bind_eq_ok.mp h
    obtain ⟨more, hmore, h⟩ := Outcome.bind_eq_ok.mp h
    exact Except.ok.inj h ▸
      List.forall_mem_cons.mpr ⟨isUniform_styleWrite htext, isUniform_writeAll hmore⟩

/-- What a style writes for the members of an object `IsUniform`, text by text. -/
theorem isUniform_writeEntries {depth : ℕ} {entries : List (Scalar × Value)} {texts : List String}
    (h : style.writeEntries depth entries = .ok texts) : ∀ t ∈ texts, IsUniform t := by
  cases entries with
  | nil => exact Except.ok.inj h ▸ fun _ ht => absurd ht List.not_mem_nil
  | cons e rest =>
    obtain ⟨key, hkey, h⟩ := Outcome.bind_eq_ok.mp h
    obtain ⟨text, htext, h⟩ := Outcome.bind_eq_ok.mp h
    obtain ⟨more, hmore, h⟩ := Outcome.bind_eq_ok.mp h
    have hfirst : IsUniform (key ++ ": " ++ text) :=
      ((key_eq_ok hkey ▸ isUniform_quote _).append (by decide)).append (isUniform_styleWrite htext)
    exact Except.ok.inj h ▸ List.forall_mem_cons.mpr ⟨hfirst, isUniform_writeEntries hmore⟩

end

/-- A JSON text `IsUniform`, whatever value and style it is written for. -/
theorem isUniform_write {v : Value} (h : write style v = .ok text) : IsUniform text :=
  isUniform_styleWrite h

end Json

/-! ## Encoders -/

/-- All texts that the table of quotes remembers have no carriage return. -/
def QuoteTable.IsUniform (t : QuoteTable) : Prop := ∀ e ∈ t.entries, SchemaForge.IsUniform e.2

namespace Encoder

variable {α β : Type} {e : Encoder α} {f : α → Encoder β} {P : α → Prop} {Q : β → Prop}

/-- With a uniform table, the result of an encoder is as `P` says, and the table stays uniform. -/
def Gives (e : Encoder α) (P : α → Prop) : Prop :=
  ∀ ⦃t t' : QuoteTable⦄ ⦃a : α⦄, t.IsUniform → e.run t = .ok (a, t') → P a ∧ t'.IsUniform

/-- An encoder that only gives a result gives what `P` says of it. -/
theorem gives_pure {x : α} (h : P x) : Gives (pure x) P := by
  intro t t' b ht hrun
  cases hrun
  exact ⟨h, ht⟩

/-- An encoder that only fails `Gives` anything, having no result. -/
theorem gives_throw (failure : Failure Unencodable) : Gives (throw failure : Encoder α) P := by
  intro t t' b ht hrun
  cases hrun

/-- What does not use the table gives what `P` says of its results. -/
theorem gives_lift {x : Outcome Unencodable α} (h : ∀ a, x = .ok a → P a) :
    Gives (liftM x : Encoder α) P := by
  intro t t' b ht hrun
  cases x with
  | error failure => cases hrun
  | ok c =>
    cases hrun
    exact ⟨h _ rfl, ht⟩

/-- A sequence gives what its second part makes of whatever the first one gives. -/
theorem Gives.bind (he : Gives e P) (hf : ∀ a, P a → Gives (f a) Q) : Gives (e >>= f) Q := by
  intro t t' b ht hrun
  rw [run_bind] at hrun
  obtain ⟨⟨a, t₁⟩, hfirst, hsecond⟩ := Outcome.bind_eq_ok.mp hrun
  obtain ⟨ha, ht₁⟩ := he ht hfirst
  exact hf a ha ht₁ hsecond

/-- An encoder whose result is changed gives what the change makes of it. -/
theorem Gives.map (he : Gives e P) {g : α → β} (hg : ∀ a, P a → Q (g a)) :
    Gives (do return g (← e)) Q :=
  he.bind fun a ha => gives_pure (hg a ha)

/-- What `quote` gives is uniform, also if it is taken from the table. -/
theorem gives_quote (v : Value) : Gives (quote v) IsUniform := by
  intro t t' text ht hrun
  have hrun : quote v t = .ok (text, t') := hrun
  unfold quote at hrun
  split_ifs at hrun
  split at hrun
  · rename_i e he
    -- a quote that is remembered: it was uniform, and the table only changes its order
    have hmem : e ∈ t.entries := List.mem_of_find?_eq_some he
    cases hrun
    exact ⟨ht e hmem, List.forall_mem_cons.mpr
      ⟨ht e hmem, fun o ho => ht o (List.mem_filter.mp ho).1⟩⟩
  · split at hrun
    · rename_i s hs
      have hs : IsUniform s := Json.isUniform_write hs
      cases hrun
      refine ⟨hs, fun o ho => ?_⟩
      rcases List.mem_cons.mp (List.mem_of_mem_take ho) with rfl | ho
      · exact hs
      · exact ht o ho
    · cases hrun

end Encoder

namespace Source

open Encoder

/-- Each of several texts is uniform. -/
def AllUniform (texts : List String) : Prop := ∀ text ∈ texts, IsUniform text

/-- The names and the texts of several members have no carriage return. -/
def MembersUniform (members : List (String × String)) : Prop :=
  ∀ m ∈ members, IsUniform m.1 ∧ IsUniform m.2

variable {members members' : List (String × String)} {constructor text : String}
  {texts : List String}

/-- One more uniform text in front keeps all of them uniform. -/
theorem AllUniform.cons (h : IsUniform text) (hs : AllUniform texts) : AllUniform (text :: texts) :=
  List.forall_mem_cons.mpr ⟨h, hs⟩

/-- Uniform members side by side are uniform members. -/
theorem MembersUniform.append (h : MembersUniform members) (h' : MembersUniform members') :
    MembersUniform (members ++ members') :=
  List.forall_mem_append.mpr ⟨h, h'⟩

/-- Members with their names in front, as texts, are uniform. -/
theorem MembersUniform.lines (h : MembersUniform members) :
    AllUniform (members.map fun m => m.1 ++ ": " ++ m.2) := by
  intro text htext
  obtain ⟨m, hm, rfl⟩ := List.mem_map.mp htext
  exact ((h m hm).1.append (by decide)).append (h m hm).2

/-- What `inlineObject` makes of uniform members is uniform. -/
theorem isUniform_inlineObject (h : MembersUniform members) : IsUniform (inlineObject members) :=
  ((by decide : IsUniform "\x7b").append (.join (by decide) h.lines)).append (by decide)

/-- What `construct` makes of uniform arguments is uniform. -/
theorem isUniform_construct (hc : IsUniform constructor) (h : AllUniform texts) :
    IsUniform (construct constructor texts) := by
  have hname : IsUniform (builderName ++ "." ++ constructor ++ "(") :=
    ((by decide : IsUniform (builderName ++ ".")).append hc).append (by decide)
  exact (hname.append (.join (by decide) fun t ht => h t (List.mem_filter.mp ht).1)).append
    (by decide)

/-- What `wrapOptional` makes of a uniform text is uniform. -/
theorem isUniform_wrapOptional (h : IsUniform text) (optional : Bool) :
    IsUniform (wrapOptional text optional) := by
  unfold wrapOptional
  split_ifs
  · exact isUniform_construct (by decide) (List.forall_mem_singleton.mpr h)
  · exact h

/-- What `tree` makes of uniform lines is uniform. -/
theorem isUniform_tree (hc : IsUniform constructor) (h : AllUniform texts) :
    IsUniform (tree constructor texts) := by
  unfold tree
  split_ifs
  · exact isUniform_construct hc (List.forall_mem_singleton.mpr (by decide))
  · have hopen : IsUniform (builderName ++ "." ++ constructor ++ "(\x7b") :=
      ((by decide : IsUniform (builderName ++ ".")).append hc).append (by decide)
    exact Fragment.isUniform_block hopen h (by decide)

/-! ## Literals and settings -/

/-- The encoder `literal v` gives uniform texts only. -/
theorem gives_literal (v : Value) : Gives (literal v) IsUniform := by
  -- Numbers are written in characters of their own, and texts are quoted; the others are fixed
  -- words or refused.
  cases v with
  | scalar s =>
    cases s with
    | null => exact gives_pure (by decide)
    | bool b => cases b <;> exact gives_pure (by decide)
    | int n => exact gives_pure (isUniform_intText n)
    | float x =>
      unfold literal
      dsimp only
      split_ifs
      · exact gives_pure (isUniform_doubleText x)
      · exact gives_throw _
    | str s => exact gives_quote _
    | time t => exact gives_throw _
    | bytes b => exact gives_throw _
  | _ => exact gives_throw _

/-- The encoder `literals vs` gives uniform texts only. -/
theorem gives_literals (vs : List Value) : Gives (literals vs) AllUniform := by
  induction vs with
  | nil => exact gives_pure fun _ h => absurd h List.not_mem_nil
  | cons v rest ih =>
    exact (gives_literal v).bind fun _ htext => ih.map fun _ => AllUniform.cons htext

/-- The encoder `default v` gives uniform texts only, for calls as for values. -/
theorem gives_default (v : Value) : Gives (default v) IsUniform := by
  by_cases h : ∃ name arguments, v = .function name arguments
  · obtain ⟨name, arguments, rfl⟩ := h
    rw [default_function]
    split_ifs with hname
    -- Only the two known functions get as far as this.
    · have hname : IsUniform name := by
        simp only [defaultFunctions, List.contains_eq_mem, List.mem_cons, List.not_mem_nil,
          or_false, decide_eq_true_eq] at hname
        rcases hname with rfl | rfl <;> decide
      have hcall : IsUniform (builderName ++ ".Default." ++ name ++ "(") :=
        ((by decide : IsUniform (builderName ++ ".Default.")).append hname).append (by decide)
      exact (gives_literals arguments).map fun _ htexts =>
        (hcall.append (.join (by decide) htexts)).append (by decide)
    · exact gives_throw _
  · rw [default_eq_literal fun name arguments heq => h ⟨name, arguments, heq⟩]
    exact gives_literal v

/-- The encoder `embedded v indent` gives uniform texts only: JSON escapes carriage returns. -/
theorem gives_embedded (v : Value) (indent : Option ℤ) :
    Gives (liftM (embedded v indent) : Encoder String) IsUniform := by
  refine gives_lift fun text h => ?_
  unfold embedded at h
  split at h
  · rename_i written hwritten
    exact Except.ok.inj h ▸ Json.isUniform_write hwritten
  · cases h

/-- The encoder `memberUnless` gives uniform members only, if the encoder of the member does. -/
theorem gives_memberUnless {absent : Bool} {name : String} {e : Encoder String}
    (hname : IsUniform name) (he : Gives e IsUniform) :
    Gives (memberUnless absent name e) MembersUniform := by
  unfold memberUnless
  split_ifs
  · exact gives_pure fun _ h => absurd h List.not_mem_nil
  · exact he.map fun _ htext => List.forall_mem_singleton.mpr ⟨hname, htext⟩

/-- The encoder `options o` gives uniform texts only. -/
theorem gives_options (o : Options) : Gives (options o) IsUniform := by
  rw [options_eq]
  refine (gives_memberUnless (by decide) (gives_literal _)).bind fun _ hnullable => ?_
  refine (gives_memberUnless (by decide) (gives_default _)).map fun _ hdefault => ?_
  split_ifs
  · decide
  · exact isUniform_inlineObject (hnullable.append hdefault)

/-! ## Attributes -/

/-- The encoder `subquery q` gives uniform texts only. -/
theorem gives_subquery (q : Query) : Gives (subquery q) IsUniform := by
  rw [subquery_eq]
  refine (gives_memberUnless (by decide) (gives_embedded _ _)).bind fun _ hcondition => ?_
  refine (gives_memberUnless (by decide) (gives_literal _)).bind fun _ hlimit => ?_
  exact (gives_memberUnless (by decide) (gives_embedded _ _)).map fun _ horder =>
    isUniform_inlineObject (hcondition.append (hlimit.append horder))

/-- The encoder `relation` gives uniform texts only, whatever the target is. -/
theorem gives_relation (cardinality target : Value) (q : Query) :
    Gives (relation cardinality target q) IsUniform := by
  unfold relation
  refine (gives_quote target).bind fun _ htarget => ?_
  split
  · exact (gives_literal _).map fun _ hid => isUniform_construct (by decide)
      (AllUniform.cons htarget (List.forall_mem_singleton.mpr hid))
  · refine (gives_subquery q).map fun _ hquery => isUniform_construct ?_
      (AllUniform.cons htarget (List.forall_mem_singleton.mpr hquery))
    split_ifs <;> decide

/-- The encoder `primitive` gives uniform texts only. -/
theorem gives_primitive (kind : Value) (o : Options) : Gives (primitive kind o) IsUniform := by
  cases h : constructorOf? kind with
  | none =>
    obtain ⟨failure, heq⟩ := primitive_of_none (o := o) h
    rw [heq]
    exact gives_throw failure
  | some constructor =>
    -- The constructors are the four of the table.
    have hconstructor : IsUniform constructor := by
      unfold constructorOf? at h
      split at h
      · have hmem := Entries.mem_of_get? h
        simp only [primitiveConstructors, List.mem_cons, Prod.mk.injEq, List.not_mem_nil,
          or_false] at hmem
        rcases hmem with ⟨-, rfl⟩ | ⟨-, rfl⟩ | ⟨-, rfl⟩ | ⟨-, rfl⟩ <;> decide
      · cases h
    rw [primitive_of_some h]
    exact (gives_options o).map fun _ ho =>
      isUniform_construct hconstructor (List.forall_mem_singleton.mpr ho)

end Source

open Encoder

mutual

/-- An attribute is written as a uniform text. The induction is on the attribute. -/
theorem Attribute.gives_toSource (a : Attribute) (optional : Bool) :
    Gives (a.toSource optional) IsUniform := by
  cases a with
  | relation cardinality target query => exact Source.gives_relation cardinality target query
  | primitive kind o =>
    exact (Source.gives_primitive kind o).map fun _ h => Source.isUniform_wrapOptional h optional
  | set items o =>
    refine (Attribute.gives_toSource items false).bind fun _ hitems => ?_
    exact (Source.gives_options o).map fun _ ho => Source.isUniform_wrapOptional
      (Source.isUniform_construct (by decide)
        (Source.AllUniform.cons hitems (List.forall_mem_singleton.mpr ho))) optional
  | record properties keys =>
    exact (gives_membersToSource keys properties).map fun _ h =>
      Source.isUniform_wrapOptional (Source.isUniform_tree (by decide) h) optional
  | foreign v => exact gives_throw _

/-- The lines that `membersToSource` writes for the attributes of a tree are uniform. -/
theorem gives_membersToSource (keys : List String) (properties : List (String × Attribute)) :
    Gives (membersToSource keys properties) Source.AllUniform := by
  cases properties with
  | nil => exact gives_pure fun _ h => absurd h List.not_mem_nil
  | cons p rest =>
    refine (Attribute.gives_toSource p.2 (keys.contains p.1)).bind fun _ htext => ?_
    refine (gives_quote (.str p.1)).bind fun _ hkey => ?_
    exact (gives_membersToSource keys rest).map fun _ hrest => Source.AllUniform.cons
      (((hkey.append (by decide)).append htext).append (by decide)) hrest

end

/-! ## Modules -/

/-- What is written for a collection `IsUniform`. -/
theorem Collection.gives_toSource (c : Collection) : Gives c.toSource IsUniform := by
  rw [Collection.toSource_eq]
  refine (gives_membersToSource _ _).bind fun _ hlines => ?_
  refine (Source.gives_memberUnless (by decide) (Source.gives_embedded _ _)).map fun _ hrules => ?_
  have hschema := (by decide : IsUniform "schema: ").append
    (Source.isUniform_tree (by decide : IsUniform "Schema") hlines)
  refine Fragment.isUniform_block (by decide) (fun text htext => ?_) (by decide)
  obtain ⟨member, hmember, rfl⟩ := List.mem_map.mp htext
  exact ((hrules.lines).cons hschema member hmember).append (by decide)

/-- The names that a module uses have no carriage return. The usual ones have none. -/
structure ModuleOptions.IsUniform (o : ModuleOptions) : Prop where
  /-- The generator. -/
  generatorName : SchemaForge.IsUniform o.generatorName
  /-- The path of the import. -/
  importPath : SchemaForge.IsUniform o.importPath
  /-- The name of the exported object. -/
  exportName : SchemaForge.IsUniform o.exportName

end SchemaForge
