import SchemaForge.Proofs.Json.Representable
import SchemaForge.Proofs.Source.Module

/-!
# Quoting with and without a memory

The memory of quotes is not to be seen in what is written (section 5 of the specification). A table
of capacity zero is `forgetful`: with it, whatever is quoted is quoted anew. This compares what is
written with a table that arises with what is written without memory.

An entry is used for every value that shares it, and values that share an entry may be written
differently: `true`, `1.0` and the two zeros among the floats. So a relation's target that is one of
these `Value.isAmbiguous`, and it depends on the history of the table how it is written. Nothing
else does: errors are always the same, and so is the text as long as no such target meets an entry
that is written otherwise (`encodeModule_forgetful`).

The comparison goes through the encoder step by step (`Encoder.AgreesUnless`). It is made for tables
whose keys all lie in a set `K`, so that one induction serves any table and a particular one.
-/

namespace SchemaForge

/-- A scalar that shares its entry with a scalar that is written differently: a truth value, or a
number with a point that is worth zero or one. Equality of keys is by worth (`Scalar.agrees`). -/
def Value.isAmbiguous : Value → Bool
  | .bool _ => true
  | .float x => x.equalsInt 0 || x.equalsInt 1
  | _ => false

/-! ## Shared entries -/

namespace QuoteTable

variable {v w : Value} {t : QuoteTable} {text : String}

/-- Only an integer shares its entry with an integer that is quoted, so integers are not
ambiguous. -/
theorem eq_of_shares_int {n : ℤ} (h : shares v (.int n) = true) : v = .int n := by
  cases v with
  | scalar a =>
    cases a with
    | int m =>
      have heq : (m == n) = true := h
      rw [eq_of_beq heq]
    | _ => cases h
  | _ => cases h

/-- A zero of either sign is equal to the integer 0. -/
theorem equalsInt_of_isZero {x : Double} (h : x.isZero = true) : x.equalsInt 0 = true := by
  cases x with
  | finite negative b f =>
    have hm : Double.significand b f = 0 := by simpa [Double.isZero] using h
    simp [Double.equalsInt, hm]
  | _ => cases h

/-- Two numbers with a point that agree as keys are one number, unless both are zero and differ in
sign. -/
theorem eq_of_agrees_float {x y : Double} (hy : y.equalsInt 0 = false)
    (h : (Scalar.float x).agrees (.float y) = true) : x = y := by
  have hxy : (x == y || x.equals y) = true := h
  rcases Bool.or_eq_true_iff.mp hxy with heq | hequal
  · exact eq_of_beq heq
  -- Two zeros of different signs are equal too, and they are excluded.
  · have hzero : (x.isZero && y.isZero) = false := by
      rw [Bool.and_eq_false_iff]
      refine .inr (Bool.eq_false_iff.mpr fun hz => ?_)
      rw [equalsInt_of_isZero hz] at hy
      cases hy
    unfold Double.equals at hequal
    split at hequal
    · cases hequal
    · cases hequal
    · rw [hzero, Bool.or_false] at hequal
      exact eq_of_beq hequal

/-- A literal that is not ambiguous shares its entry with no other value. -/
theorem eq_of_shares_of_isLiteral (hw : w.isLiteral = true) (ha : w.isAmbiguous = false)
    (h : shares v w = true) : v = w := by
  -- Numbers are the only literals that are equal to others: a float to a bool only where it is zero
  -- or one, and these are the ambiguous ones.
  cases w with
  | scalar b =>
    cases b with
    | str s => exact eq_of_shares h
    | int n => exact eq_of_shares_int h
    | bool b => cases ha
    | time t => cases hw
    | bytes b => cases hw
    | null =>
      cases v with
      | scalar a =>
        cases a with
        | null => rfl
        | _ => cases h
      | _ => cases h
    | float y =>
      obtain ⟨hzero, hone⟩ : y.equalsInt 0 = false ∧ y.equalsInt 1 = false :=
        Bool.or_eq_false_iff.mp ha
      cases v with
      | scalar a =>
        cases a with
        | float x => rw [eq_of_agrees_float hzero h]
        | bool b =>
          have hworth : y.equalsInt (Scalar.ofBool b) = true := h
          cases b with
          | false => cases hzero.symm.trans hworth
          | true => cases hone.symm.trans hworth
        | _ => cases h
      | _ => cases h
  | _ => cases hw

variable {K : Value → Prop}

/-! ## What a table remembers -/

/-- The table without a memory: nothing that is quoted with it is kept. -/
def forgetful : QuoteTable := { capacity := 0 }

/-- The table remembers values in `K` only, and each one as it is quoted anew (`plainQuote`). -/
def Remembers (K : Value → Prop) (t : QuoteTable) : Prop :=
  ∀ e ∈ t.entries, K e.1 ∧ plainQuote e.1 = .ok e.2

/-- The values under which the table of quotes remembers something. -/
def keys (t : QuoteTable) : List Value := t.entries.map (·.1)

/-- Some value in `K` shares its entry with `w` and is quoted otherwise, so that a table may give
its text for `w`. -/
def IsConfused (K : Value → Prop) (w : Value) : Prop :=
  ∃ v, K v ∧ shares v w = true ∧ plainQuote v ≠ plainQuote w

/-- A text is never confused with another value, whatever is in `K`. -/
theorem not_isConfused_str (s : String) : ¬ IsConfused K (.str s) := by
  rintro ⟨v, -, hshares, hne⟩
  exact hne (congrArg plainQuote (eq_of_shares hshares))

/-- A table that remembers `K` still does when one of its entries is used. -/
theorem Remembers.touch (ht : t.Remembers K) {e : Value × String} (he : e ∈ t.entries) :
    (t.touch e).Remembers K := by
  intro o ho
  rcases List.mem_cons.mp ho with rfl | ho
  · exact ht o he
  · exact ht o (List.mem_filter.mp ho).1

/-- A table that remembers `K` still does when a value in `K` is added as it is quoted anew. -/
theorem Remembers.add (ht : t.Remembers K) (hv : K v) (htext : plainQuote v = .ok text) :
    (t.add (v, text)).Remembers K := by
  intro o ho
  rcases List.mem_cons.mp (List.mem_of_mem_take ho) with rfl | ho
  · exact ⟨hv, htext⟩
  · exact ht o ho

/-- A value whose entry is in the table is quoted as the entry has it, and nothing is computed. -/
theorem run_quote_of_some (hhash : w.isHashable = true) {e : Value × String}
    (hfind : t.find? w = some e) : (quote w).run t = .ok (e.2, t.touch e) := by
  show quote w t = _
  unfold quote
  rw [hhash, if_neg (by exact Bool.false_ne_true), hfind]

/-- A value that has no entry in the table is quoted anew, and its text is added. -/
theorem run_quote_of_none (hhash : w.isHashable = true) (hfind : t.find? w = none)
    (htext : plainQuote w = .ok text) : (quote w).run t = .ok (text, t.add (w, text)) := by
  show quote w t = _
  unfold quote
  rw [hhash, if_neg (by exact Bool.false_ne_true), hfind, htext]

/-- Quoting a value in `K` succeeds with a table that remembers `K` and leaves such a table. If the
value is not confused, its text is that of `plainQuote`. -/
theorem Remembers.run_quote (ht : t.Remembers K) (hw : K w) (hhash : w.isHashable = true)
    (htext : plainQuote w = .ok text) :
    ∃ text' t', (quote w).run t = .ok (text', t') ∧ t'.Remembers K ∧
      (¬ IsConfused K w → text' = text) := by
  cases hfind : t.find? w with
  | some e =>
    have he : e ∈ t.entries := List.mem_of_find?_eq_some hfind
    have hshares := List.find?_some hfind
    refine ⟨e.2, _, run_quote_of_some hhash hfind, ht.touch he, fun hclear => ?_⟩
    have hplain : plainQuote e.1 = plainQuote w :=
      not_not.mp fun hne => hclear ⟨e.1, (ht e he).1, hshares, hne⟩
    have hsame := (ht e he).2
    rw [hplain, htext] at hsame
    exact (Except.ok.inj hsame).symm
  | none =>
    exact ⟨text, _, run_quote_of_none hhash hfind htext, ht.add hw htext, fun _ => rfl⟩

/-- A literal can be looked up in the table of quotes. -/
theorem isHashable_of_isLiteral (hw : w.isLiteral = true) : w.isHashable = true := by
  cases w with
  | scalar => rfl
  | _ => cases hw

/-- A literal can be quoted without a table. -/
theorem exists_plainQuote (hw : w.isLiteral = true) : ∃ text, plainQuote w = .ok text := by
  cases w with
  | scalar a =>
    have hplain : a.isPlain = true := by
      cases a with
      | time => cases hw
      | bytes => cases hw
      | _ => rfl
    exact Json.exists_scalar_of_isPlain rfl hplain
  | _ => cases hw

/-- Without a memory a value is quoted anew, and nothing is remembered of it. -/
theorem run_quote_forgetful (hhash : w.isHashable = true) (htext : plainQuote w = .ok text) :
    (quote w).run forgetful = .ok (text, forgetful) := run_quote_of_none hhash rfl htext

/-- A table that arises remembers what was quoted as it is quoted anew, for `K` that holds of
everything. -/
theorem Arises.remembers (h : t.Arises) : t.Remembers fun _ => True := by
  induction h with
  | empty => exact fun _ he => absurd he List.not_mem_nil
  | @quote t t' v text _ h ih =>
    have h : SchemaForge.quote v t = .ok (text, t') := h
    unfold SchemaForge.quote at h
    -- The value is refused, found in the table, or quoted and added to it.
    split at h
    · cases h
    split at h
    · rename_i e hfind
      cases h
      exact ih.touch (List.mem_of_find?_eq_some hfind)
    · split at h
      · rename_i hplain
        cases h
        exact ih.add trivial hplain
      · cases h

end QuoteTable

/-! ## Encoders with and without a memory -/

open QuoteTable in
/-- With any table that remembers `K`, the encoder `e` fails exactly as `e'` fails without a memory.
It has a result where `e'` has one, which is the same unless `confused` holds, and leaves a table
that remembers `K`. -/
def Encoder.AgreesUnless (K : Value → Prop) (confused : Prop) (e e' : Encoder α) : Prop :=
  ∀ t : QuoteTable, t.Remembers K →
    (∃ failure, e.run t = .error failure ∧ e'.run forgetful = .error failure) ∨
    ∃ a a' t', e.run t = .ok (a, t') ∧ e'.run forgetful = .ok (a', forgetful) ∧
      t'.Remembers K ∧ (¬ confused → a = a')

/-- A target may be quoted in a comparison for tables that remember `K`: it is in `K`, it is a
literal, and only where it is not confused does the comparison promise equal texts. -/
structure Encoder.Covers (K : Value → Prop) (confused : Prop) (target : Value) : Prop where
  /-- It may become a key. -/
  key : K target
  /-- It is a literal. -/
  isLiteral : target.isLiteral = true
  /-- The result may be confused if the target is. -/
  confuses : QuoteTable.IsConfused K target → confused

namespace Encoder

open QuoteTable

variable {α β : Type} {K : Value → Prop} {confused : Prop} {e e' : Encoder α}
  {f f' : α → Encoder β}

/-- Two results without fail agree if they are equal as long as nothing is confused. -/
theorem agreesUnless_pure {a a' : α} (h : ¬ confused → a = a') :
    AgreesUnless K confused (pure a) (pure a') :=
  fun t ht => .inr ⟨a, a', t, rfl, rfl, ht, h⟩

/-- A failure fails alike with a memory and without, whatever the memory may be confused about. -/
theorem agreesUnless_throw (failure : Failure Unencodable) :
    AgreesUnless K confused (throw failure : Encoder α) (throw failure) :=
  fun _ _ => .inl ⟨failure, rfl, rfl⟩

/-- What does not use the table has the same outcome with a memory and without. -/
theorem agreesUnless_lift (x : Outcome Unencodable α) :
    AgreesUnless K confused (liftM x : Encoder α) (liftM x) := by
  cases x with
  | error failure => exact agreesUnless_throw failure
  | ok a => exact agreesUnless_pure fun _ => rfl

/-- Two sequences agree if their first parts do, and their second parts do for results that are
equal unless confused. -/
theorem AgreesUnless.bind (he : AgreesUnless K confused e e')
    (hf : ∀ a a', (¬ confused → a = a') → AgreesUnless K confused (f a) (f' a')) :
    AgreesUnless K confused (e >>= f) (e' >>= f') := by
  intro t ht
  rw [run_bind, run_bind]
  rcases he t ht with ⟨failure, hrun, hrun'⟩ | ⟨a, a', t', hrun, hrun', ht', hsame⟩
  · rw [hrun, hrun']
    exact .inl ⟨failure, rfl, rfl⟩
  · rw [hrun, hrun']
    exact hf a a' hsame t' ht'

/-- Results that agree still agree when they are changed in the same way. -/
theorem AgreesUnless.map (he : AgreesUnless K confused e e') (g : α → β) :
    AgreesUnless K confused (do return g (← e)) (do return g (← e')) :=
  he.bind fun _ _ hsame => agreesUnless_pure fun hclear => congrArg g (hsame hclear)

/-- A text is quoted with a memory as without, since texts are never confused
(`not_isConfused_str`). -/
theorem agreesUnless_quote (hK : ∀ s, K (.str s)) (s : String) :
    AgreesUnless K confused (quote (.str s)) (quote (.str s)) := by
  intro t ht
  have hplain : plainQuote (.str s) = .ok (Json.quote s) := rfl
  obtain ⟨text, t', hrun, ht', hsame⟩ := ht.run_quote (hK s) rfl hplain
  exact .inr ⟨text, _, t', hrun, run_quote_forgetful rfl hplain, ht',
    fun _ => hsame (not_isConfused_str s)⟩

/-- A literal that is covered is quoted with a memory as without, unless it is confused. -/
theorem agreesUnless_quote_literal {w : Value} (hw : Covers K confused w) :
    AgreesUnless K confused (quote w) (quote w) := by
  intro t ht
  obtain ⟨text, hplain⟩ := exists_plainQuote hw.isLiteral
  have hhash := isHashable_of_isLiteral hw.isLiteral
  obtain ⟨text', t', hrun, ht', hsame⟩ := ht.run_quote hw.key hhash hplain
  exact .inr ⟨text', text, t', hrun, run_quote_forgetful hhash hplain, ht',
    fun hclear => hsame fun h => hclear (hw.confuses h)⟩

end Encoder

namespace Source

open Encoder

variable {K : Value → Prop} {confused : Prop}

/-- The encoder `literal v` writes with any table that remembers `K` what it writes without a
memory, and fails alike: it quotes texts only. -/
theorem agreesUnless_literal (hK : ∀ s, K (.str s)) (v : Value) :
    AgreesUnless K confused (literal v) (literal v) := by
  unfold literal
  split
  · exact agreesUnless_pure fun _ => rfl
  · exact agreesUnless_pure fun _ => rfl
  · exact agreesUnless_quote hK _
  · exact agreesUnless_pure fun _ => rfl
  · split_ifs
    · exact agreesUnless_pure fun _ => rfl
    · exact agreesUnless_throw _
  · exact agreesUnless_throw _

/-- The encoder `literals vs` writes with any table that remembers `K` what it writes without a
memory, and fails at the same value. -/
theorem agreesUnless_literals (hK : ∀ s, K (.str s)) (vs : List Value) :
    AgreesUnless K confused (literals vs) (literals vs) := by
  induction vs with
  | nil => exact agreesUnless_pure fun _ => rfl
  | cons v rest ih =>
    refine (agreesUnless_literal hK v).bind fun text text' htext => ?_
    refine ih.bind fun texts texts' htexts => agreesUnless_pure fun hclear => ?_
    rw [htext hclear, htexts hclear]

/-- The encoder `default v` writes with any table that remembers `K` what it writes without a
memory, and fails alike, for a list of defaults as for one value. -/
theorem agreesUnless_default (hK : ∀ s, K (.str s)) (v : Value) :
    AgreesUnless K confused (default v) (default v) := by
  by_cases h : ∃ name arguments, v = .function name arguments
  · obtain ⟨name, arguments, rfl⟩ := h
    rw [default_function]
    split_ifs
    · exact (agreesUnless_literals hK arguments).map _
    · exact agreesUnless_throw _
  · rw [default_eq_literal fun name arguments heq => h ⟨name, arguments, heq⟩]
    exact agreesUnless_literal hK v

/-- The encoder `memberUnless absent name e` agrees with itself if `e` does, since a member that is
left out quotes nothing. -/
theorem agreesUnless_memberUnless {e : Encoder String} (he : AgreesUnless K confused e e)
    (absent : Bool) (name : String) :
    AgreesUnless K confused (memberUnless absent name e) (memberUnless absent name e) := by
  unfold memberUnless
  split_ifs
  · exact agreesUnless_pure fun _ => rfl
  · exact he.map _

/-- The encoder `options o` writes the settings with any table that remembers `K` as without a
memory, and fails alike. -/
theorem agreesUnless_options (hK : ∀ s, K (.str s)) (o : Options) :
    AgreesUnless K confused (options o) (options o) := by
  rw [options_eq]
  refine (agreesUnless_memberUnless (agreesUnless_literal hK _) _ _).bind fun ms ms' hms => ?_
  refine (agreesUnless_memberUnless (agreesUnless_default hK _) _ _).bind fun ns ns' hns => ?_
  refine agreesUnless_pure fun hclear => ?_
  rw [hms hclear, hns hclear]

/-- The encoder `subquery q` writes a query with any table that remembers `K` as without a memory,
and fails alike. -/
theorem agreesUnless_subquery (hK : ∀ s, K (.str s)) (q : Query) :
    AgreesUnless K confused (subquery q) (subquery q) := by
  rw [subquery_eq]
  refine (agreesUnless_memberUnless (agreesUnless_lift _) _ _).bind fun ms ms' hms => ?_
  refine (agreesUnless_memberUnless (agreesUnless_literal hK _) _ _).bind fun ns ns' hns => ?_
  refine (agreesUnless_memberUnless (agreesUnless_lift _) _ _).bind fun os os' hos => ?_
  refine agreesUnless_pure fun hclear => ?_
  rw [hms hclear, hns hclear, hos hclear]

/-- The encoder `relation cardinality target q` writes with any table that remembers `K` what it
writes without a memory, unless the target is confused, and it fails alike in any case. -/
theorem agreesUnless_relation (hK : ∀ s, K (.str s)) {target : Value}
    (ht : Covers K confused target) (cardinality : Value) (q : Query) :
    AgreesUnless K confused (relation cardinality target q) (relation cardinality target q) := by
  unfold relation
  refine (agreesUnless_quote_literal ht).bind fun text text' htext => ?_
  split
  · refine (agreesUnless_literal hK _).bind fun id id' hid => agreesUnless_pure fun hclear => ?_
    rw [htext hclear, hid hclear]
  · refine (agreesUnless_subquery hK q).bind fun query query' hquery =>
      agreesUnless_pure fun hclear => ?_
    rw [htext hclear, hquery hclear]

/-- The encoder `primitive kind o` writes with any table that remembers `K` what it writes without a
memory, and fails alike. -/
theorem agreesUnless_primitive (hK : ∀ s, K (.str s)) (kind : Value) (o : Options) :
    AgreesUnless K confused (primitive kind o) (primitive kind o) := by
  cases hkind : constructorOf? kind with
  | none =>
    obtain ⟨failure, heq⟩ := primitive_of_none (o := o) hkind
    rw [heq]
    exact agreesUnless_throw failure
  | some constructor =>
    rw [primitive_of_some hkind]
    exact (agreesUnless_options hK o).map _

end Source

/-! ## Attributes, collections and schemas -/

mutual

/-- The targets of the relations in an attribute, at every depth. They are the only values that are
quoted and need not be texts. -/
def Attribute.targets : Attribute → List Value
  | .primitive _ _ => []
  | .set items _ => items.targets
  | .record properties _ => targetsOf properties
  | .relation _ target _ => [target]
  | .foreign _ => []

/-- The targets of the relations in the attributes of a tree, in the order in which these are
written. -/
def targetsOf : List (String × Attribute) → List Value
  | [] => []
  | p :: rest => p.2.targets ++ targetsOf rest

end

/-- The targets of the relations in all collections of a schema, at every depth (`targetsOf`). -/
def Schema.targets (s : Schema) : List Value :=
  s.collections.flatMap fun p => targetsOf p.2.schema.properties

open Encoder

variable {K : Value → Prop} {confused : Prop}

mutual

/-- An attribute whose targets are covered is written with any table that remembers `K` as without a
memory, unless a target is confused, and fails alike. -/
theorem Attribute.agreesUnless_toSource (hK : ∀ s, K (.str s)) (a : Attribute)
    (h : ∀ w ∈ a.targets, Covers K confused w) (optional : Bool) :
    AgreesUnless K confused (a.toSource optional) (a.toSource optional) := by
  cases a with
  | primitive kind o => exact (Source.agreesUnless_primitive hK kind o).map _
  | set items o =>
    refine (Attribute.agreesUnless_toSource hK items h false).bind fun text text' htext => ?_
    refine (Source.agreesUnless_options hK o).bind fun argument argument' hargument =>
      agreesUnless_pure fun hclear => ?_
    rw [htext hclear, hargument hclear]
  | record properties keys => exact (agreesUnless_membersToSource hK properties h keys).map _
  | relation cardinality target query =>
    exact Source.agreesUnless_relation hK (h target List.mem_cons_self) cardinality query
  | foreign v => exact agreesUnless_throw _

/-- The members of a tree whose targets are covered are written with any table that remembers `K` as
without a memory, unless a target is confused, and fail alike. -/
theorem agreesUnless_membersToSource (hK : ∀ s, K (.str s)) (properties : List (String × Attribute))
    (h : ∀ w ∈ targetsOf properties, Covers K confused w) (keys : List String) :
    AgreesUnless K confused (membersToSource keys properties)
      (membersToSource keys properties) := by
  cases properties with
  | nil => exact agreesUnless_pure fun _ => rfl
  | cons p rest =>
    have hfirst := Attribute.agreesUnless_toSource hK p.2
      (fun w hw => h w (List.mem_append_left _ hw)) (keys.contains p.1)
    have hrest := agreesUnless_membersToSource hK rest
      (fun w hw => h w (List.mem_append_right _ hw)) keys
    refine hfirst.bind fun text text' htext => ?_
    refine (agreesUnless_quote hK p.1).bind fun key key' hkey => ?_
    refine hrest.bind fun lines lines' hlines => agreesUnless_pure fun hclear => ?_
    rw [htext hclear, hkey hclear, hlines hclear]

end

/-- Collections whose targets are covered are written with any table that remembers `K` as without a
memory, unless a target is confused, and fail alike. -/
theorem agreesUnless_collectionsToSource (hK : ∀ s, K (.str s))
    {collections : List (String × Collection)}
    (h : ∀ p ∈ collections, ∀ w ∈ targetsOf p.2.schema.properties, Covers K confused w) :
    AgreesUnless K confused (collectionsToSource collections)
      (collectionsToSource collections) := by
  induction collections with
  | nil => exact agreesUnless_pure fun _ => rfl
  | cons p rest ih =>
    have htree := agreesUnless_membersToSource hK p.2.schema.properties
      (h p List.mem_cons_self) p.2.schema.optional
    -- The lines of a collection agree if its tree and its rules do; rules carry no target.
    have hcollection : AgreesUnless K confused p.2.toSource p.2.toSource := by
      rw [Collection.toSource_eq]
      refine htree.bind fun lines lines' hlines => ?_
      refine (Source.agreesUnless_memberUnless (agreesUnless_lift _) _ _).bind
        fun rules rules' hrules => agreesUnless_pure fun hclear => ?_
      rw [hlines hclear, hrules hclear]
    have hrest := ih fun q hq => h q (List.mem_cons_of_mem p hq)
    refine (agreesUnless_quote hK p.1).bind fun name name' hname => ?_
    refine hcollection.bind fun text text' htext => ?_
    refine hrest.bind fun lines lines' hlines => agreesUnless_pure fun hclear => ?_
    rw [hname hclear, htext hclear, hlines hclear]

/-- The encoder `encodeModule` gives for a schema whose targets are covered, with any table that
remembers `K`, the text that it gives without a memory, unless a target is confused, and it fails
alike in any case. -/
theorem agreesUnless_encodeModule (hK : ∀ s, K (.str s)) {s : Schema}
    (h : ∀ w ∈ s.targets, Covers K confused w) (o : ModuleOptions) :
    AgreesUnless K confused (encodeModule o (some s)) (encodeModule o (some s)) := by
  have hcollections := agreesUnless_collectionsToSource hK fun p hp w hw =>
    h w (List.mem_flatMap.mpr ⟨p, hp, hw⟩)
  exact (hcollections.map _).map _

/-! ## The history of the table -/

/-- What an encoder gives with a table, without the table that it leaves. -/
def Encoder.resultWith (t : QuoteTable) (e : Encoder α) : Outcome Unencodable α :=
  (e.run t).map (·.1)

namespace QuoteTable

variable {v w : Value}

/-- A finite number is not written like a truth value, so that the two can be told apart in a
text. -/
theorem plainQuote_float_ne_bool {x : Double} (hx : x.isFinite = true) (b : Bool) :
    plainQuote (.float x) ≠ plainQuote (.bool b) := by
  have hfloat : plainQuote (.float x) = .ok (x.text Number.jsonLayout) := by
    show (if x.isFinite || true then _ else _) = _
    rw [Bool.or_true, if_pos rfl]
  have hword : Source.decodeNumber (if b then "true" else "false") = .float (.nan 0) := by
    cases b <;> rfl
  intro heq
  rw [hfloat] at heq
  have htext : x.text Number.jsonLayout = if b then "true" else "false" := Except.ok.inj heq
  -- What is written is read again, and a word is not read as a finite number.
  rw [← htext, Source.decodeNumber_text Number.jsonLayout hx] at hword
  cases hword
  cases hx

/-- A number with a point shares the entry of the truth value that it is worth, as equal keys of one
mapping. -/
theorem shares_float_bool (x : Double) (b : Bool) :
    shares (.float x) (.bool b) = x.equalsInt (Scalar.ofBool b) := rfl

/-- An ambiguous literal shares its entry with a literal that is written differently, so that none
of the cases of `Value.isAmbiguous` is idle. -/
theorem exists_shares_of_isAmbiguous (hw : w.isLiteral = true) (ha : w.isAmbiguous = true) :
    ∃ v : Value, v.isLiteral = true ∧ shares v w = true ∧ plainQuote v ≠ plainQuote w := by
  -- The partner of a bool is the float with its value, and that of such a float is the bool.
  cases w with
  | scalar a =>
    cases a with
    | bool b =>
      cases b with
      | false =>
        have hzero : (Double.zero false).equalsInt 0 = true := equalsInt_of_isZero rfl
        refine ⟨.float (.zero false), rfl, ?_, plainQuote_float_ne_bool rfl false⟩
        rw [shares_float_bool]
        exact hzero
      | true =>
        have hone : (Double.finite false 1023 0).equalsInt 1 = true := by decide +kernel
        refine ⟨.float (.finite false 1023 0), rfl, ?_, plainQuote_float_ne_bool rfl true⟩
        rw [shares_float_bool]
        exact hone
    | float x =>
      have hworth : (x.equalsInt 0 || x.equalsInt 1) = true := ha
      rcases Bool.or_eq_true_iff.mp hworth with hzero | hone
      · exact ⟨.bool false, rfl, hzero, (plainQuote_float_ne_bool hw false).symm⟩
      · exact ⟨.bool true, rfl, hone, (plainQuote_float_ne_bool hw true).symm⟩
    | _ => cases ha
  | _ => cases ha

/-- For two literals that share an entry, some table that arises has the second one quoted as the
first. -/
theorem resultWith_quote_of_shares (hv : v.isLiteral = true) (hw : w.isLiteral = true)
    (h : shares v w = true) : ∃ t : QuoteTable, t.Arises ∧
      (quote w).resultWith t = (quote v).resultWith forgetful := by
  obtain ⟨text, htext⟩ := exists_plainQuote hv
  have hhash := isHashable_of_isLiteral hv
  have hfirst := run_quote_of_none (t := {}) hhash rfl htext
  have hfind : (({} : QuoteTable).add (v, text)).find? w = some (v, text) :=
    List.find?_cons_of_pos (p := fun e : Value × String => shares e.1 w) (l := []) h
  refine ⟨_, .quote .empty hfirst, ?_⟩
  rw [Encoder.resultWith, Encoder.resultWith, run_quote_forgetful hhash htext,
    run_quote_of_some (isHashable_of_isLiteral hw) hfind]
  rfl

/-- A literal is quoted as without a memory after every history exactly if it is not ambiguous. -/
theorem forall_resultWith_quote_iff (hw : w.isLiteral = true) :
    (∀ t : QuoteTable, t.Arises → (quote w).resultWith t = (quote w).resultWith forgetful) ↔
      w.isAmbiguous = false := by
  obtain ⟨text, htext⟩ := exists_plainQuote hw
  have hhash := isHashable_of_isLiteral hw
  -- An ambiguous literal is betrayed by the table in which its partner was quoted before it.
  constructor
  · intro h
    refine Bool.eq_false_iff.mpr fun ha => ?_
    obtain ⟨v, hv, hshares, hne⟩ := exists_shares_of_isAmbiguous hw ha
    obtain ⟨text', htext'⟩ := exists_plainQuote hv
    obtain ⟨t, ht, heq⟩ := resultWith_quote_of_shares hv hw hshares
    rw [h t ht, Encoder.resultWith, Encoder.resultWith, run_quote_forgetful hhash htext,
      run_quote_forgetful (isHashable_of_isLiteral hv) htext'] at heq
    have hsame : text = text' := Except.ok.inj heq
    rw [htext, htext', hsame] at hne
    exact hne rfl
  · intro ha t ht
    obtain ⟨text', t', hrun, -, hsame⟩ := ht.remembers.run_quote trivial hhash htext
    have hclear : ¬ IsConfused (fun _ => True) w := by
      rintro ⟨v, -, hshares, hne⟩
      exact hne (congrArg plainQuote (eq_of_shares_of_isLiteral hw ha hshares))
    rw [Encoder.resultWith, Encoder.resultWith, hrun, run_quote_forgetful hhash htext,
      hsame hclear]
    rfl

end QuoteTable

variable {s : Schema} {t : QuoteTable} {o : ModuleOptions}

/-- A schema whose targets are literals fails with a table that arises exactly as it fails without a
memory. -/
theorem resultWith_encodeModule_error (hs : ∀ w ∈ s.targets, w.isLiteral = true) (ht : t.Arises)
    (failure : Failure Unencodable) :
    (encodeModule o (some s)).resultWith t = .error failure ↔
      (encodeModule o (some s)).resultWith .forgetful = .error failure := by
  have hagrees : Encoder.AgreesUnless (fun _ => True) True (encodeModule o (some s))
      (encodeModule o (some s)) :=
    agreesUnless_encodeModule (fun _ => trivial)
      (fun w hw => ⟨trivial, hs w hw, fun _ => trivial⟩) o
  unfold Encoder.resultWith
  rcases hagrees t ht.remembers with ⟨failure', hrun, hrun'⟩ | ⟨a, a', t', hrun, hrun', -⟩
  · rw [hrun, hrun']
  · rw [hrun, hrun']
    constructor <;> exact fun h => by cases h

/-- A schema whose targets are literals is written with a table as without a memory, if no ambiguous
target meets another target or an entry of the table that it shares and that is written
differently. -/
theorem resultWith_encodeModule (hs : ∀ w ∈ s.targets, w.isLiteral = true) (ht : t.Arises)
    (hclear : ∀ w ∈ s.targets, w.isAmbiguous = true → ∀ v, v ∈ s.targets ∨ v ∈ t.keys →
      QuoteTable.shares v w = true → plainQuote v = plainQuote w) :
    (encodeModule o (some s)).resultWith t = (encodeModule o (some s)).resultWith .forgetful := by
  let K : Value → Prop := fun v => (∃ text, v = .str text) ∨ v ∈ s.targets ∨ v ∈ t.keys
  have htable : t.Remembers K := fun e he =>
    ⟨.inr (.inr (List.mem_map_of_mem he)), (ht.remembers e he).2⟩
  -- A text shares its entry with texts only, and so it confuses none but itself.
  have hnever : ∀ w ∈ s.targets, ¬ QuoteTable.IsConfused K w := by
    rintro w hw ⟨v, hv, hshares, hne⟩
    cases ha : w.isAmbiguous with
    | false => exact hne (congrArg plainQuote
        (QuoteTable.eq_of_shares_of_isLiteral (hs w hw) ha hshares))
    | true =>
      rcases hv with ⟨text, rfl⟩ | hv
      · cases w with
        | scalar a =>
          cases a with
          | bool => exact Bool.noConfusion hshares
          | float => exact Bool.noConfusion hshares
          | _ => cases ha
        | _ => cases ha
      · exact hne (hclear w hw ha v hv hshares)
  have hagrees : Encoder.AgreesUnless K False (encodeModule o (some s))
      (encodeModule o (some s)) :=
    agreesUnless_encodeModule (fun text => .inl ⟨text, rfl⟩)
      (fun w hw => ⟨.inr (.inl hw), hs w hw, hnever w hw⟩) o
  unfold Encoder.resultWith
  rcases hagrees t htable with ⟨failure, hrun, hrun'⟩ | ⟨a, a', t', hrun, hrun', -, hsame⟩
  · rw [hrun, hrun']
  · rw [hrun, hrun', hsame not_false]
    rfl

/-- Quoting with a memory is quoting without one, as far as it goes. A schema whose targets are
literals fails with a table that arises as it fails without a memory; its text is the same if no
ambiguous target meets a target or an entry of the table that it shares and that is written
differently. And a target is quoted alike after every history exactly when it is not ambiguous. -/
theorem encodeModule_forgetful (s : Schema) (o : ModuleOptions)
    (hs : ∀ w ∈ s.targets, w.isLiteral = true) :
    (∀ t : QuoteTable, t.Arises →
      (∀ failure, (encodeModule o (some s)).resultWith t = .error failure ↔
        (encodeModule o (some s)).resultWith .forgetful = .error failure) ∧
      ((∀ w ∈ s.targets, w.isAmbiguous = true → ∀ v, v ∈ s.targets ∨ v ∈ t.keys →
          QuoteTable.shares v w = true → plainQuote v = plainQuote w) →
        (encodeModule o (some s)).resultWith t
          = (encodeModule o (some s)).resultWith .forgetful)) ∧
    ∀ w ∈ s.targets,
      ((∀ t : QuoteTable, t.Arises →
          (quote w).resultWith t = (quote w).resultWith .forgetful) ↔ w.isAmbiguous = false) :=
  ⟨fun _ ht => ⟨resultWith_encodeModule_error hs ht, resultWith_encodeModule hs ht⟩,
    fun w hw => QuoteTable.forall_resultWith_quote_iff (hs w hw)⟩

/-! ## A number and a truth value -/

/-- A schema with two relations of given targets, one behind the other. -/
def linkedSchema (first second : Value) : Schema where
  version := 0
  collections := [("a", {
    schema := {
      properties := [("x", .relation (.str "many") first {}),
        ("y", .relation (.str "many") second {})]
      optional := [] } })]

/-- The module of a `linkedSchema` whose two targets are quoted so. -/
def linkedText (first second : String) : String :=
  let line := fun key target => Json.quote key ++ ": "
    ++ Source.construct "RelationMany" [target, Source.inlineObject []] ++ ","
  let tree := Fragment.block "S.Schema(\x7b" [line "x" first, line "y" second] "\x7d)"
  let collection := Fragment.block "\x7b" ["schema: " ++ tree ++ ","] "\x7d"
  moduleText {} (Fragment.block "\x7b" [Json.quote "a" ++ ": " ++ collection ++ ","] "\x7d")

/-- The module of a `linkedSchema` is determined by how its names and targets are quoted, one after
the other. -/
theorem run_linkedSchema {v w : Value} {t t₁ t₂ t₃ t₄ t₅ : QuoteTable} {first second : String}
    (ha : (quote (.str "a")).run t = .ok (Json.quote "a", t₁))
    (hv : (quote v).run t₁ = .ok (first, t₂))
    (hx : (quote (.str "x")).run t₂ = .ok (Json.quote "x", t₃))
    (hw : (quote w).run t₃ = .ok (second, t₄))
    (hy : (quote (.str "y")).run t₄ = .ok (Json.quote "y", t₅)) :
    (encodeModule {} (some (linkedSchema v w))).resultWith t = .ok (linkedText first second) := by
  have hrelation : ∀ (w : Value) (t : QuoteTable), (Source.relation (.str "many") w {}).run t =
      (quote w).run t >>= fun p =>
        .ok (Source.construct "RelationMany" [p.1, Source.inlineObject []], p.2) :=
    fun _ _ => rfl
  unfold Encoder.resultWith encodeModule encodeCollections
  simp only [linkedSchema, Option.map, Option.getD, collectionsToSource, Collection.toSource_eq,
    membersToSource, Attribute.toSource, hrelation, Encoder.run_bind, ha, hv, hx, hw, hy,
    Outcome.ok_bind]
  rfl

/-- With a number and a text as targets nothing is confused in an empty table, though the number
would be after `true`. -/
theorem encodeModule_forgetful_linkedSchema :
    (∀ w ∈ (linkedSchema (.float (.finite false 1023 0)) (.str "b")).targets,
      w.isLiteral = true) ∧
    (encodeModule {} (some (linkedSchema (.float (.finite false 1023 0)) (.str "b")))).resultWith {}
      = (encodeModule {} (some (linkedSchema (.float (.finite false 1023 0))
          (.str "b")))).resultWith .forgetful := by
  have htargets : (linkedSchema (.float (.finite false 1023 0)) (.str "b")).targets
      = [.float (.finite false 1023 0), .str "b"] := rfl
  have hliteral : ∀ w ∈ (linkedSchema (.float (.finite false 1023 0)) (.str "b")).targets,
      w.isLiteral = true := by
    rw [htargets]
    exact List.forall_mem_cons.mpr ⟨rfl, List.forall_mem_singleton.mpr rfl⟩
  refine ⟨hliteral, ((encodeModule_forgetful _ {} hliteral).1 {} .empty).2 ?_⟩
  rw [htargets]
  -- The number could only be taken for another target that is equal to it, and there is none.
  refine List.forall_mem_cons.mpr ⟨fun _ v hv hshares => ?_,
    List.forall_mem_singleton.mpr fun ha => by cases ha⟩
  rcases hv with hv | hv
  · rcases List.mem_pair.mp hv with rfl | rfl
    · rfl
    · cases hshares
  · cases hv

/-- The two modules differ in the target of the second relation, `1.0` or `true`. -/
theorem linkedText_ne : linkedText "1.0" "1.0" ≠ linkedText "1.0" "true" := by
  intro h
  have hlist := congrArg String.toList h
  -- The lines of the blocks are laid out one level after the other, from the outside.
  simp only [linkedText, Source.moduleText_toList] at hlist
  rw [Source.block_toList (by decide) (by decide) (by decide),
    Source.block_toList (by decide) (by decide) (by decide)] at hlist
  simp only [List.flatMap_cons, Source.marginLines, String.toList_append] at hlist
  rw [Source.block_toList (by decide) (by decide) (by decide),
    Source.block_toList (by decide) (by decide) (by decide)] at hlist
  simp only [List.flatMap_cons, Source.marginLines, String.toList_append] at hlist
  rw [Source.block_toList (by decide) (by decide) (by decide),
    Source.block_toList (by decide) (by decide) (by decide)] at hlist
  revert hlist
  decide +kernel

/-- Behind a target that is `1.0`, a target that is `true` is written like it. -/
theorem encodeModule_remembering :
    (∀ w ∈ (linkedSchema (.float (.finite false 1023 0)) (.bool true)).targets,
      w.isLiteral = true) ∧ QuoteTable.Arises {} ∧
    (encodeModule {} (some (linkedSchema (.float (.finite false 1023 0)) (.bool true)))).resultWith
        {} = .ok (linkedText "1.0" "1.0") ∧
    (encodeModule {} (some (linkedSchema (.float (.finite false 1023 0)) (.bool true)))).resultWith
        .forgetful = .ok (linkedText "1.0" "true") ∧
    linkedText "1.0" "1.0" ≠ linkedText "1.0" "true" := by
  have htext : plainQuote (.float (.finite false 1023 0)) = .ok "1.0" := by
    have hone : (Double.finite false 1023 0).text Number.jsonLayout = "1.0" := by decide +kernel
    exact congrArg Except.ok hone
  have hshares : QuoteTable.shares (.float (.finite false 1023 0)) (.bool true) = true := by
    decide +kernel
  have hquote := fun s => QuoteTable.run_quote_forgetful (w := .str s) rfl rfl
  have hfirst := QuoteTable.run_quote_forgetful rfl htext
  have hsecond := QuoteTable.run_quote_forgetful (w := .bool true) rfl rfl
  -- In the table that is left by the first relation the number is found for the truth value.
  have hfind : (⟨[(.str "x", Json.quote "x"), (.float (.finite false 1023 0), "1.0"),
      (.str "a", Json.quote "a")], 1024⟩ : QuoteTable).find? (.bool true)
        = some (.float (.finite false 1023 0), "1.0") := by
    have hskip := List.find?_cons_of_pos (l := [(.str "a", Json.quote "a")])
      (p := fun e : Value × String => QuoteTable.shares e.1 (.bool true))
      (a := (.float (.finite false 1023 0), "1.0")) hshares
    exact hskip
  refine ⟨List.forall_mem_cons.mpr ⟨rfl, List.forall_mem_singleton.mpr rfl⟩, .empty, ?_,
    run_linkedSchema (hquote "a") hfirst (hquote "x") hsecond (hquote "y"), linkedText_ne⟩
  exact run_linkedSchema rfl (QuoteTable.run_quote_of_none rfl rfl htext) rfl
    (QuoteTable.run_quote_of_some rfl hfind) rfl

end SchemaForge
