import Mathlib.Data.List.Chain
import SchemaForge.Proofs.Source.Phrases

/-!
# The frame of a module

A module is a comment, the import of the constructors, and the export of a body (section 4.4 of the
specification). Its text spells the tokens of the import and of the export around those of the body
(`tokens_moduleText`). The loader makes of such tokens what it makes of the value that those of the
body derive (`load_of_shapes`); it may be under another alias, and a comma may stand behind the
alias.
-/

namespace SchemaForge

/-- The names that a module uses leave its frame whole: none of them ends the comment or the quotes
around it, and what is exported has a name. -/
structure ModuleOptions.IsSound (o : ModuleOptions) : Prop where
  /-- The name of the generator does not end the comment. -/
  generatorName : ¬ "*/".toList <:+: o.generatorName.toList
  /-- The path of the import may stand between single quotes as it is. -/
  importPath : ∀ c ∈ o.importPath.toList, c ≠ '\'' ∧ c ≠ '\\' ∧ c ≠ '\n'
  /-- The name of the exported object is a name. -/
  exportName : Source.isName o.exportName = true

namespace Source

variable {cs rest : List Char} {ss : List Shape} {o : ModuleOptions} {body : String}

/-! ## The comment -/

/-- Nothing in a text ends a comment that it stands in: no asterisk is followed by a slash. -/
def IsOpen (cs : List Char) : Prop := cs.IsChain fun c d => c = '*' → d ≠ '/'

/-- A text `IsOpen` if the end mark of a comment is no part of it. -/
theorem isOpen_of_unclosed (h : ¬ "*/".toList <:+: cs) : IsOpen cs := by
  refine List.isChain_iff_forall_rel_of_append_cons_cons.mpr fun {_ _ before behind} heq hc hd => ?_
  subst heq hc hd
  exact h ⟨before, behind, by simp⟩

/-- A comment stays open in a text without a slash. -/
theorem isOpen_of_not_mem (h : '/' ∉ cs) : IsOpen cs := by
  refine List.isChain_iff_forall_rel_of_append_cons_cons.mpr fun {_ _ _ _} heq hc hd => ?_
  subst heq hc hd
  simp at h

/-- Two open texts make an open one if no end mark comes about between them. -/
theorem IsOpen.append (h : IsOpen cs) (hr : IsOpen rest)
    (hmark : cs.getLast? ≠ some '*' ∨ rest.head? ≠ some '/') : IsOpen (cs ++ rest) := by
  refine List.isChain_append.mpr ⟨h, hr, fun c hc d hd hstar hslash => ?_⟩
  subst hstar hslash
  exact hmark.elim (fun hne => hne hc) fun hne => hne hd

/-- A comment goes on up to its end mark, and `commentTail?` measures it with the mark. -/
theorem commentTail?_append (h : IsOpen (cs ++ ['*'])) :
    commentTail? (cs ++ '*' :: '/' :: rest) = some (cs.length + 2) := by
  induction cs with
  | nil => rfl
  | cons c cs ih =>
    rw [List.cons_append, commentTail?, ih h.tail]
    · rfl
    -- A star before a slash would end the comment early, and the chain rules it out.
    · rintro more rfl heq
      cases cs with
      | nil => cases heq
      | cons d cs =>
        cases heq
        exact (List.isChain_cons_cons.mp h).1 rfl rfl

/-- The text of the comment in front of a module, up to the name of the generator. -/
def commentStart : List Char := "*\n * This file is auto-generated by the ".toList

/-- The text of the comment in front of a module, with the name of the generator, up to its end
mark. -/
def headComment (o : ModuleOptions) : List Char :=
  commentStart ++ (o.generatorName.toList ++ ['.', '\n', ' '])

/-- The comment in front of a module is open up to its end mark, if the name of the generator is. -/
theorem isOpen_headComment (ho : o.IsSound) :
    IsOpen (headComment o ++ ['*']) := by
  have hstart : IsOpen commentStart := isOpen_of_not_mem (by decide +kernel)
  have hend : IsOpen (['.', '\n', ' '] ++ ['*']) := isOpen_of_not_mem (by decide +kernel)
  have hname := (isOpen_of_unclosed ho.generatorName).append hend (.inr (by decide))
  have hlast : commentStart.getLast? ≠ some '*' := by decide +kernel
  rw [headComment, List.append_assoc, List.append_assoc]
  exact hstart.append hname (.inl hlast)

/-! ## Text -/

/-- A text between single quotes that has nothing to escape is a token, as the path of an import
is. -/
theorem isToken_singleQuoted (h : ∀ c ∈ cs, c ≠ '\'' ∧ c ≠ '\\' ∧ c ≠ '\n') :
    IsToken never .string '\'' (cs ++ ['\'']) := by
  have hbody : IsBody '\'' cs := by
    induction cs with
    | nil => exact .nil
    | cons c cs ih =>
      obtain ⟨hq, hb, hf⟩ := h c List.mem_cons_self
      exact .plain hq hb hf (ih fun d hd => h d (List.mem_cons_of_mem c hd))
  exact isToken_string (.inr rfl) hbody fun hmem => (h '\n' hmem).2.2 rfl

/-- The import of the constructors and the beginning of the export, as a module has them in front of
its body. -/
def opening (o : ModuleOptions) : List Char :=
  '\n' :: '\n' :: ("import".toList ++ ' ' :: '\x7b' :: ' ' :: ("Schema".toList ++ ' ' ::
    ("as".toList ++ ' ' :: (builderName.toList ++ ' ' :: '\x7d' :: ' ' :: ("from".toList ++ ' ' ::
      '\'' :: (o.importPath.toList ++ ['\''] ++ ';' :: '\n' :: ("export".toList ++ ' ' ::
        ("const".toList ++ ' ' :: (o.exportName.toList ++ [' ', '='])))))))))

/-- The tokens of the import, with an alias for the constructors; a comma may stand behind the
alias. -/
def importShapes (builder : String) (comma : Bool) (path : String) : List Shape :=
  [(.name, "import"), (.punctuation, "\x7b"), (.name, "Schema"), (.name, "as"), (.name, builder)]
    ++ (if comma then [(.punctuation, ",")] else [])
    ++ [(.punctuation, "\x7d"), (.name, "from"), (.string, path), (.punctuation, ";")]

/-- The tokens in front of the exported value: `export`, `const`, the name and the equals sign. -/
def exportShapes (name : String) : List Shape :=
  [(.name, "export"), (.name, "const"), (.name, name), (.punctuation, "=")]

/-- The literal of a path between single quotes, with nothing escaped. -/
def barePath (path : String) : String := String.ofList ('\'' :: (path.toList ++ ['\'']))

/-- A module is a comment, the `opening`, the body and a semicolon. -/
theorem moduleText_toList (o : ModuleOptions) (body : String) : (moduleText o body).toList =
    '/' :: '*' :: (headComment o ++ '*' :: '/' ::
      (opening o ++ ' ' :: (body.toList ++ [';', '\n']))) := by
  -- The fixed parts of the template as lists of characters, cut where the tokens begin and end.
  have hstart : "/**\n * This file is auto-generated by the ".toList
      = '/' :: '*' :: commentStart := by decide +kernel
  have hend : ".\n */\n\n".toList = ['.', '\n', ' '] ++ ['*', '/', '\n', '\n'] := rfl
  have himport : "import \x7b Schema as ".toList = "import".toList ++ ' ' :: '\x7b' :: ' ' ::
      ("Schema".toList ++ ' ' :: ("as".toList ++ [' '])) := by decide +kernel
  have hfrom : " \x7d from '".toList = ' ' :: '\x7d' :: ' ' :: ("from".toList ++ [' ', '\'']) := by
    decide +kernel
  have hexport : "export const ".toList = "export".toList ++ ' ' :: ("const".toList ++ [' ']) := by
    decide +kernel
  have hpath : "';\n".toList = ['\'', ';', '\n'] := rfl
  have hequals : " = ".toList = [' ', '=', ' '] := rfl
  have hsemicolon : ";\n".toList = [';', '\n'] := rfl
  unfold moduleText
  simp only [String.toList_append, hstart, hend, himport, hfrom, hexport, hpath, hequals,
    hsemicolon, headComment, opening, List.append_assoc, List.cons_append, List.nil_append]

/-- A name and a space in front of a text spell the name and then what the text spells. -/
theorem Spells.word {name : String} (h : isName name = true) (hs : Spells cs ss) :
    Spells (name.toList ++ ' ' :: cs) ((.name, name) :: ss) :=
  .name h (avoids_cons (by decide)) (.gap (.inl rfl) hs)

/-- The `opening` spells the tokens of the import and of the beginning of the export. -/
theorem spells_opening (ho : o.IsSound) :
    Spells (opening o) (importShapes builderName false (barePath o.importPath)
      ++ exportShapes o.exportName) := by
  have hpath : IsToken never .string '\'' (o.importPath.toList ++ ['\'']) :=
    isToken_singleQuoted ho.importPath
  have hexport := (((Spells.nil.mark (by decide : '=' ∈ plainMarks)).word ho.exportName).word
    (by decide : isName "const" = true)).word (by decide : isName "export" = true)
  have hfrom := ((Spells.token hpath (fun _ _ => rfl) ((hexport.gap (.inr rfl)).mark
    (by decide : ';' ∈ plainMarks))).word (by decide : isName "from" = true)).gap (.inl rfl)
  have himport := (((((hfrom.mark (by decide : '\x7d' ∈ plainMarks)).word
    (by decide : isName builderName = true)).word (by decide : isName "as" = true)).word
      (by decide : isName "Schema" = true)).gap (.inl rfl)).mark (by decide : '\x7b' ∈ plainMarks)
  exact ((himport.word (by decide : isName "import" = true)).gap (.inr rfl)).gap (.inr rfl)

/-- The tokens of a module are those of the import and of the export around those of its body. -/
theorem tokens_moduleText (ho : o.IsSound) (h : Spells body.toList ss) :
    ∃ ts : List Token, tokens (moduleText o body).toList = .ok ts ∧ ts.map Token.shape =
      importShapes builderName false (barePath o.importPath)
        ++ (exportShapes o.exportName ++ (ss ++ [(.punctuation, ";")])) := by
  have hend : Spells (body.toList ++ [';', '\n']) (ss ++ [(.punctuation, ";")]) :=
    h.append (avoids_mark (by decide)) (Spells.mark (by decide) (.gap (.inr rfl) .nil))
  have hspells := (spells_opening ho).append (avoids_cons (by decide)) (Spells.gap (.inl rfl) hend)
  -- A module begins with a comment, in which the scanner finds no end before its own.
  have hcomment : lexeme? '/' ('*' :: (headComment o ++ '*' :: '/' ::
      (opening o ++ ' ' :: (body.toList ++ [';', '\n']))))
        = some (.comment, 1 + ((headComment o).length + 2)) := by
    unfold lexeme?
    rw [if_neg (by decide), if_pos rfl]
    show (commentTail? _).map _ = _
    rw [commentTail?_append (isOpen_headComment ho)]
    rfl
  obtain ⟨ts, hts, hscan⟩ :=
    scanFrom_of_spells (0 + 1 + (1 + ((headComment o).length + 2))) [] hspells
  refine ⟨ts, ?_, by rw [hts, List.append_assoc]⟩
  have hdrop : ('*' :: (headComment o ++ '*' :: '/' ::
      (opening o ++ ' ' :: (body.toList ++ [';', '\n'])))).drop (1 + ((headComment o).length + 2))
        = opening o ++ ' ' :: (body.toList ++ [';', '\n']) := by
    have hsplit : ∀ rest : List Char, '*' :: (headComment o ++ '*' :: '/' :: rest)
        = '*' :: (headComment o ++ ['*', '/']) ++ rest := by
      intro rest
      rw [List.cons_append, List.append_assoc, List.cons_append, List.singleton_append]
    rw [hsplit]
    refine List.drop_left' ?_
    rw [List.length_cons, List.length_append, Nat.add_comm 1]
    rfl
  rw [tokens, scan, moduleText_toList]
  unfold scanFrom
  rw [hcomment]
  dsimp only
  rw [hdrop, hscan]
  rfl

/-! ## Parsing -/

variable {builder path name : String} {comma : Bool} {v : Value}

/-- A token is given by its shape and its position. -/
theorem eq_of_shape {t : Token} {s : Shape} (h : t.shape = s) : t = ⟨s.1, s.2, t.position⟩ := by
  rw [← h]
  rfl

/-- The parser `parseModule` passes over the import and takes the alias from it. -/
theorem parseModule_import {ts : List Token}
    (h : ts.map Token.shape = importShapes builder comma path) (stop fuel : ℕ) (before : String)
    (rest : List Token) :
    parseModule stop (fuel + 1) before (ts ++ rest) = parseModule stop fuel builder rest := by
  -- The import has nine tokens, or ten with a comma behind the alias, and the parser computes on
  -- them.
  cases comma with
  | false =>
    simp only [importShapes, Bool.false_eq_true, if_false, List.append_nil, List.cons_append,
      List.nil_append, List.map_eq_cons_iff, List.map_eq_nil_iff] at h
    obtain ⟨t₁, _, rfl, h₁, t₂, _, rfl, h₂, t₃, _, rfl, h₃, t₄, _, rfl, h₄, t₅, _, rfl, h₅, t₆, _,
      rfl, h₆, t₇, _, rfl, h₇, t₈, _, rfl, h₈, t₉, _, rfl, h₉, rfl⟩ := h
    rw [eq_of_shape h₁, eq_of_shape h₂, eq_of_shape h₃, eq_of_shape h₄, eq_of_shape h₅,
      eq_of_shape h₆, eq_of_shape h₇, eq_of_shape h₈, eq_of_shape h₉]
    rfl
  | true =>
    simp only [importShapes, if_true, List.cons_append, List.nil_append, List.map_eq_cons_iff,
      List.map_eq_nil_iff] at h
    obtain ⟨t₁, _, rfl, h₁, t₂, _, rfl, h₂, t₃, _, rfl, h₃, t₄, _, rfl, h₄, t₅, _, rfl, h₅, t₆, _,
      rfl, h₆, t₇, _, rfl, h₇, t₈, _, rfl, h₈, t₉, _, rfl, h₉, t₁₀, _, rfl, h₁₀, rfl⟩ := h
    rw [eq_of_shape h₁, eq_of_shape h₂, eq_of_shape h₃, eq_of_shape h₄, eq_of_shape h₅,
      eq_of_shape h₆, eq_of_shape h₇, eq_of_shape h₈, eq_of_shape h₉, eq_of_shape h₁₀]
    rfl

/-- The parser `parseModule` finds the exported value behind the import. -/
theorem parseModule_export {ts us : List Token} {semicolon : Token}
    (h : ts.map Token.shape = exportShapes name) (hd : Derives ss (.value v))
    (hus : us.map Token.shape = ss) (hsemicolon : semicolon.shape = (.punctuation, ";"))
    (stop fuel : ℕ) :
    parseModule stop (fuel + 1) builder (ts ++ (us ++ [semicolon])) = .ok (builder, v) := by
  simp only [exportShapes, List.map_eq_cons_iff, List.map_eq_nil_iff] at h
  obtain ⟨t₁, _, rfl, h₁, t₂, _, rfl, h₂, t₃, _, rfl, h₃, t₄, _, rfl, h₄, rfl⟩ := h
  have hvalue : parseValue stop (fuelFor (us ++ [semicolon])) (us ++ [semicolon])
      = .ok (v, [semicolon]) := by
    refine parses_of_derives hd stop _ us [semicolon] hus ?_
    rw [fuelFor, List.length_append, ← hus, List.length_map]
    omega
  rw [eq_of_shape h₁, eq_of_shape h₂, eq_of_shape h₃, eq_of_shape h₄]
  show ((parseValue stop (fuelFor (us ++ [semicolon])) (us ++ [semicolon])).bind _).bind _ = _
  rw [hvalue, eq_of_shape hsemicolon]
  rfl

/-- Of the tokens of a module `load` makes the schema that the value of its body describes under its
alias. -/
theorem load_of_shapes {text : List Char} {ts : List Token} (htokens : tokens text = .ok ts)
    (hts : ts.map Token.shape = importShapes builder comma path
      ++ (exportShapes name ++ (ss ++ [(.punctuation, ";")])))
    (hd : Derives ss (.value v)) : load text = loadSchema builder v := by
  obtain ⟨imports, back, rfl, himports, hback⟩ := List.map_eq_append_iff.mp hts
  obtain ⟨exports, back, rfl, hexports, hback⟩ := List.map_eq_append_iff.mp hback
  obtain ⟨us, last, rfl, hus, hlast⟩ := List.map_eq_append_iff.mp hback
  obtain ⟨semicolon, rfl, hsemicolon⟩ := List.map_eq_singleton_iff.mp hlast
  have hparse : ∀ stop fuel before, parseModule stop (fuel + 2) before
      (imports ++ (exports ++ (us ++ [semicolon]))) = .ok (builder, v) := by
    intro stop fuel before
    rw [parseModule_import himports, parseModule_export hexports hd hus hsemicolon]
  -- The parser has fuel for each token and one more; two of it are spent on the import and the
  -- export.
  have hlength : ∃ fuel, (imports ++ (exports ++ (us ++ [semicolon]))).length = fuel + 1 :=
    ⟨(imports ++ exports ++ us).length, by simp [Nat.add_assoc]⟩
  obtain ⟨fuel, hfuel⟩ := hlength
  rw [load, htokens]
  show ((parseModule _ (List.length _ + 1) "S" _).bind fun p => loadSchema p.1 p.2) = _
  rw [hfuel, hparse]
  rfl

/-- A module is loaded as the schema that `loadSchema` makes of the value its body `Denotes`. -/
theorem load_moduleText (ho : o.IsSound) (h : Denotes body v) :
    load (moduleText o body).toList = loadSchema builderName v := by
  obtain ⟨ss, hs, hd⟩ := h
  obtain ⟨ts, htokens, hts⟩ := tokens_moduleText ho hs
  exact load_of_shapes htokens hts hd

/-- The names that a module uses if nothing is said leave its frame whole. -/
theorem isSound_default : ({} : ModuleOptions).IsSound where
  generatorName := by decide +kernel
  importPath := by simp
  exportName := by decide +kernel

end Source

end SchemaForge
