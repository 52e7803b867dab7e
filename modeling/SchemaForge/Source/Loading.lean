import SchemaForge.Schema.Basic
import SchemaForge.Source.Expression

/-!
# Schemas from modules

A module imports the constructors under some alias and exports one object. Only the constructors
that modules are written with have a meaning. The version is no part of a module, so the schema
has version 0.
-/

namespace SchemaForge.Source

/-- The alias of `Schema` among the imported names, up to the closing brace. Of several names the
last one counts, and commas between them may be missing. -/
def parseImported (stop : Nat) (fuel : Nat) (builder : Option String) (ts : List Token) :
    Except Error (Option String × List Token) :=
  match fuel with
  | 0 => .error ⟨.unexpectedEnd, some stop⟩
  | fuel + 1 =>
    match accept? "\x7d" ts with
    | some rest => .ok (builder, rest)
    | none => do
      let (imported, rest) ← next stop ts
      let (builder, rest) ← match accept? "as" rest with
        | some rest => do
          let (localName, rest) ← next stop rest
          pure (if imported.text = "Schema" then some localName.text else builder, rest)
        | none => pure (if imported.text = "Schema" then some "Schema" else builder, rest)
      -- A missing comma is not noticed, here or behind the last name.
      parseImported stop fuel builder ((accept? "," rest).getD rest)

/-- An import behind its keyword: the alias of `Schema`, if it is imported. -/
def parseImport (stop : Nat) (ts : List Token) : Except Error (Option String × List Token) := do
  let (_, rest) ← expect stop "\x7b" ts
  let (builder, rest) ← parseImported stop (rest.length + 1) none rest
  let (_, rest) ← expect stop "from" rest
  let (path, rest) ← next stop rest
  if path.kind ≠ .string then throw ⟨.noModulePath, some path.position⟩
  return (builder, (accept? ";" rest).getD rest)

/-- An export behind its keyword: the value of the constant. Nothing may follow. -/
def parseExport (stop : Nat) (ts : List Token) : Except Error Value := do
  let (_, rest) ← expect stop "const" ts
  let (name, rest) ← next stop rest
  if name.kind ≠ .name then throw ⟨.noIdentifier, some name.position⟩
  let (_, rest) ← expect stop "=" rest
  let (v, rest) ← parseValue stop (fuelFor rest) rest
  match (accept? ";" rest).getD rest with
  | [] => return v
  | t :: _ => throw ⟨.afterExport t.text, some t.position⟩

/-- A module: the alias of the constructors and the exported value. Imports may come in any number
before the export. -/
def parseModule (stop : Nat) (fuel : Nat) (builder : String) (ts : List Token) :
    Except Error (String × Value) :=
  match fuel with
  | 0 => .error ⟨.unexpectedEnd, some stop⟩
  | fuel + 1 => do
    let (t, rest) ← next stop ts
    if t.kind = .name ∧ t.text = "import" then
      let (imported, rest) ← parseImport stop rest
      parseModule stop fuel (imported.getD builder) rest
    else if t.kind = .name ∧ t.text = "export" then
      return (builder, ← parseExport stop rest)
    else throw ⟨.unexpected t.text, some t.position⟩

/-- The kind that a constructor makes, by the table `primitiveConstructors` that attributes are
written with. -/
def kindOf? (constructor : String) : Option String :=
  (primitiveConstructors.find? (·.2 == constructor)).map (·.1)

/-- The name of a constructor that is called under the alias. -/
def constructor? (builder : String) : Value → Option String
  | .call [space, name] _ => if space = builder then some name else none
  | _ => none

/-- The argument of an index. -/
def argument (path : List String) (arguments : List Value) (index : Nat) : Except Error Value :=
  match arguments[index]? with
  | some v => .ok v
  | none => .error ⟨.missingArgument path index, none⟩

/-- A default, where a call has to be of one of the functions that compute defaults; which of them
there are is not checked here. -/
def loadDefault (builder : String) : Value → Except Error Value
  | .call [space, "Default", name] arguments =>
    if space = builder then .ok (.function name arguments)
    else .error ⟨.badDefault [space, "Default", name], none⟩
  | .call path _ => .error ⟨.badDefault path, none⟩
  | v => .ok v

/-- The value of a member of an object, absent if there is none. -/
def member (name : String) (members : List (Scalar × Value)) : Value :=
  (Value.field? name members).getD .null

/-- The options among the arguments of a constructor: the first argument, if there is one. Its other
members are passed over. -/
def loadOptions (builder : String) : List Value → Except Error Options
  | [] => .ok {}
  | .mapping members :: _ =>
    match Value.field? "default" members with
    | none => .ok { nullable := member "nullable" members }
    | some d => do
      let d ← loadDefault builder d
      return { nullable := member "nullable" members, default := some d }
  | v :: _ => .error ⟨.badOptions v, none⟩

/-- The relation that a constructor call makes from its target and its query. Neither the target nor
what the query holds is checked. -/
def loadRelation (cardinality : String) (path : List String) (arguments : List Value) :
    Except Error Attribute := do
  let target ← argument path arguments 0
  match arguments[1]?.getD (.mapping []) with
  | .mapping members =>
    return .relation (.str cardinality) target
      { condition := member "where" members
        limit := member "limit" members
        order := member "order" members }
  | v => throw ⟨.badSubquery v, none⟩

/-- The condition that selects one member by its id, as `demandedId?` finds it. -/
def idCondition (id : Value) : Value := .list [.list [.str "id", .str "=", id]]

/-- The relation to one member that a constructor call selects by its id, with the condition written
out (`idCondition`). -/
def loadRelationById (path : List String) (arguments : List Value) : Except Error Attribute := do
  let target ← argument path arguments 0
  let id ← argument path arguments 1
  return .relation (.str "one") target { condition := idCondition id }

/-- A set, whose items have to be of a primitive kind. -/
def makeSet (builder : String) (items : Attribute) (rest : List Value) :
    Except Error Attribute :=
  match items with
  | .primitive .. => do return .set items (← loadOptions builder rest)
  | _ => .error ⟨.compoundItems, none⟩

mutual

/-- The attribute that an expression makes, and whether it says that it is optional. Only the
constructors that `Attribute.toSource` writes have a meaning. -/
def loadAttribute (builder : String) : Value → Except Error (Attribute × Bool)
  | .call [space, name] arguments =>
    if space ≠ builder then .error ⟨.badAttribute (.call [space, name] arguments), none⟩
    -- Only being optional is added, and what the inner expression says of it is dropped.
    else if name = "Optional" then
      match arguments with
      | [] => .error ⟨.missingArgument [space, name] 0, none⟩
      | v :: _ => do
        let (a, _) ← loadAttribute builder v
        return (a, true)
    else match kindOf? name with
      | some kind => do return (.primitive (.str kind) (← loadOptions builder arguments), false)
      | none =>
        -- What is optional cannot be said of the items of a set, and is passed over.
        if name = "Set" then
          match arguments with
          | [] => .error ⟨.missingArgument [space, name] 0, none⟩
          | v :: rest => do
            let (items, _) ← loadAttribute builder v
            return (← makeSet builder items rest, false)
        else if name = "Record" then
          match arguments with
          | [] => .error ⟨.missingArgument [space, name] 0, none⟩
          | .mapping members :: _ => do
            let t ← loadMembers builder members
            return (t.toRecord, false)
          | v :: _ => .error ⟨.badTree v, none⟩
        else if name = "RelationById" then do
          return (← loadRelationById [space, name] arguments, false)
        else if name = "RelationOne" then do
          return (← loadRelation "one" [space, name] arguments, false)
        else if name = "RelationMany" then do
          return (← loadRelation "many" [space, name] arguments, false)
        else .error ⟨.badAttribute (.call [space, name] arguments), none⟩
  | v => .error ⟨.badAttribute v, none⟩

/-- The tree that the members of an object make: its optional keys are those whose attributes say
so. -/
def loadMembers (builder : String) : List (Scalar × Value) → Except Error AttributeTree
  | [] => .ok .empty
  | (k, v) :: rest => do
    let (a, optional) ← loadAttribute builder v
    let t ← loadMembers builder rest
    return ⟨(k.text, a) :: t.properties, if optional then k.text :: t.optional else t.optional⟩

end

/-- The tree that the argument of a constructor makes. -/
def loadTree (builder : String) : Value → Except Error AttributeTree
  | .mapping members => loadMembers builder members
  | v => .error ⟨.badTree v, none⟩

/-- The tree that a call of the constructor `Schema` makes; without an argument the tree is
empty. -/
def loadRoot (builder : String) (v : Value) : Except Error AttributeTree :=
  match v, constructor? builder v with
  | .call _ arguments, some "Schema" => loadTree builder (arguments.head?.getD (.mapping []))
  | v, _ => .error ⟨.notConstructor builder "Schema" v, none⟩

/-- The collection that a member of the exported object describes. Its rules are carried as they
were read. -/
def loadCollection (builder name : String) (v : Value) : Except Error Collection :=
  match v with
  | .mapping members =>
    match Value.field? "schema" members with
    | some root => do return ⟨← loadRoot builder root, member "rules" members⟩
    | none => .error ⟨.noSchema name, none⟩
  | _ => .error ⟨.noSchema name, none⟩

/-- The collections that the members of the exported object describe. -/
def loadCollections (builder : String) :
    List (Scalar × Value) → Except Error (List (String × Collection))
  | [] => .ok []
  | (k, v) :: rest => do
    let c ← loadCollection builder k.text v
    return (k.text, c) :: (← loadCollections builder rest)

/-- The schema that an exported value describes, at version 0, since a module does not tell the
version. -/
def loadSchema (builder : String) : Value → Except Error Schema
  | .mapping members => do return ⟨0, ← loadCollections builder members⟩
  | _ => .error ⟨.badExport, none⟩

/-- The tokens of a text, all of it; a place where `scan` got stuck is an error. -/
def tokens (text : List Char) : Except Error (List Token) :=
  let s := scan text
  match s.stuck with
  | none => .ok s.tokens
  | some (c, position) => .error ⟨.unexpectedCharacter c, some position⟩

/-- The schema that the text of a module describes (section 6.4 of the specification).
`load_encodeModule` says that it reads modules back, and `load_total` that it always comes to an
end. -/
def load (text : List Char) : Except Error Schema := do
  let ts ← tokens text
  let (builder, v) ← parseModule text.length (ts.length + 1) builderAlias ts
  loadSchema builder v
where
  /-- The alias where nothing is imported under the name `Schema`. -/
  builderAlias : String := "S"

end SchemaForge.Source
