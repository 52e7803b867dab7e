import SchemaForge.Source.Loading

/-!
# Loading with every operation that may break down

The loader looks before it takes a value apart, and cuts its loops off by fuel that is thought to
be enough. Here is the loader without such trust. A number is read by the readers of numbers, which
may find none; a text, a list or a call is taken apart by operations that break down if it has no
such part; and a loop that runs out of fuel breaks down as well, instead of reporting the end of the
text. Errors that the loader announces are kept apart from all these as refusals.

That nothing of this ever breaks down, and that what is left is what `load` does, is shown
elsewhere.
-/

namespace SchemaForge.Source

/-- An outcome of the loader among outcomes that may also be breakdowns. -/
def announced (x : Except Error α) : Outcome Error α := x.mapError .refused

namespace Unchecked

/-! ## Parts -/

/-- The first item of a list that has to have one; without one it is a `Fault`. -/
def first : List α → Except Fault α
  | [] => .error .noItem
  | x :: _ => .ok x

/-- The item of a list at an index that it has to have; behind the end it is a `Fault`. -/
def itemAt (items : List α) (index : Nat) : Except Fault α :=
  match items[index]? with
  | some x => .ok x
  | none => .error .noItem

/-- The path of a value that has to be a call; any other value is a `Fault`. -/
def pathOf : Value → Except Fault (List String)
  | .call path _ => .ok path
  | _ => .error .noMember

/-- The arguments of a value that has to be a call; any other value is a `Fault`. -/
def argumentsOf : Value → Except Fault (List Value)
  | .call _ arguments => .ok arguments
  | _ => .error .noMember

/-- The members of a value that has to be an object; any other value is a `Fault`. -/
def membersOf : Value → Except Fault (List (Scalar × Value))
  | .mapping members => .ok members
  | _ => .error .noMember

/-- The member under a name that has to be there; without one it is a `Fault`. -/
def entryOf (name : String) (members : List (Scalar × Value)) : Except Fault Value :=
  match Value.field? name members with
  | some v => .ok v
  | none => .error .noEntry

/-- Whether a value is a call, which is what `pathOf` and `argumentsOf` take apart. -/
def isCall : Value → Bool
  | .call .. => true
  | _ => false

/-- Whether a value is an object, which is what `membersOf` takes apart. -/
def isObject : Value → Bool
  | .mapping _ => true
  | _ => false

/-! ## Tokens -/

/-- The text that a string token stands for. Its first character says which quotes it has, and the
rest is taken apart unit by unit. -/
def decodeString (t : Token) : Outcome Error String := do
  let _ ← (first t.text.toList : Except Fault Char)
  announced (Source.decodeString t)

/-- The number that a number token stands for, by readers that may find none. -/
def decodeNumber (text : String) : Except Fault Value :=
  let cs := text.toList
  if cs.any (fun c => c == '.' || c == 'e' || c == 'E') then
    match Number.readDouble? cs with
    | some x => .ok (.float x)
    | none => .error .badValue
  else
    match Number.readInt? cs with
    | some n => .ok (.int n)
    | none => .error .badValue

/-- The key that a token stands for, a string or a bare name. Other tokens are refused with their
place. -/
def decodeKey (t : Token) : Outcome Error String :=
  match t.kind with
  | .string => decodeString t
  | .name => .ok t.text
  | _ => refuse ⟨.badKey t.text, some t.position⟩

/-! ## Expressions -/

/-- The names of a dotted name behind its first one, added to those in `path`, last one first.
Without fuel it breaks down. -/
def parsePath (stop : Nat) (fuel : Nat) (path : List String) (ts : List Token) :
    Outcome Error (List String × List Token) :=
  match fuel with
  | 0 => .error (.broken .endless)
  | fuel + 1 =>
    match accept? "." ts with
    | none => .ok (path.reverse, ts)
    | some rest => do
      let (part, rest) ← announced (next stop rest)
      if part.kind = .name then parsePath stop fuel (part.text :: path) rest
      else refuse ⟨.noIdentifier, some part.position⟩

mutual

/-- A value in front of the tokens, and the tokens behind it. Without fuel it breaks down. -/
def parseValue (stop : Nat) (fuel : Nat) (ts : List Token) : Outcome Error (Value × List Token) :=
  match fuel with
  | 0 => .error (.broken .endless)
  | fuel + 1 => do
    let (t, rest) ← announced (next stop ts)
    match t.kind with
    | .string => return (.str (← decodeString t), rest)
    | .number => return (← decodeNumber t.text, rest)
    | .punctuation =>
      if t.text = "\x7b" then
        let (members, rest) ← parseMembers stop fuel [] rest
        return (.mapping members, rest)
      else if t.text = "[" then
        let (items, rest) ← parseItems stop "]" fuel [] rest
        return (.list items, rest)
      else refuse ⟨.unexpected t.text, some t.position⟩
    | .name =>
      if t.text = "true" then return (.bool true, rest)
      else if t.text = "false" then return (.bool false, rest)
      else if t.text = "null" then return (.null, rest)
      else
        let (path, rest) ← parsePath stop fuel [t.text] rest
        match rest with
        | p :: rest =>
          if p.text = "(" then
            let (arguments, rest) ← parseItems stop ")" fuel [] rest
            return (.call path arguments, rest)
          else refuse ⟨.badReference path, some t.position⟩
        | [] => refuse ⟨.badReference path, some t.position⟩

/-- The values up to a closing mark, added to those in `done`, last one first. Without fuel it
breaks down. -/
def parseItems (stop : Nat) (closing : String) (fuel : Nat) (done : List Value)
    (ts : List Token) : Outcome Error (List Value × List Token) :=
  match fuel with
  | 0 => .error (.broken .endless)
  | fuel + 1 =>
    match accept? closing ts with
    | some rest => .ok (done.reverse, rest)
    | none => do
      let (v, rest) ← parseValue stop fuel ts
      let done := v :: done
      match accept? "," rest with
      | some rest => parseItems stop closing fuel done rest
      | none =>
        let (_, rest) ← announced (expect stop closing rest)
        return (done.reverse, rest)

/-- The members of an object up to its closing brace, added to those in `done`. Without fuel it
breaks down. -/
def parseMembers (stop : Nat) (fuel : Nat) (done : List (Scalar × Value))
    (ts : List Token) : Outcome Error (List (Scalar × Value) × List Token) :=
  match fuel with
  | 0 => .error (.broken .endless)
  | fuel + 1 =>
    match accept? "\x7d" ts with
    | some rest => .ok (done, rest)
    | none => do
      let (t, rest) ← announced (next stop ts)
      let key ← decodeKey t
      let (_, rest) ← announced (expect stop ":" rest)
      let (v, rest) ← parseValue stop fuel rest
      let done := Entries.put (.str key) v done
      match accept? "," rest with
      | some rest => parseMembers stop fuel done rest
      | none =>
        let (_, rest) ← announced (expect stop "\x7d" rest)
        return (done, rest)

end

/-! ## Modules -/

/-- The alias of `Schema` among the imported names, up to the closing brace. -/
def parseImported (stop : Nat) (fuel : Nat) (builder : Option String) (ts : List Token) :
    Outcome Error (Option String × List Token) :=
  match fuel with
  | 0 => .error (.broken .endless)
  | fuel + 1 =>
    match accept? "\x7d" ts with
    | some rest => .ok (builder, rest)
    | none => do
      let (imported, rest) ← announced (next stop ts)
      let (builder, rest) ← match accept? "as" rest with
        | some rest => do
          let (localName, rest) ← announced (next stop rest)
          pure (if imported.text = "Schema" then some localName.text else builder, rest)
        | none => pure (if imported.text = "Schema" then some "Schema" else builder, rest)
      parseImported stop fuel builder ((accept? "," rest).getD rest)

/-- An import behind its keyword: the alias of `Schema`, if it is imported. -/
def parseImport (stop : Nat) (fuel : Nat) (ts : List Token) :
    Outcome Error (Option String × List Token) := do
  let (_, rest) ← announced (expect stop "\x7b" ts)
  let (builder, rest) ← parseImported stop fuel none rest
  let (_, rest) ← announced (expect stop "from" rest)
  let (path, rest) ← announced (next stop rest)
  if path.kind ≠ .string then refuse ⟨.noModulePath, some path.position⟩
  return (builder, (accept? ";" rest).getD rest)

/-- An export behind its keyword: the value of the constant. Nothing may follow. -/
def parseExport (stop : Nat) (fuel : Nat) (ts : List Token) : Outcome Error Value := do
  let (_, rest) ← announced (expect stop "const" ts)
  let (name, rest) ← announced (next stop rest)
  if name.kind ≠ .name then refuse ⟨.noIdentifier, some name.position⟩
  let (_, rest) ← announced (expect stop "=" rest)
  let (v, rest) ← parseValue stop fuel rest
  match (accept? ";" rest).getD rest with
  | [] => return v
  | t :: _ => refuse ⟨.afterExport t.text, some t.position⟩

/-- A module: the alias of the constructors and the exported value. It breaks as `endless` where the
fuel runs out. -/
def parseModule (stop : Nat) (fuel : Nat) (builder : String) (ts : List Token) :
    Outcome Error (String × Value) :=
  match fuel with
  | 0 => .error (.broken .endless)
  | fuel + 1 => do
    let (t, rest) ← announced (next stop ts)
    if t.kind = .name ∧ t.text = "import" then
      let (imported, rest) ← parseImport stop fuel rest
      parseModule stop fuel (imported.getD builder) rest
    else if t.kind = .name ∧ t.text = "export" then
      return (builder, ← parseExport stop fuel rest)
    else refuse ⟨.unexpected t.text, some t.position⟩

/-! ## Schemas -/

/-- The argument of an index of a call, refused where there are not so many. -/
def argument (v : Value) (index : Nat) : Outcome Error Value := do
  let arguments ← argumentsOf v
  if arguments.length ≤ index then refuse ⟨.missingArgument (← pathOf v) index, none⟩
  else itemAt arguments index

/-- A default, where a call has to be of one of the functions that compute defaults. -/
def loadDefault (builder : String) (v : Value) : Outcome Error Value :=
  if isCall v then do
    let path ← pathOf v
    if path.length ≠ 3 then refuse ⟨.badDefault path, none⟩
    else if (← itemAt path 0) ≠ builder then refuse ⟨.badDefault path, none⟩
    else if (← itemAt path 1) ≠ "Default" then refuse ⟨.badDefault path, none⟩
    else return .function (← itemAt path 2) (← argumentsOf v)
  else return v

/-- The options among the arguments of a constructor: the first argument, if there is one. -/
def loadOptions (builder : String) (arguments : List Value) : Outcome Error Options :=
  if arguments.isEmpty then return {}
  else do
    let v ← itemAt arguments 0
    if !isObject v then refuse ⟨.badOptions v, none⟩
    else do
      let members ← membersOf v
      match Value.field? "default" members with
      | none => return { nullable := member "nullable" members }
      | some d =>
        return { nullable := member "nullable" members, default := some (← loadDefault builder d) }

/-- The relation that a constructor call makes from its target and its query. -/
def loadRelation (cardinality : String) (v : Value) : Outcome Error Attribute := do
  let target ← argument v 0
  let arguments ← argumentsOf v
  let query ← (if 1 < arguments.length then itemAt arguments 1 else .ok (.mapping []) :
    Except Fault Value)
  if !isObject query then refuse ⟨.badSubquery query, none⟩
  else do
    let members ← membersOf query
    return .relation (.str cardinality) target
      { condition := member "where" members
        limit := member "limit" members
        order := member "order" members }

/-- The relation to one member that a constructor call selects by its id. -/
def loadRelationById (v : Value) : Outcome Error Attribute := do
  let target ← argument v 0
  let id ← argument v 1
  return .relation (.str "one") target { condition := idCondition id }

/-- The tree that members of an object make, if `load` is what makes attributes. -/
def loadMembers (load : Value → Outcome Error (Attribute × Bool)) :
    List (Scalar × Value) → Outcome Error AttributeTree
  | [] => .ok .empty
  | (k, v) :: rest => do
    let (a, optional) ← load v
    let t ← loadMembers load rest
    return ⟨(k.text, a) :: t.properties, if optional then k.text :: t.optional else t.optional⟩

/-- The tree that the argument of a constructor makes, if it is an object. -/
def loadTree (load : Value → Outcome Error (Attribute × Bool)) (v : Value) :
    Outcome Error AttributeTree :=
  if !isObject v then refuse ⟨.badTree v, none⟩
  else do loadMembers load (← membersOf v)

/-- The attribute that an expression makes, and whether it says that it is optional. Without fuel it
breaks down. -/
def loadAttribute (builder : String) (fuel : Nat) (v : Value) : Outcome Error (Attribute × Bool) :=
  match fuel with
  | 0 => .error (.broken .endless)
  | fuel + 1 =>
    match constructor? builder v with
    | none => refuse ⟨.badAttribute v, none⟩
    | some name =>
      if name = "Optional" then do
        let (a, _) ← loadAttribute builder fuel (← argument v 0)
        return (a, true)
      else match kindOf? name with
        | some kind => do
          return (.primitive (.str kind) (← loadOptions builder (← argumentsOf v)), false)
        | none =>
          if name = "Set" then do
            let (items, _) ← loadAttribute builder fuel (← argument v 0)
            match items with
            | .primitive .. => do
              return (.set items (← loadOptions builder ((← argumentsOf v).drop 1)), false)
            | _ => refuse ⟨.compoundItems, none⟩
          else if name = "Record" then do
            let t ← loadTree (loadAttribute builder fuel) (← argument v 0)
            return (t.toRecord, false)
          else if name = "RelationById" then do return (← loadRelationById v, false)
          else if name = "RelationOne" then do return (← loadRelation "one" v, false)
          else if name = "RelationMany" then do return (← loadRelation "many" v, false)
          else refuse ⟨.badAttribute v, none⟩

/-- The tree that a call of the constructor `Schema` makes. -/
def loadRoot (builder : String) (fuel : Nat) (v : Value) : Outcome Error AttributeTree :=
  if constructor? builder v ≠ some "Schema" then refuse ⟨.notConstructor builder "Schema" v, none⟩
  else do
    let arguments ← argumentsOf v
    let tree ← (if arguments.isEmpty then .ok (.mapping []) else itemAt arguments 0 :
      Except Fault Value)
    loadTree (loadAttribute builder fuel) tree

/-- The collection that a member of the exported object describes. Its parts are taken by
`membersOf` and `entryOf`, which would break down where there are none. -/
def loadCollection (builder : String) (fuel : Nat) (name : String) (v : Value) :
    Outcome Error Collection :=
  if !isObject v then refuse ⟨.noSchema name, none⟩
  else do
    let members ← membersOf v
    if !Entries.has (.str "schema") members then refuse ⟨.noSchema name, none⟩
    else do
      let root ← loadRoot builder fuel (← entryOf "schema" members)
      return ⟨root, member "rules" members⟩

/-- The collections that the members of the exported object describe, one by one with
`loadCollection`. -/
def loadCollections (builder : String) (fuel : Nat) :
    List (Scalar × Value) → Outcome Error (List (String × Collection))
  | [] => .ok []
  | (k, v) :: rest => do
    let c ← loadCollection builder fuel k.text v
    return (k.text, c) :: (← loadCollections builder fuel rest)

/-- The schema that an exported value describes, with the version 0. A value that is no object is
refused. -/
def loadSchema (builder : String) (fuel : Nat) (v : Value) : Outcome Error Schema :=
  if !isObject v then refuse ⟨.badExport, none⟩
  else do return ⟨0, ← loadCollections builder fuel (← membersOf v)⟩

/-- The schema that the text of a module describes. No loop of the parser takes more than `fuel`
turns, and no nested value is deeper; a longer or a deeper one breaks down. -/
def load (fuel : Nat) (text : List Char) : Outcome Error Schema := do
  let ts ← announced (tokens text)
  let (builder, v) ← parseModule text.length fuel load.builderAlias ts
  loadSchema builder fuel v

end Unchecked

end SchemaForge.Source
