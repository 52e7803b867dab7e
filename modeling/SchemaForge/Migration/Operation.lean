import SchemaForge.Migration.Change
import SchemaForge.Migration.Parameters

/-!
# Operations

The nine operations of migrations, as changes of the working state. The state is a mapping with a
`version` and `collections`; a collection is a mapping with a `schema`, which is a record, and
perhaps `rules`, which hold rules by scope and id.

An operation reads its parameters as it needs them, so a step with several faults fails with the
first that it meets. On the way to an attribute every record is brought into its normal form, with
text keys and a list of optional keys, and that stays even if the operation fails later.
-/

namespace SchemaForge

/-- What a step may do: the nine operations in the table of section 6.1 of the specification. -/
inductive Operation where
  /-- Makes a collection. -/
  | createCollection
  /-- Takes a collection away. -/
  | dropCollection
  /-- Makes an attribute. -/
  | addAttribute
  /-- Takes an attribute away. -/
  | dropAttribute
  /-- Changes some settings of an attribute. -/
  | alterAttributeOption
  /-- Takes a setting of an attribute away. -/
  | dropAttributeOption
  /-- Says whether an attribute is optional. -/
  | setAttributeOptional
  /-- Puts a rule under a scope and an id. -/
  | addRule
  /-- Takes a rule away. -/
  | dropRule
  deriving DecidableEq, Repr

namespace Operation

/-- The names of the operations, as steps give them. -/
def names : List (String × Operation) :=
  [("create_collection", createCollection), ("drop_collection", dropCollection),
    ("add_attribute", addAttribute), ("drop_attribute", dropAttribute),
    ("alter_attribute_option", alterAttributeOption),
    ("drop_attribute_option", dropAttributeOption),
    ("set_attribute_optional", setAttributeOptional),
    ("add_rule", addRule), ("drop_rule", dropRule)]

/-- The operation of a name. -/
def ofName? (name : String) : Option Operation := Entries.get? name names

/-! ## Ways into the state -/

/-- The collection of a name, where an absent value counts as none. -/
def collectionIn (name : String) (collections : Value) : Outcome Refusal Value := do
  let collection ← collections.get name
  if collection.isNull then refuse (.noCollection name) else return collection

/-- Runs a change on the collection of a name, which `collectionIn` finds. -/
def inCollection (name : String) (change : Change Refusal α) : Change Refusal α :=
  .inItem "collections" <| .within name (collectionIn name) change

/-- The record attribute under a key on the way of a path; the error names the whole path. -/
def recordIn (path : List String) (key : String) (properties : Value) : Outcome Refusal Value := do
  let child ← properties.get key
  match child.entries? with
  | some entries =>
    if (fieldOf "type" entries).same (.str "record") then return child
    else refuse (.noRecord path)
  | none => refuse (.noRecord path)

/-- Brings a record into its normal form: a mapping of attributes under the texts of their keys, and
a list of the texts of its optional keys. -/
def normalise : Change Refusal Unit := do
  .write "properties" (.mapping (← Parameters.mappingOf "properties" (← .look "properties")))
  let keys ← Parameters.keysOf "optional" (← .look "optional")
  .write "optional" (.list (keys.map .str))

/-- Runs a change on the record that holds the attribute at the end of a path. The path is followed
from the record at hand, key by key, and `normalise` is run on every record on the way; `whole` is
the path that messages name. -/
def inRecord (whole : List String) (change : String → Change Refusal α) :
    List String → Change Refusal α
  | [] => .fail .emptyPath
  | [key] => change key
  | key :: rest =>
    .inItem "properties" <| .within key (recordIn whole key) do
      -- The record is normal from here on, even if the rest of the path leads nowhere.
      normalise
      inRecord whole change rest

/-- Runs a change on the record that the parameters lead to, with the key of the attribute: the way
is that of `inCollection` and then `inRecord`. -/
def locate (ps : Parameters) (change : String → Change Refusal α) : Change Refusal α := do
  inCollection (← ps.nameOf "collection") do
    let path ← ps.path
    -- An empty path is refused before the schema is entered.
    if path.isEmpty then .fail .emptyPath
    .inItem "schema" (inRecord path change path)

/-- The attribute under a key, which has to be a mapping; an absent value counts as none. -/
def attributeIn (key : String) (properties : Value) : Outcome Refusal Value := do
  let found ← properties.get key
  if found.isNull then refuse (.noAttribute key)
  if found.isMapping then return found else refuse (.attributeNotMapping key)

/-- Runs a change on the attribute under a key of a record, which `attributeIn` finds. -/
def inAttribute (key : String) (change : Change Refusal α) : Change Refusal α :=
  .inItem "properties" <| .within key (attributeIn key) change

/-- Makes a key of a record optional or not. The other optional keys are kept in order, as texts. -/
def setOptional (key : String) (optional : Bool) : Change Refusal Unit := do
  let listed ← ((← Change.look "optional").orElse (.list [])).elements
  let others := (listed.map Value.text).filter (· ≠ key)
  .write "optional" (.list ((if optional then others ++ [key] else others).map .str))

/-- Runs a change on the rules of a collection, which are made if there are none. They stay when the
change fails. -/
def inRules (change : Change Refusal α) : Change Refusal α := do
  .writeNew "rules" (.mapping [])
  .within "rules" (fun collection => do
    let rules ← collection.get "rules"
    if rules.isMapping then return rules else refuse .rulesNotMapping) change

/-! ## The operations -/

/-- A record without attributes. -/
def recordOf (properties : List (Scalar × Value)) (optional : List String) : Value :=
  .record [("type", .str "record"), ("properties", .mapping properties),
    ("optional", .list (optional.map .str))]

/-- Makes a collection from attributes, optional keys and rules, under a name that is new. The keys
of the attributes and the scopes of the rules become texts, but what is below them is taken as it
is. -/
def runCreateCollection (ps : Parameters) : Change Refusal Unit := do
  let name ← ps.nameOf "name"
  .inItem "collections" do
    if ← .holds name then .fail (.collectionExists name)
    let properties ← Parameters.mappingOf "schema" (ps.optional "schema")
    let optional ← Parameters.keysOf "optional" (ps.optional "optional")
    let schema := ("schema", recordOf properties optional)
    -- No rules at all are not the same as rules without scopes.
    if (ps.optional "rules").isNull then
      .write name (.record [schema])
    else
      let rules ← Parameters.mappingOf "rules" (ps.optional "rules")
      .write name (.record [schema, ("rules", .mapping rules)])

/-- Takes a collection away, which `collectionIn` has to find. -/
def runDropCollection (ps : Parameters) : Change Refusal Unit := do
  let name ← ps.nameOf "name"
  .inItem "collections" do
    let _ ← collectionIn name (← get)
    .erase name

/-- Makes an attribute at the end of a path, which is optional if the parameters say so; its value
is a copy of the mapping that is given. -/
def runAddAttribute (ps : Parameters) : Change Refusal Unit :=
  locate ps fun key => do
    .inItem "properties" do
      if ← .holds key then .fail (.attributeExists key)
      let added ← ps.required "attribute"
      match added.entries? with
      | some entries => .write key (.mapping entries)
      | none => .fail (.notMapping "attribute" added)
    -- A key that was optional before its attribute came is made required here, if nothing is said.
    setOptional key (ps.optional "optional").isTruthy

/-- Takes an attribute away, and its key from the optional ones. -/
def runDropAttribute (ps : Parameters) : Change Refusal Unit :=
  locate ps fun key => do
    .inItem "properties" do
      let _ ← attributeIn key (← get)
      .erase key
    setOptional key false

/-- The settings that the attribute at hand has, by the texts of their keys. -/
def currentOptions : Change Refusal (List (Scalar × Value)) := do
  Parameters.mappingOf "options" (← .look "options")

/-- Changes the settings that the parameters name and keeps the others, as `Entries.putAll` does. -/
def runAlterAttributeOption (ps : Parameters) : Change Refusal Unit :=
  locate ps fun key => inAttribute key do
    -- The settings that are there come first: if they are no mapping, it is this that fails.
    let current ← currentOptions
    let changed ← Parameters.mappingOf "options" (← ps.required "options")
    .write "options" (.mapping (Entries.putAll current changed))

/-- Takes a setting away. -/
def runDropAttributeOption (ps : Parameters) : Change Refusal Unit :=
  locate ps fun key => inAttribute key do
    let current ← currentOptions
    let option ← ps.nameOf "option"
    .write "options" (.mapping (Entries.remove (.str option) current))

/-- Says whether an attribute is optional. -/
def runSetAttributeOptional (ps : Parameters) : Change Refusal Unit :=
  locate ps fun key => do
    .inItem "properties" do
      -- Only that there is an attribute is asked here; the flag belongs to the record around it.
      let _ ← attributeIn key (← get)
    setOptional key (← ps.required "optional").isTruthy

/-- Puts a rule under a scope and an id. A scope that is new is made first, and stays if the rest
fails. -/
def runAddRule (ps : Parameters) : Change Refusal Unit := do
  inCollection (← ps.nameOf "collection") <| inRules do
    let scope ← ps.nameOf "scope"
    .writeNew scope (.mapping [])
    .inItem scope do
      if !(← get).isMapping then .fail .scopeNotMapping
      let rule ← ps.required "rule"
      .write (← ps.nameOf "id") rule

/-- Takes a rule away, if there is one under the text of the id; a scope without rules goes with
it. -/
def removeRule (ps : Parameters) (scope : String) : Change Refusal Unit := do
  let rules := (← Change.look scope).orElse (.mapping [])
  if !rules.isMapping then .fail .scopeNotMapping
  -- Only an id that is a text is found; ids that came with a collection may be numbers.
  let left ← rules.discard (← ps.nameOf "id")
  if left.isTruthy then .write scope left else .discard scope

/-- Takes a rule away by `removeRule`, and with it rules that are empty. -/
def runDropRule (ps : Parameters) : Change Refusal Unit := do
  inCollection (← ps.nameOf "collection") do
    let scope ← ps.nameOf "scope"
    -- Rules are made even in order to take one away, and are taken away again below.
    inRules (removeRule ps scope)
    if !(← .look "rules").isTruthy then .discard "rules"

/-- The change that an operation makes with its parameters. What it does to a sound state is said by
`Operation.does_run`. -/
def run : Operation → Parameters → Change Refusal Unit
  | createCollection => runCreateCollection
  | dropCollection => runDropCollection
  | addAttribute => runAddAttribute
  | dropAttribute => runDropAttribute
  | alterAttributeOption => runAlterAttributeOption
  | dropAttributeOption => runDropAttributeOption
  | setAttributeOptional => runSetAttributeOptional
  | addRule => runAddRule
  | dropRule => runDropRule

end Operation

end SchemaForge
