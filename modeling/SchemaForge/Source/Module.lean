import SchemaForge.Source.Attribute

/-!
# Modules

A schema as a source module: a comment that names the generator, the import of the constructors,
and the export of an object with one member for each collection. The object is complete before
the module is put together, so a schema that cannot be written leaves no text behind.
-/

namespace SchemaForge

/-- A collection as source text (section 4.3 of the specification): its tree, and its rules as
indented JSON if it has any. -/
def Collection.toSource (c : Collection) : Encoder String := do
  let tree ← c.schema.toSource "Schema"
  let rules ← if c.rules.isNull then pure []
    else pure ["rules: " ++ (← Source.embedded c.rules (some 2)) ++ ","]
  return Fragment.block "\x7b" (("schema: " ++ tree ++ ",") :: rules) "\x7d"

/-- The members of the exported object: each collection under its quoted name, in order. -/
def collectionsToSource : List (String × Collection) → Encoder (List String)
  | [] => pure []
  | (name, c) :: rest => do
    let name ← quote (.str name)
    let line := name ++ ": " ++ (← c.toSource) ++ ","
    return line :: (← collectionsToSource rest)

/-- The exported object; without a schema it is empty. -/
def encodeCollections (s : Option Schema) : Encoder String := do
  -- Without a schema there are no collections, which is written like a schema without any.
  let members ← collectionsToSource ((s.map Schema.collections).getD [])
  return if members.isEmpty then "\x7b\x7d" else Fragment.block "\x7b" members "\x7d"

/-- The names that a module uses. -/
structure ModuleOptions where
  /-- The generator named in the comment. -/
  generatorName : String := "Triplit CLI"
  /-- Where the constructors are imported from. -/
  importPath : String := "@triplit/db"
  /-- The name of the exported object. -/
  exportName : String := "schema"

/-- The module that exports an object: the comment, the import and the export of section 4.4 of the
specification around it. -/
def moduleText (o : ModuleOptions) (body : String) : String :=
  "/**\n * This file is auto-generated by the " ++ o.generatorName ++ ".\n */\n\n"
    ++ "import \x7b Schema as " ++ Source.builderName ++ " \x7d from '" ++ o.importPath ++ "';\n"
    ++ "export const " ++ o.exportName ++ " = " ++ body ++ ";\n"

/-- A schema as a module. The object is complete before `moduleText` puts the module together, so an
error leaves no text. -/
def encodeModule (o : ModuleOptions) (s : Option Schema) : Encoder String := do
  return moduleText o (← encodeCollections s)

end SchemaForge
