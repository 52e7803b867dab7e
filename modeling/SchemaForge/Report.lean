import SchemaForge.Number.Digits
import SchemaForge.Value.Access

/-!
# Reports

What an error says to the user (section 7 of the specification): a wording, and where it belongs. A
field and a migration version come in front of the wording, an offset behind it, and the name of the
document in front of all. An empty field name or document name is left out.

`Failure` joins the errors of one part of the library with the faults that any part may meet.
-/

namespace SchemaForge

/-- An error as the user sees it. `Report.message` puts its parts together. -/
structure Report where
  /-- The wording. -/
  wording : String
  /-- The field of a document that is malformed. -/
  field : Option String := none
  /-- The version of the migration that failed. -/
  version : Option Int := none
  /-- The number of characters before the place of the error. -/
  position : Option Int := none
  /-- The document the error is in. -/
  document : Option String := none
  deriving DecidableEq

namespace Report

/-- The wording with the field it is about. -/
def aboutField (field : Option String) (wording : String) : String :=
  match field with
  | none => wording
  | some f => if f.isEmpty then wording else "Field '" ++ f ++ "': " ++ wording

/-- The wording with the migration it is about. -/
def aboutVersion (version : Option Int) (wording : String) : String :=
  match version with
  | none => wording
  | some v => "Migration " ++ Number.intText v ++ ": " ++ wording

/-- The wording with the offset it is about. -/
def aboutPosition (position : Option Int) (wording : String) : String :=
  match position with
  | none => wording
  | some p => wording ++ " (at offset " ++ Number.intText p ++ ")"

/-- The wording with the document it is about. -/
def inDocument (document : Option String) (wording : String) : String :=
  match document with
  | none => wording
  | some d => if d.isEmpty then wording else "[" ++ d ++ "] " ++ wording

/-- The whole message: the document, the migration and the field in front of the wording, and the
offset behind it. -/
def message (r : Report) : String :=
  inDocument r.document
    (aboutPosition r.position (aboutVersion r.version (aboutField r.field r.wording)))

end Report

/-- Why an operation has no result: an error of its own that it announces, or a `Fault` that it does
not foresee. -/
inductive Failure (ε : Type) where
  /-- An error that the operation announces. -/
  | refused (error : ε)
  /-- A value of an unforeseen shape. -/
  | broken (fault : Fault)
  deriving DecidableEq

/-- A failure with its error seen as an error of another kind. -/
def Failure.map (f : ε → δ) : Failure ε → Failure δ
  | .refused e => .refused (f e)
  | .broken fault => .broken fault

/-- An operation that gives a result or fails. What it announces is of type `ε`, and anything else
is a `Fault`. -/
abbrev Outcome (ε α : Type) := Except (Failure ε) α

/-- An outcome with its errors seen as errors of another kind; faults stay what they are. -/
def Outcome.seenAs (f : ε → δ) (x : Outcome ε α) : Outcome δ α := x.mapError (Failure.map f)

/-- A fault is a failure of whatever operation meets it. -/
instance : MonadLift (Except Fault) (Except (Failure ε)) :=
  ⟨fun x => x.mapError Failure.broken⟩

/-- Fails with an error of the operation itself, which is announced. -/
def refuse (error : ε) : Outcome ε α := .error (.refused error)

end SchemaForge
