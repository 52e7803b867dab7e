import SchemaForge.Migration.Local
import SchemaForge.Migration.Status
import SchemaForge.Proofs.Files.Tree
import SchemaForge.Proofs.Schema.Foreseen

/-!
# Where migrations come from, without breakdowns

Files and servers (section 6.2 of the specification) may hold anything, and nearly all of it is
taken or refused. Two things are not looked at before they are used: whether the bytes of a file are
a text, and, in the status of a server, the kinds of the parts of its project. Where these are as
foreseen, and reading a YAML text does not break down, migrations are read or refused
(`isAnnounced_loadLocal`, `isAnnounced_fetchStatus`, `exists_selectApplicable`).
-/

namespace SchemaForge

open Outcome (IsAnnounced isAnnounced_ok isAnnounced_refuse)

variable {t : FileTree} {p : Path} {inputs : List Path} {status : Value}
  {es : List (Scalar × Value)}

/-! ## Files -/

namespace Document

/-- What a path leads to can be used, and if that is a file, then its bytes are a text, and reading
that as YAML does not break down. -/
structure IsReadable (t : FileTree) (p : Path) : Prop where
  /-- The path can name something. -/
  isUsable : p.isUsable = true
  /-- The bytes of the file. -/
  text : ∀ content, t.read p = .ok content → ∃ text, String.fromUTF8? content = some text ∧
    (yamlSuffixes.contains p.suffix = true →
      IsAnnounced (Yaml.read (Text.unifyLineEndings text.toList)))

end Document

/-- The parts of a project that `selectApplicable` uses without a look at their kinds have the right
kind: a loop runs over the migrations, each of which is a mapping with a version that can be looked
up, and the statuses are a mapping to values that can be compared. -/
structure IsForeseenProject (es : List (Scalar × Value)) : Prop where
  /-- A loop runs over the migrations. -/
  migrations : (fieldOf "migrations" es).IsLoopable
  /-- The migrations. -/
  versions : ∀ ms, ((fieldOf "migrations" es).orElse (.list [])).elements = .ok ms → ∀ m ∈ ms,
    ∃ fields, m.entries? = some fields ∧ (fieldOf "version" fields).isHashable = true
  /-- The statuses. -/
  statuses : ∃ fields, ((fieldOf "statuses" es).orElse (.mapping [])).entries? = some fields ∧
    ∀ f ∈ fields, f.2.isComparable = true

/-- A status whose project is as foreseen. Without a project it is the empty one. -/
def IsForeseenStatus (status : Value) : Prop :=
  ∀ es fields, status.entries? = some es →
    ((fieldOf "project" es).orElse (.mapping [])).entries? = some fields → IsForeseenProject fields

end SchemaForge
