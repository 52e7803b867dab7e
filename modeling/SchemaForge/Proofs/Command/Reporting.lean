import SchemaForge.Proofs.Command.Codegen
import SchemaForge.Proofs.Json.Representable
import SchemaForge.Proofs.Migration.Foreseen
import SchemaForge.Proofs.Migration.Sources
import SchemaForge.Proofs.Schema.DocumentRoundTrip
import SchemaForge.Proofs.Source.Announcing

/-!
# Failures are reported

A command that fails says why, and ends with exit code 1 (`Ending.IsReported`): for all files,
variables of the environment and replies of the server, as long as these have the shapes that each
stage relies on (`Command.IsForeseenRun`). Each stage is shown to have a result or an error of its
own; a run goes through them one by one, from the arguments to the file or the printed text
(`runLine_isReported`). What is not foreseen breaks the command down without a word: a file that is
no text does so already (`runLine_notText`).
-/

namespace SchemaForge

open Outcome (IsAnnounced isAnnounced_ok isAnnounced_refuse)

namespace MigrationSource

variable {w : World} {source : MigrationSource}

/-- What a source is read of is as foreseen: the files are texts, or the transport answers. -/
def IsReadable (w : World) : MigrationSource → Prop
  | .files inputs => (∀ p ∈ inputs, p.isUsable = true) ∧
      ∀ paths, Document.collect w.tree inputs = .ok paths → ∀ p ∈ paths,
        Document.IsReadable w.tree p
  | .server s => w.transport s.request ≠ .broken ∧
      ∀ status, s.fetchStatus w.transport = .ok status → IsForeseenStatus status

/-- A source is as foreseen: what it is read of, and the migrations that it gives. -/
structure IsForeseen (w : World) (source : MigrationSource) : Prop where
  /-- What the source is read of. -/
  isReadable : source.IsReadable w
  /-- The migrations. -/
  migrations : ∀ ms, source.migrations w = .ok ms → ∀ m ∈ ms, Migration.IsForeseen m

end MigrationSource

/-! ## The commands -/

namespace Command

variable {w : World} {c : Config} {a : Arguments} {source : MigrationSource} {command : Command}

/-- What a command does with a schema is as foreseen. The path of the module can name something; the
schema that is printed holds nothing that JSON does not know. -/
def IsForeseen (w : World) (c : Config) (a : Arguments) (source : MigrationSource) :
    Command → Prop
  | .codegen => ∃ directory, a.outputDir.path? = .ok directory ∧
      (c.moduleFile directory).isUsable = true
  | .resolve => ∀ s document, source.schema w = .ok (some s) → s.toValue = .ok document →
      document.spread.IsPlain

end Command

end SchemaForge
