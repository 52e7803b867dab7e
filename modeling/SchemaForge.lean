import SchemaForge.Main
import SchemaForge.Proofs.Command.Codegen
import SchemaForge.Proofs.Command.Reporting
import SchemaForge.Proofs.Migration.Construction
import SchemaForge.Proofs.Migration.Effect
import SchemaForge.Proofs.Migration.Failure
import SchemaForge.Proofs.Migration.Foreseen
import SchemaForge.Proofs.Migration.Independence
import SchemaForge.Proofs.Migration.Inputs
import SchemaForge.Proofs.Migration.Order
import SchemaForge.Proofs.Migration.Retention
import SchemaForge.Proofs.Migration.Rules
import SchemaForge.Proofs.Migration.Sources
import SchemaForge.Proofs.Migration.Stepwise
import SchemaForge.Proofs.Migration.Tidiness
import SchemaForge.Proofs.Migration.Undoing
import SchemaForge.Proofs.Schema.DocumentRoundTrip
import SchemaForge.Proofs.Schema.OptionalKeys
import SchemaForge.Proofs.Schema.Regeneration
import SchemaForge.Proofs.Schema.RoundTrip
import SchemaForge.Proofs.Schema.Sameness
import SchemaForge.Proofs.Schema.Surroundings
import SchemaForge.Proofs.Source.Announcing
import SchemaForge.Proofs.Source.DataModel
import SchemaForge.Proofs.Source.Embedding
import SchemaForge.Proofs.Source.Nesting
import SchemaForge.Proofs.Source.Recognition
import SchemaForge.Proofs.Source.Reformatting
import SchemaForge.Proofs.Source.StringValue
import SchemaForge.Proofs.Source.Totality
import SchemaForge.Proofs.Source.Transparency
import SchemaForge.Source.File
