import ApiDoc.Text.Case
import ApiDoc.Text.Word
import ApiDoc.Text.Blank
import ApiDoc.Data.Json
import ApiDoc.Data.Json.Reader
import ApiDoc.Data.Json.Options
import ApiDoc.Yaml.Writer
import ApiDoc.Yaml.Content
import ApiDoc.Digest.Sha1
import ApiDoc.Class.Reflection
import ApiDoc.Workspace
import ApiDoc.Log.Session
import ApiDoc.Registry
import ApiDoc.Config
import ApiDoc.Override
import ApiDoc.Naming
import ApiDoc.Document.Merge
import ApiDoc.Groups
import ApiDoc.Document.Layout
import ApiDoc.TypeExpr.Parser
import ApiDoc.TypeExpr.Position
import ApiDoc.Proofs.Registry.FreeName
import ApiDoc.Proofs.Registry.Register
import ApiDoc.Proofs.Registry.History
import ApiDoc.Proofs.Data.Entries
import ApiDoc.Proofs.Groups.Closure
import ApiDoc.Proofs.Document.Shape
import ApiDoc.Proofs.Describe.Results
import ApiDoc.Proofs.Document.Keeps
import ApiDoc.Proofs.Describe.Rules
import ApiDoc.Proofs.Describe.Overrides
import ApiDoc.Proofs.Class.Found
import ApiDoc.Proofs.Describe.Describers
import ApiDoc.Proofs.Registry.Calls
import ApiDoc.Proofs.Registry.Rounds
import ApiDoc.Proofs.Registry.Trace
import ApiDoc.Proofs.Registry.Drain
import ApiDoc.Proofs.Registry.Termination
import ApiDoc.Proofs.Document.Children
import ApiDoc.Proofs.Document.Members
import ApiDoc.Proofs.Document.Merge
import ApiDoc.Proofs.Document.Fragments
import ApiDoc.Proofs.Describe.Schemas
import ApiDoc.Proofs.Describe.Documents
import ApiDoc.Proofs.Document.Components
import ApiDoc.Proofs.Generator.References
import ApiDoc.Proofs.Data.Upsert
import ApiDoc.Proofs.Data.Repeat
import ApiDoc.Proofs.Data.Equality
import ApiDoc.Proofs.Tree.Basic
import ApiDoc.Proofs.Tree.Merge
import ApiDoc.Proofs.Tree.Standing
import ApiDoc.Proofs.Tree.Content
import ApiDoc.Proofs.Tree.Edits
import ApiDoc.Proofs.Tree.Sources
import ApiDoc.Proofs.Tree.Refinement
import ApiDoc.Proofs.Tree.Shown
import ApiDoc.Proofs.Tree.Items
import ApiDoc.Proofs.Tree.Orderly
import ApiDoc.Proofs.Tree.Copy
import ApiDoc.Proofs.Tree.Adoption
import ApiDoc.Proofs.Tree.Associativity
import ApiDoc.Proofs.Tree.Repetition
import ApiDoc.Proofs.Growth.Step
import ApiDoc.Proofs.Growth.Follows
import ApiDoc.Proofs.Growth.Sources
import ApiDoc.Proofs.Growth.Merge
import ApiDoc.Proofs.Growth.Embedding
import ApiDoc.Proofs.Growth.Keys
import ApiDoc.Proofs.Growth.Consistent
import ApiDoc.Proofs.Growth.Standing
import ApiDoc.Proofs.Growth.Built
import ApiDoc.Proofs.Growth.Overwrite
import ApiDoc.Proofs.Groups.Identity
import ApiDoc.Proofs.Growth.Location
import ApiDoc.Proofs.Policy.Warnings
import ApiDoc.Proofs.Policy.Slots
import ApiDoc.Proofs.Policy.Lenience
import ApiDoc.Proofs.Policy.Sifted
import ApiDoc.Proofs.Policy.Licensed
import ApiDoc.Proofs.Policy.Sifting
import ApiDoc.Proofs.Policy.Success
import ApiDoc.Proofs.Policy.Opening
import ApiDoc.Proofs.Policy.Repetition
import ApiDoc.Proofs.Growth.Frame
import ApiDoc.Proofs.Growth.Richer
import ApiDoc.Proofs.Growth.Contents
import ApiDoc.Proofs.Growth.Seated
import ApiDoc.Proofs.Growth.Turns
import ApiDoc.Proofs.Growth.Seating
import ApiDoc.Proofs.Growth.Presence
import ApiDoc.Proofs.TypeExpr.Derivation
import ApiDoc.Proofs.TypeExpr.Reading
import ApiDoc.Proofs.Registry.Failures
import ApiDoc.Proofs.Describe.SharedTypes
import ApiDoc.Proofs.Describe.Filling
import ApiDoc.Proofs.Describe.Agreement
import ApiDoc.Proofs.TypeExpr.Printing
import ApiDoc.Proofs.Data.Written
import ApiDoc.Proofs.Groups.Equivalence
import ApiDoc.Proofs.Describe.Lockstep
import ApiDoc.Proofs.Generator.Isolation
import ApiDoc.Proofs.Describe.Yields
import ApiDoc.Proofs.Describe.Sketches
import ApiDoc.Proofs.Describe.WellShaped
import ApiDoc.Proofs.Data.Marks
import ApiDoc.Proofs.Tree.Marks
import ApiDoc.Proofs.Tree.Members
import ApiDoc.Proofs.Describe.Plans
import ApiDoc.Proofs.Describe.Later
import ApiDoc.Proofs.Describe.Replays
import ApiDoc.Proofs.Class.Describable
import ApiDoc.Proofs.Describe.Inference
import ApiDoc.Proofs.Describe.Nullability
import ApiDoc.Proofs.Describe.Collections
import ApiDoc.Proofs.Describe.Scopes
import ApiDoc.Proofs.Describe.Drawing
import ApiDoc.Proofs.Describe.Models
import ApiDoc.Proofs.Describe.Recurrence
import ApiDoc.Proofs.Describe.Families
import ApiDoc.Proofs.Describe.Listing
import ApiDoc.Proofs.Growth.Refusal
import ApiDoc.Proofs.Describe.ModelRefs
import ApiDoc.Proofs.Generator.Alternatives
import ApiDoc.Proofs.Registry.NameSearch
import ApiDoc.Proofs.Growth.Defaults
import ApiDoc.Proofs.Growth.Completion
import ApiDoc.Proofs.Growth.Notes
import ApiDoc.Proofs.Growth.Gathered
import ApiDoc.Proofs.Growth.Union
