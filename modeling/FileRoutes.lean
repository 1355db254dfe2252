import FileRoutes.Command.Arguments
import FileRoutes.Command.Help
import FileRoutes.Command.Line
import FileRoutes.Command.Migrate
import FileRoutes.Command.Report
import FileRoutes.Conventions.Basic
import FileRoutes.Conventions.Fault
import FileRoutes.Conventions.Reading
import FileRoutes.FileSystem.Change
import FileRoutes.FileSystem.Entry
import FileRoutes.FileSystem.Fault
import FileRoutes.FileSystem.Inventory
import FileRoutes.FileSystem.Reading
import FileRoutes.FileSystem.Resolve
import FileRoutes.Json
import FileRoutes.Main
import FileRoutes.Migration.Copy
import FileRoutes.Migration.Failure
import FileRoutes.Migration.Log
import FileRoutes.Migration.Output
import FileRoutes.Migration.Session
import FileRoutes.Number.Binary64
import FileRoutes.Path
import FileRoutes.Problem
import FileRoutes.Route.Compilation
import FileRoutes.Route.Derivation
import FileRoutes.Route.Dump
import FileRoutes.Route.GeneratedFile
import FileRoutes.Route.Literal
import FileRoutes.Route.Loading
import FileRoutes.Route.LogicalPath
import FileRoutes.Route.Node
import FileRoutes.Route.Table
import FileRoutes.Text.Basic
import FileRoutes.Text.Blank
import FileRoutes.Text.Extender
import FileRoutes.Text.Quoted
import FileRoutes.Text.Unprintable
import FileRoutes.Text.Utf8
import FileRoutes.Yaml.BlockScalar
import FileRoutes.Yaml.Cursor
import FileRoutes.Yaml.Document
import FileRoutes.Yaml.Event
import FileRoutes.Yaml.Gap
import FileRoutes.Yaml.PlainScalar
import FileRoutes.Yaml.QuotedScalar
import FileRoutes.Yaml.Scalar
import FileRoutes.Yaml.Tag
import FileRoutes.Yaml.Token
import FileRoutes.Proofs.Command.Spelling
import FileRoutes.Proofs.Conventions.Overriding
import FileRoutes.Proofs.Conventions.Reading
import FileRoutes.Proofs.FileSystem.Atomicity
import FileRoutes.Proofs.FileSystem.Canonical
import FileRoutes.Proofs.FileSystem.Denials
import FileRoutes.Proofs.FileSystem.Effects
import FileRoutes.Proofs.FileSystem.Enumeration
import FileRoutes.Proofs.FileSystem.Growth
import FileRoutes.Proofs.FileSystem.Listing
import FileRoutes.Proofs.FileSystem.Names
import FileRoutes.Proofs.FileSystem.Outcomes
import FileRoutes.Proofs.FileSystem.Parents
import FileRoutes.Proofs.FileSystem.Refusals
import FileRoutes.Proofs.FileSystem.Repetition
import FileRoutes.Proofs.FileSystem.Rewriting
import FileRoutes.Proofs.FileSystem.Trails
import FileRoutes.Proofs.FileSystem.Tree
import FileRoutes.Proofs.FileSystem.Unlocked
import FileRoutes.Proofs.FileSystem.Ways
import FileRoutes.Proofs.Json.Reading
import FileRoutes.Proofs.Migration.Confinement
import FileRoutes.Proofs.Migration.Conflicts
import FileRoutes.Proofs.Migration.Course
import FileRoutes.Proofs.Migration.DryRun
import FileRoutes.Proofs.Migration.Failures
import FileRoutes.Proofs.Migration.FinalState
import FileRoutes.Proofs.Migration.Idempotence
import FileRoutes.Proofs.Migration.Interruption
import FileRoutes.Proofs.Migration.LinkedSource
import FileRoutes.Proofs.Migration.Merging
import FileRoutes.Proofs.Migration.Recopying
import FileRoutes.Proofs.Migration.Regeneration
import FileRoutes.Proofs.Migration.Separate
import FileRoutes.Proofs.Migration.Source
import FileRoutes.Proofs.Migration.Targets
import FileRoutes.Proofs.Migration.Written
import FileRoutes.Proofs.Route.Chains
import FileRoutes.Proofs.Route.Decoding
import FileRoutes.Proofs.Route.Delimiting
import FileRoutes.Proofs.Route.Dumping
import FileRoutes.Proofs.Route.Embedding
import FileRoutes.Proofs.Route.Exactness
import FileRoutes.Proofs.Route.Exploration
import FileRoutes.Proofs.Route.Grouping
import FileRoutes.Proofs.Route.Image
import FileRoutes.Proofs.Route.Loading
import FileRoutes.Proofs.Route.Naming
import FileRoutes.Proofs.Route.Offences
import FileRoutes.Proofs.Route.Placement
import FileRoutes.Proofs.Route.Pruning
import FileRoutes.Proofs.Route.Recording
import FileRoutes.Proofs.Route.Rendering
import FileRoutes.Proofs.Route.Siblings
import FileRoutes.Proofs.Route.Styles
import FileRoutes.Proofs.Yaml.Lines
import FileRoutes.Proofs.Yaml.Mapping
