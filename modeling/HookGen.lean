import HookGen.Code.Layout
import HookGen.Code.Statement
import HookGen.CommandLine.Basic
import HookGen.CommandLine.Help
import HookGen.CommandLine.Options
import HookGen.Config.Basic
import HookGen.Config.File
import HookGen.Disk.Basic
import HookGen.Disk.Change
import HookGen.Disk.Walk
import HookGen.Emit.MainIndex
import HookGen.Emit.Relations
import HookGen.Emit.RoutineHooks
import HookGen.Emit.Storage
import HookGen.Emit.TableHooks
import HookGen.Emit.Types
import HookGen.Generation
import HookGen.Integration
import HookGen.Json.Basic
import HookGen.Json.Printer
import HookGen.Json.Reader
import HookGen.Main
import HookGen.Manifest
import HookGen.Naming
import HookGen.Number.Binary64
import HookGen.Number.Literal
import HookGen.Number.Shown
import HookGen.Path
import HookGen.Proofs.Disk.Removal
import HookGen.Proofs.Disk.Tree
import HookGen.Proofs.Disk.Walk
import HookGen.Proofs.Disk.Writable
import HookGen.Proofs.Disk.Encoding
import HookGen.Proofs.Disk.Twins
import HookGen.Proofs.Integration.Moving
import HookGen.Proofs.Disk.Write
import HookGen.Proofs.Generation.Contents
import HookGen.Proofs.Generation.Imports
import HookGen.Proofs.Generation.Paths
import HookGen.Proofs.Generation.References
import HookGen.Proofs.Generation.Relations
import HookGen.Proofs.Generation.Required
import HookGen.Proofs.Integration.Progress
import HookGen.Proofs.Integration.Reading
import HookGen.Proofs.Integration.Rounds
import HookGen.Proofs.Integration.Updating
import HookGen.Proofs.Integration.Writing
import HookGen.Proofs.Json.Literal
import HookGen.Proofs.Json.RoundTrip
import HookGen.Proofs.Json.Strings
import HookGen.Proofs.Manifest.CleanUp
import HookGen.Proofs.Manifest.Listing
import HookGen.Proofs.Manifest.Load
import HookGen.Proofs.Manifest.StaleFiles
import HookGen.Proofs.Manifest.Update
import HookGen.Proofs.Path
import HookGen.Proofs.Render.Calls
import HookGen.Proofs.Render.Entries
import HookGen.Proofs.Render.Inlining
import HookGen.Proofs.Render.Operators
import HookGen.Proofs.Render.Recorded
import HookGen.Proofs.Render.RoundTrip
import HookGen.Proofs.Render.Written
import HookGen.Proofs.Run
import HookGen.Proofs.Schema.Enumeration
import HookGen.Proofs.Schema.Introspection
import HookGen.Proofs.Schema.Relationship
import HookGen.Proofs.Shape.Alike
import HookGen.Proofs.Source.Alias
import HookGen.Proofs.Source.Following
import HookGen.Proofs.Source.Lexing
import HookGen.Proofs.Source.Operands
import HookGen.Proofs.Source.Reading
import HookGen.Proofs.Source.Structural
import HookGen.Proofs.Text.Sort
import HookGen.Proofs.Text.Utf8
import HookGen.Proofs.Text.Word
import HookGen.Render.Basic
import HookGen.Render.Renderer
import HookGen.Run
import HookGen.Schema.Basic
import HookGen.Schema.Introspection
import HookGen.Schema.Relationship
import HookGen.Shape.Basic
import HookGen.Shape.OfSource
import HookGen.Source.Declaration
import HookGen.Source.Lexer
import HookGen.Source.Statement
import HookGen.Source.Token
import HookGen.Source.TypeExpr
import HookGen.Source.TypeParser
import HookGen.Text.Basic
import HookGen.Text.Blank
import HookGen.Text.Case
import HookGen.Text.Digit
import HookGen.Text.Printable
import HookGen.Text.Quoted
import HookGen.Text.StringLiteral
import HookGen.Text.Utf8
import HookGen.Text.Word
import HookGen.Traced
import HookGen.Proofs.Disk.Lookup
import HookGen.Proofs.Render.Session
import HookGen.Proofs.Integration.Opening
import HookGen.Proofs.Integration.Failing
import HookGen.Proofs.Integration.Reporting
import HookGen.Proofs.Disk.Beside
import HookGen.Proofs.Integration.Beside
import HookGen.Proofs.Manifest.Passing
import HookGen.Proofs.Integration.Previous
import HookGen.Proofs.Code.Joining
import HookGen.Proofs.Code.Outline
import HookGen.Proofs.Code.Reading
import HookGen.Proofs.Naming
import HookGen.Proofs.Generation.Assignments
import HookGen.Proofs.Generation.Distinct
import HookGen.Proofs.Generation.Modules
import HookGen.Proofs.Generation.Outlines
import HookGen.Proofs.Generation.Written
import HookGen.Proofs.Generation.Links
import HookGen.Proofs.Generation.Exports
import HookGen.Proofs.Generation.Clashes
import HookGen.Proofs.Integration.Containment
import HookGen.Proofs.Generation.Bindings
import HookGen.Proofs.Source.Spanning
import HookGen.Proofs.Generation.Redeclaration
import HookGen.Proofs.Source.Relexing
import HookGen.Proofs.Config.Saving
import HookGen.Proofs.Failures
import HookGen.Proofs.Generation.Failures
import HookGen.Proofs.CommandLine.Answers
import HookGen.Proofs.Text.StringLiteral
import HookGen.Proofs.Schema.Access
import HookGen.Proofs.Source.Keeping
import HookGen.Proofs.Shape.Literals
import HookGen.Proofs.Schema.Grouping
import HookGen.Proofs.Schema.Entries
import HookGen.Proofs.Code.Quoting
import HookGen.Proofs.Generation.Quoting
import HookGen.Proofs.Config.Overriding
import HookGen.Proofs.Config.Loading
import HookGen.Proofs.Generation.RelationNames
import HookGen.Proofs.Shape.KeptText
import HookGen.Proofs.Code.Nesting
import HookGen.Proofs.Render.Indentation
import HookGen.Proofs.Generation.BindingNames
import HookGen.Proofs.Path.Specifier
