import CrossIndex.Command.Arguments
import CrossIndex.Command.Basic
import CrossIndex.Dialect.Dgl
import CrossIndex.Dialect.Kind
import CrossIndex.Dialect.Mxnet
import CrossIndex.Dialect.Package
import CrossIndex.Dialect.Packed
import CrossIndex.Dialect.Provider
import CrossIndex.Dialect.Taichi
import CrossIndex.Dialect.Torch
import CrossIndex.Dialect.Tvm
import CrossIndex.Fact
import CrossIndex.Fact.Json
import CrossIndex.FileTree
import CrossIndex.Index
import CrossIndex.Json.Basic
import CrossIndex.Json.Printer
import CrossIndex.Json.Reader
import CrossIndex.Main
import CrossIndex.Matcher.Decorator
import CrossIndex.Matcher.Key
import CrossIndex.Matcher.Line
import CrossIndex.Matcher.MultiLine
import CrossIndex.Matcher.Window
import CrossIndex.Module.Path
import CrossIndex.Module.Resolver
import CrossIndex.Path.Basic
import CrossIndex.Path.Extension
import CrossIndex.Position
import CrossIndex.Python.Expression
import CrossIndex.Python.Import
import CrossIndex.Python.TokenSearch
import CrossIndex.Regex.Basic
import CrossIndex.Regex.CharClass
import CrossIndex.Regex.Match
import CrossIndex.Regex.Pattern
import CrossIndex.Regex.Reader
import CrossIndex.Scan.Files
import CrossIndex.Scan.Glob
import CrossIndex.Scan.Naming
import CrossIndex.Server.Basic
import CrossIndex.Server.Documents
import CrossIndex.Server.Json
import CrossIndex.Settings
import CrossIndex.Table
import CrossIndex.Text.Blank
import CrossIndex.Text.CaseFold
import CrossIndex.Text.Column
import CrossIndex.Text.Decimal
import CrossIndex.Text.Digit
import CrossIndex.Text.Hex
import CrossIndex.Text.Lines
import CrossIndex.Text.Ranges
import CrossIndex.Text.Split
import CrossIndex.Text.Utf8
import CrossIndex.Text.Word
import CrossIndex.Toml.Basic
import CrossIndex.Toml.Reader
import CrossIndex.Toml.Scalar
import CrossIndex.Toml.Text
import CrossIndex.Toml.Tree
import CrossIndex.Url.Basic
import CrossIndex.Url.Percent
import CrossIndex.Url.Reader
import CrossIndex.Version
import CrossIndex.Workspace.Basic
import CrossIndex.Workspace.Generation
import CrossIndex.Workspace.Plan
import CrossIndex.Workspace.Query
import CrossIndex.Proofs.Dialect.Cursor
import CrossIndex.Proofs.Fact
import CrossIndex.Proofs.Text.Column
import CrossIndex.Proofs.Workspace.History
import CrossIndex.Proofs.Workspace.Start
import CrossIndex.Proofs.Table
import CrossIndex.Proofs.Text.Split
import CrossIndex.Proofs.Path.Components
import CrossIndex.Proofs.Module.Path
import CrossIndex.Proofs.Path.Extension
import CrossIndex.Proofs.Module.Graph
import CrossIndex.Proofs.Module.Resolution
import CrossIndex.Proofs.Dialect.Exports
import CrossIndex.Proofs.Dialect.Package
import CrossIndex.Proofs.Index
import CrossIndex.Proofs.Workspace.Recorded
import CrossIndex.Proofs.Workspace.Terms
import CrossIndex.Proofs.Dialect.Roots
import CrossIndex.Proofs.Workspace.Order
import CrossIndex.Proofs.Workspace.Overlap
import CrossIndex.Proofs.FileTree
import CrossIndex.Proofs.Python.Tokens
import CrossIndex.Proofs.Text.Utf8
import CrossIndex.Proofs.Scan.Naming
import CrossIndex.Proofs.Scan.Files
import CrossIndex.Proofs.Workspace.References
import CrossIndex.Proofs.Workspace.RoundTrip
import CrossIndex.Proofs.Server.Buffers
import CrossIndex.Proofs.Server.Columns
import CrossIndex.Proofs.Module.Chain
import CrossIndex.Proofs.Module.Stability
import CrossIndex.Proofs.Module.Spelling
import CrossIndex.Proofs.Workspace.Grouping
import CrossIndex.Proofs.Fact.Json
import CrossIndex.Proofs.Server.OpenText
import CrossIndex.Proofs.Workspace.Sights
import CrossIndex.Proofs.Regex.Search
import CrossIndex.Proofs.Matcher.Span
import CrossIndex.Proofs.Module.Cap
import CrossIndex.Proofs.Python.Selection
import CrossIndex.Proofs.Text.Trim
import CrossIndex.Proofs.Python.Statement
import CrossIndex.Proofs.Python.Expression
import CrossIndex.Proofs.Scan.Complete
import CrossIndex.Proofs.Module.Normal
import CrossIndex.Proofs.Module.Target
import CrossIndex.Proofs.Dialect.Uses
import CrossIndex.Proofs.Regex.Language
import CrossIndex.Proofs.Matcher.CallSite
import CrossIndex.Proofs.Matcher.DecoratorGrammar
import CrossIndex.Proofs.Matcher.Decorator
import CrossIndex.Proofs.Location
import CrossIndex.Proofs.Regex.Groups
import CrossIndex.Proofs.Matcher.KeyRange
import CrossIndex.Proofs.Module.Init
import CrossIndex.Proofs.Dialect.Definitions
import CrossIndex.Proofs.Command.Listing
import CrossIndex.Proofs.Matcher.Tiles
import CrossIndex.Proofs.Text.Boundary
import CrossIndex.Proofs.Module.SourceFile
import CrossIndex.Proofs.Workspace.SourceFiles
