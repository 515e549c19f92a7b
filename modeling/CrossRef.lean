import CrossRef.Adapter
import CrossRef.Anchor
import CrossRef.Cli.Arguments
import CrossRef.Cli.Command
import CrossRef.Config
import CrossRef.ConfigFile
import CrossRef.ConfigStore
import CrossRef.Diagnostic
import CrossRef.Digest.Blake3
import CrossRef.Discovery
import CrossRef.Error
import CrossRef.Extraction
import CrossRef.ExtractionWalk
import CrossRef.FileGraph
import CrossRef.FilePattern
import CrossRef.FileTree
import CrossRef.Ignore.Exclusion
import CrossRef.Ignore.Glob
import CrossRef.Ignore.Level
import CrossRef.Ignore.Library
import CrossRef.Ignore.Rules
import CrossRef.Ignore.Walk
import CrossRef.IgnoreFilter
import CrossRef.Job
import CrossRef.Json.Codec
import CrossRef.Json.Read
import CrossRef.Json.Record
import CrossRef.Json.Value
import CrossRef.Keyed
import CrossRef.Linking.Exports
import CrossRef.Linking.LinkSet
import CrossRef.Linking.ModulePath
import CrossRef.Linking.Resolution
import CrossRef.Main
import CrossRef.Ordering
import CrossRef.OsPath
import CrossRef.OsString
import CrossRef.Path
import CrossRef.Position
import CrossRef.Report
import CrossRef.ReportJson
import CrossRef.ReportText
import CrossRef.Reserved
import CrossRef.Scope.Graph
import CrossRef.StatsTable
import CrossRef.Symbol
import CrossRef.Syntax.Expression
import CrossRef.Syntax.Layout
import CrossRef.Syntax.Lexer
import CrossRef.Syntax.Node
import CrossRef.Syntax.Quoted
import CrossRef.Syntax.Read
import CrossRef.Syntax.SourceMap
import CrossRef.Syntax.Statement
import CrossRef.Syntax.Token
import CrossRef.Text.Blank
import CrossRef.Text.Decimal
import CrossRef.Text.Identifier
import CrossRef.Text.Rest
import CrossRef.Text.Split
import CrossRef.Toml.Codec
import CrossRef.Toml.Quoted
import CrossRef.Toml.Read
import CrossRef.Toml.Scalar
import CrossRef.Toml.Table
import CrossRef.Usages
import CrossRef.Proofs.Adapter
import CrossRef.Proofs.FileGraph.Edges
import CrossRef.Proofs.FileGraph.WellFormed
import CrossRef.Proofs.Keyed
import CrossRef.Proofs.Ordering.Cycle
import CrossRef.Proofs.Ordering.Emission
import CrossRef.Proofs.Ordering.Least
import CrossRef.Proofs.Ordering.Agreement
import CrossRef.Proofs.Extraction.Tables
import CrossRef.Proofs.Linking.Exports
import CrossRef.Proofs.Linking.Resolution
import CrossRef.Proofs.Job.Corpus
import CrossRef.Proofs.Job.Permutation
import CrossRef.Proofs.Job.Dependencies
import CrossRef.Proofs.Job.Accounts
import CrossRef.Proofs.Job.Alone
import CrossRef.Proofs.Job.Growth
import CrossRef.Proofs.Syntax.Expression
import CrossRef.Proofs.Syntax.Statement
import CrossRef.Proofs.Syntax.Words
import CrossRef.Proofs.Extraction.Wildcards
import CrossRef.Proofs.Linking.ModulePath
import CrossRef.Proofs.Linking.Unread
import CrossRef.Proofs.Ordering.Isolated
import CrossRef.Proofs.Job.Inert
import CrossRef.Proofs.Job.Modes
import CrossRef.Proofs.Job.Ambiguity
import CrossRef.Proofs.Anchor
import CrossRef.Proofs.Extraction.Bindings
import CrossRef.Proofs.Job.Anchors
import CrossRef.Proofs.Job.Targets
import CrossRef.Proofs.Syntax.Nesting
import CrossRef.Proofs.Extraction.Declares
import CrossRef.Proofs.Extraction.Sites
import CrossRef.Proofs.Extraction.Shares
import CrossRef.Proofs.Extraction.Opened
import CrossRef.Proofs.Extraction.ScopeRecovery
import CrossRef.Proofs.FileGraph.History
import CrossRef.Proofs.Scope.Rooted
import CrossRef.Proofs.Scope.Lookup
import CrossRef.Proofs.Extraction.WellFormed
import CrossRef.Proofs.Syntax.Parents
import CrossRef.Proofs.Usages.Reached
import CrossRef.Proofs.Usages.Exact
import CrossRef.Proofs.Syntax.Rows
import CrossRef.Proofs.Extraction.Addresses
import CrossRef.Proofs.Syntax.Roles
import CrossRef.Proofs.Extraction.WalkOrder
import CrossRef.Proofs.Extraction.SourceOrder
import CrossRef.Proofs.Extraction.Reach
import CrossRef.Proofs.Extraction.Locals
import CrossRef.Proofs.Path
import CrossRef.Proofs.OsString
import CrossRef.Proofs.OsPath
import CrossRef.Proofs.Linking.RelativeImports
import CrossRef.Proofs.Json.Compact
import CrossRef.Proofs.Json.Codec
import CrossRef.Proofs.ReportJson
import CrossRef.Proofs.Toml.Quoted
import CrossRef.Proofs.Toml.Read
import CrossRef.Proofs.Toml.Codec
import CrossRef.Proofs.ConfigFile
import CrossRef.Proofs.FileTree.Way
import CrossRef.Proofs.FileTree.Write
import CrossRef.Proofs.ConfigStore
import CrossRef.Proofs.FileTree.Sound
import CrossRef.Proofs.Discovery
import CrossRef.Proofs.Ignore.Documented
import CrossRef.Proofs.Ignore.Exclusion
import CrossRef.Proofs.Ignore.Walk
import CrossRef.Proofs.Ignore.Search
import CrossRef.Proofs.Ordering.Counters
import CrossRef.Proofs.Scope.Enclosing
