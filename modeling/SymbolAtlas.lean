/-
  SymbolAtlas: symbols of source code and their relations, found, stored and searched.
-/

import SymbolAtlas.Analyzer
import SymbolAtlas.Calendar
import SymbolAtlas.Capture
import SymbolAtlas.Database.Basic
import SymbolAtlas.Database.Call
import SymbolAtlas.Database.View
import SymbolAtlas.Decimal.Basic
import SymbolAtlas.Decimal.Layout
import SymbolAtlas.Decimal.Shortest
import SymbolAtlas.Decimal.Wide
import SymbolAtlas.Dialect.Basic
import SymbolAtlas.Dialect.DataFormat
import SymbolAtlas.Dialect.Declarations
import SymbolAtlas.Dialect.Extension
import SymbolAtlas.Dialect.Kinds
import SymbolAtlas.Dialect.Kotlin
import SymbolAtlas.Dialect.Markdown
import SymbolAtlas.Dialect.Rule
import SymbolAtlas.Dialect.Shell
import SymbolAtlas.Digest
import SymbolAtlas.Embedding
import SymbolAtlas.FileTree
import SymbolAtlas.Indexer.Basic
import SymbolAtlas.Indexer.File
import SymbolAtlas.Indexer.Run
import SymbolAtlas.Path
import SymbolAtlas.Pattern.Basic
import SymbolAtlas.Pattern.Class
import SymbolAtlas.Pattern.Run
import SymbolAtlas.Pattern.Scan
import SymbolAtlas.Query
import SymbolAtlas.Registry
import SymbolAtlas.Relation
import SymbolAtlas.Repository.Basic
import SymbolAtlas.Repository.Changes
import SymbolAtlas.Repository.Glob
import SymbolAtlas.Repository.Ignore
import SymbolAtlas.Scaffold
import SymbolAtlas.Schema.Basic
import SymbolAtlas.Schema.Check
import SymbolAtlas.Schema.Convert
import SymbolAtlas.Schema.Records
import SymbolAtlas.Service.Basic
import SymbolAtlas.Service.Record
import SymbolAtlas.Service.Request
import SymbolAtlas.Service.Resource
import SymbolAtlas.Service.Tool
import SymbolAtlas.Session
import SymbolAtlas.Store.Basic
import SymbolAtlas.Store.Cell
import SymbolAtlas.Store.Graph
import SymbolAtlas.Store.Like
import SymbolAtlas.Store.Numeral
import SymbolAtlas.Store.Row
import SymbolAtlas.Store.Stats
import SymbolAtlas.Symbol
import SymbolAtlas.Text.Blank
import SymbolAtlas.Text.Letter
import SymbolAtlas.Text.Parts
import SymbolAtlas.Text.Numeral
import SymbolAtlas.Text.Printable
import SymbolAtlas.Text.Ranges
import SymbolAtlas.Value.Basic
import SymbolAtlas.Value.Display
import SymbolAtlas.Value.Json
import SymbolAtlas.Workspace
import SymbolAtlas.Proofs.Batches
import SymbolAtlas.Proofs.FailedChunks
import SymbolAtlas.Proofs.FileStage
import SymbolAtlas.Proofs.Path
import SymbolAtlas.Proofs.FileTree
import SymbolAtlas.Proofs.Scan
import SymbolAtlas.Proofs.Run
import SymbolAtlas.Proofs.History
import SymbolAtlas.Proofs.Rescan
import SymbolAtlas.Proofs.Operation
import SymbolAtlas.Proofs.Write
import SymbolAtlas.Proofs.Tables
import SymbolAtlas.Proofs.Isolation
import SymbolAtlas.Proofs.References
import SymbolAtlas.Proofs.Ends
import SymbolAtlas.Proofs.Changes
import SymbolAtlas.Proofs.Incremental
import SymbolAtlas.Proofs.Reordering
import SymbolAtlas.Proofs.Works
import SymbolAtlas.Proofs.Links
import SymbolAtlas.Proofs.Embedded
import SymbolAtlas.Proofs.Arrows
import SymbolAtlas.Proofs.Actions
import SymbolAtlas.Proofs.Rework
import SymbolAtlas.Proofs.Resolution
import SymbolAtlas.Proofs.Targets
import SymbolAtlas.Proofs.GraphOrder
import SymbolAtlas.Proofs.Matching
import SymbolAtlas.Proofs.Sources
import SymbolAtlas.Proofs.RelationStage
import SymbolAtlas.Proofs.Vectors
import SymbolAtlas.Proofs.Attachment
import SymbolAtlas.Proofs.Pipeline
import SymbolAtlas.Proofs.Attributes
import SymbolAtlas.Proofs.ScanMode
import SymbolAtlas.Proofs.Removal
import SymbolAtlas.Proofs.Differences
import SymbolAtlas.Proofs.Chosen
import SymbolAtlas.Proofs.Hidden
import SymbolAtlas.Proofs.LostCommit
import SymbolAtlas.Proofs.Failures
import SymbolAtlas.Proofs.CurrentContent
import SymbolAtlas.Proofs.NameSearch
import SymbolAtlas.Proofs.Endpoints
import SymbolAtlas.Proofs.Counts
import SymbolAtlas.Proofs.DefinitionNames
import SymbolAtlas.Proofs.Substring
import SymbolAtlas.Proofs.Replacement
import SymbolAtlas.Proofs.RelationCalls
import SymbolAtlas.Proofs.KeyOrder
import SymbolAtlas.Proofs.Wildcards
import SymbolAtlas.Proofs.Incidence
import SymbolAtlas.Proofs.Hierarchy
import SymbolAtlas.Proofs.DependencyGraph
import SymbolAtlas.Proofs.RelatedSymbols
import SymbolAtlas.Proofs.Statistics
import SymbolAtlas.Proofs.ProjectIdentity
import SymbolAtlas.Proofs.PatternText
import SymbolAtlas.Proofs.Owners
import SymbolAtlas.Proofs.CallSites
import SymbolAtlas.Proofs.FunctionHeaders
import SymbolAtlas.Proofs.LineLocality
import SymbolAtlas.Proofs.FencedBlocks
import SymbolAtlas.Proofs.Headings
import SymbolAtlas.Proofs.FencePairs
import SymbolAtlas.Proofs.SymbolRelations
import SymbolAtlas.Proofs.Sections
import SymbolAtlas.Proofs.Expansions
import SymbolAtlas.Proofs.JsonGrammar
import SymbolAtlas.Proofs.JsonValues
import SymbolAtlas.Proofs.ScriptImports
import SymbolAtlas.Proofs.Inheritance
import SymbolAtlas.Proofs.CleanTexts
import SymbolAtlas.Proofs.SwiftNames
import SymbolAtlas.Proofs.QueryCache
import SymbolAtlas.Proofs.Registration
