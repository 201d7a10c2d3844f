import CodeConcepts.Concept.Declaration
import CodeConcepts.Concept.Kind
import CodeConcepts.Concept.Names
import CodeConcepts.Concept.Reference
import CodeConcepts.Concept.TypeDesc
import CodeConcepts.Concept.Value
import CodeConcepts.Config
import CodeConcepts.Extract.Declarations
import CodeConcepts.Extract.Exports
import CodeConcepts.Extract.Extractor
import CodeConcepts.Extract.File
import CodeConcepts.Extract.Imports
import CodeConcepts.Extract.Members
import CodeConcepts.Extract.Origin
import CodeConcepts.Extract.References
import CodeConcepts.Extract.Walk
import CodeConcepts.Files.FileTree
import CodeConcepts.Files.Path
import CodeConcepts.Files.Snapshot
import CodeConcepts.Files.Source
import CodeConcepts.Files.Specifier
import CodeConcepts.Glob.Match
import CodeConcepts.Glob.Pattern
import CodeConcepts.Json.Basic
import CodeConcepts.Json.Fields
import CodeConcepts.Json.Printer
import CodeConcepts.Json.Reader
import CodeConcepts.Json.Relaxed
import CodeConcepts.Json.Selection
import CodeConcepts.Json.Token
import CodeConcepts.Main
import CodeConcepts.Model.Basic
import CodeConcepts.Model.Catalogue
import CodeConcepts.Model.Decode
import CodeConcepts.Model.Dependencies
import CodeConcepts.Model.Encode
import CodeConcepts.Model.Exports
import CodeConcepts.Model.Passes
import CodeConcepts.Model.Unify
import CodeConcepts.Model.Violation
import CodeConcepts.Number.Double
import CodeConcepts.Number.Layout
import CodeConcepts.Number.Numeral
import CodeConcepts.Number.Shortest
import CodeConcepts.QName
import CodeConcepts.Run.Arguments
import CodeConcepts.Run.Command
import CodeConcepts.Run.Extraction
import CodeConcepts.Run.Program
import CodeConcepts.Run.Sources
import CodeConcepts.Run.Summary
import CodeConcepts.Scope.Allocation
import CodeConcepts.Scope.Analysis
import CodeConcepts.Scope.Binding
import CodeConcepts.Scope.Lookup
import CodeConcepts.Scope.Pattern
import CodeConcepts.Syntax.Cursor
import CodeConcepts.Syntax.Node
import CodeConcepts.Syntax.Rows
import CodeConcepts.Syntax.Tree
import CodeConcepts.Text.Affix
import CodeConcepts.Text.Blank
import CodeConcepts.Text.Quoted
import CodeConcepts.Text.Segments
import CodeConcepts.Text.Visible
import CodeConcepts.Typing.Numbers
import CodeConcepts.Typing.Types
import CodeConcepts.Typing.Values
import CodeConcepts.Yaml.Cursor
import CodeConcepts.Yaml.Node
import CodeConcepts.Yaml.Scalar
import CodeConcepts.Yaml.Token
import CodeConcepts.Proofs.ByteOrder
import CodeConcepts.Proofs.Tally
import CodeConcepts.Proofs.Aggregation
import CodeConcepts.Proofs.NameVisits
import CodeConcepts.Proofs.StarSearch
import CodeConcepts.Proofs.ExportResolution
import CodeConcepts.Proofs.LookupSteps
import CodeConcepts.Proofs.DepthCheck
import CodeConcepts.Proofs.WalkSteps
import CodeConcepts.Proofs.RecordNames
import CodeConcepts.Proofs.Merging
import CodeConcepts.Proofs.Completion
import CodeConcepts.Proofs.ModuleDependencies
import CodeConcepts.Proofs.ModulePaths
import CodeConcepts.Proofs.ScopeNames
import CodeConcepts.Proofs.Enumeration
import CodeConcepts.Proofs.TestFiles
import CodeConcepts.Proofs.Collisions
import CodeConcepts.Proofs.MergeOrder
import CodeConcepts.Proofs.Rebasing
import CodeConcepts.Proofs.Renaming
import CodeConcepts.Proofs.Accounting
import CodeConcepts.Proofs.Unification
import CodeConcepts.Proofs.JsonMembers
import CodeConcepts.Proofs.JsonText
import CodeConcepts.Proofs.Encoding
import CodeConcepts.Proofs.ModelText
import CodeConcepts.Proofs.Allocation
import CodeConcepts.Proofs.Shape
import CodeConcepts.Proofs.DistinctNames
import CodeConcepts.Proofs.DistinctRecords
import CodeConcepts.Proofs.Coverage
import CodeConcepts.Proofs.Bindings
import CodeConcepts.Proofs.Recording
import CodeConcepts.Proofs.ReferenceTargets
import CodeConcepts.Proofs.MemberLists
import CodeConcepts.Proofs.DependencySources
import CodeConcepts.Proofs.JsonNesting
import CodeConcepts.Proofs.EncodingDepth
import CodeConcepts.Proofs.TypingForms
import CodeConcepts.Proofs.Nesting
import CodeConcepts.Proofs.RecordNesting
import CodeConcepts.Proofs.ReadingBack
import CodeConcepts.Proofs.Erasure
import CodeConcepts.Proofs.TypingErasure
import CodeConcepts.Proofs.ScopeErasure
import CodeConcepts.Proofs.RecordErasure
import CodeConcepts.Proofs.Comments
import CodeConcepts.Proofs.FilewiseUnification
import CodeConcepts.Proofs.AliasChains
import CodeConcepts.Proofs.Attribution
import CodeConcepts.Proofs.SignatureEdges
import CodeConcepts.Proofs.LexicalNames
import CodeConcepts.Proofs.StatementPaths
import CodeConcepts.Proofs.ImportBindings
import CodeConcepts.Proofs.OverloadSets
import CodeConcepts.Proofs.ExportSites
import CodeConcepts.Proofs.Shadowing
import CodeConcepts.Proofs.NamespaceMembers
import CodeConcepts.Proofs.JsonWords
import CodeConcepts.Proofs.RelaxedJson
import CodeConcepts.Proofs.ModuleSpecifiers
import CodeConcepts.Proofs.GlobMatching
import CodeConcepts.Proofs.DirectoryEntries
import CodeConcepts.Proofs.BigIntegers
import CodeConcepts.Proofs.TypeNameEdges
import CodeConcepts.Proofs.ReturnInference
import CodeConcepts.Proofs.NameParts
import CodeConcepts.Proofs.NormalPaths
import CodeConcepts.Proofs.Catalogues
