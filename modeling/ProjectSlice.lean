import ProjectSlice.Text.Basic
import ProjectSlice.Text.Word
import ProjectSlice.Text.Search
import ProjectSlice.RelativePath
import ProjectSlice.Path
import ProjectSlice.Json.Printer
import ProjectSlice.Json.Parser
import ProjectSlice.Reference.Extract
import ProjectSlice.Include.Extract
import ProjectSlice.Naming.Convention
import ProjectSlice.Naming.Declaration
import ProjectSlice.ClassIndex
import ProjectSlice.FileTree.Listing
import ProjectSlice.FileTree.Edit
import ProjectSlice.Project
import ProjectSlice.Slice
import ProjectSlice.Report
import ProjectSlice.Toml.Scalar
import ProjectSlice.Toml.Document
import ProjectSlice.Session
import ProjectSlice.Main
import ProjectSlice.Proofs.FirstOccurrence
import ProjectSlice.Proofs.Dependency
import ProjectSlice.Proofs.Slice
import ProjectSlice.Proofs.Extraction
import ProjectSlice.Proofs.FileTree.Listing
import ProjectSlice.Proofs.FileTree.Lookup
import ProjectSlice.Proofs.Utf8.Ascii
import ProjectSlice.Proofs.Scan
import ProjectSlice.Proofs.ClassIndex
import ProjectSlice.Proofs.Session
import ProjectSlice.Proofs.Grounding
import ProjectSlice.Proofs.RelativePath
import ProjectSlice.Proofs.Path
import ProjectSlice.Proofs.Containment
import ProjectSlice.Proofs.Families
import ProjectSlice.Proofs.Words
import ProjectSlice.Proofs.Search
import ProjectSlice.Proofs.Import
import ProjectSlice.Proofs.Instantiation
import ProjectSlice.Proofs.Naming
import ProjectSlice.Proofs.Reach
import ProjectSlice.Proofs.Json.Scalar
import ProjectSlice.Proofs.Json.RoundTrip
import ProjectSlice.Proofs.Report
import ProjectSlice.Proofs.Lines
import ProjectSlice.Proofs.Include
import ProjectSlice.Proofs.Manifest
import ProjectSlice.Proofs.FileTree.Shape
import ProjectSlice.Proofs.HeadLines
import ProjectSlice.Proofs.FileTree.Position
import ProjectSlice.Proofs.FileTree.Walk
import ProjectSlice.Proofs.Utf8.RoundTrip
import ProjectSlice.Proofs.Handle
import ProjectSlice.Proofs.IncludeListing
import ProjectSlice.Proofs.Continuation
import ProjectSlice.Proofs.Command.Arguments
import ProjectSlice.Proofs.Command.Outcome
import ProjectSlice.Proofs.IncludeFlag
import ProjectSlice.Proofs.Edges
import ProjectSlice.Proofs.Margins
import ProjectSlice.Proofs.Layout
import ProjectSlice.Proofs.IncludeForm
import ProjectSlice.Proofs.Join
import ProjectSlice.Proofs.Escape
import ProjectSlice.Proofs.Spelling
import ProjectSlice.Proofs.Layers
import ProjectSlice.Proofs.Statement
import ProjectSlice.Proofs.Anchor
import ProjectSlice.Proofs.FileTree.Names
import ProjectSlice.Proofs.Literal
import ProjectSlice.Proofs.Pieces
import ProjectSlice.Proofs.Readings
import ProjectSlice.Proofs.ClassWords
import ProjectSlice.Proofs.ParameterTypes
import ProjectSlice.Proofs.InterfaceList
import ProjectSlice.Proofs.Provenance
import ProjectSlice.Proofs.Precedence
import ProjectSlice.Proofs.Readers
import ProjectSlice.Proofs.Namespaced
import ProjectSlice.Proofs.NormalForm
import ProjectSlice.Proofs.Surplus
