import NetScribe.Number.Rounding
import NetScribe.Number.Binary64
import NetScribe.Number.Fixed
import NetScribe.Number.Shortest
import NetScribe.Number.Scaled
import NetScribe.Text.Lines
import NetScribe.Text.Unprintable
import NetScribe.Text.Quoted
import NetScribe.Path.Basic
import NetScribe.Path.Name
import NetScribe.Resource.Dataset
import NetScribe.Resource.Store
import NetScribe.Tree.NodePath
import NetScribe.Tree.Node
import NetScribe.Tree.Visitor
import NetScribe.Json.Fault
import NetScribe.Json.Value
import NetScribe.Json.Strings
import NetScribe.Json.Numbers
import NetScribe.Json.Read
import NetScribe.Json.Skip
import NetScribe.Diagnostic
import NetScribe.Failure
import NetScribe.Survey.Basic
import NetScribe.Survey.Check
import NetScribe.Java.Literal
import NetScribe.Java.Page
import NetScribe.Java.Imports
import NetScribe.Java.Rules
import NetScribe.Java.Emit
import NetScribe.Compile
import NetScribe.Document.Basic
import NetScribe.Document.Form
import NetScribe.Document.Nodes
import NetScribe.Document.Read
import NetScribe.Files.Fault
import NetScribe.Files.Tree
import NetScribe.Files.Disk
import NetScribe.Files.Operations
import NetScribe.Run.Help
import NetScribe.Run.Command
import NetScribe.Run.Elapsed
import NetScribe.Run.Generate
import NetScribe.Run.Fixtures
import NetScribe.Main
import NetScribe.Proofs.Places
import NetScribe.Proofs.Script
import NetScribe.Proofs.Depths
import NetScribe.Proofs.Layout
import NetScribe.Proofs.Survey
import NetScribe.Proofs.Requests
import NetScribe.Proofs.Texts
import NetScribe.Proofs.Warnings
import NetScribe.Proofs.Imports
import NetScribe.Proofs.Terminators
import NetScribe.Proofs.Numerals
import NetScribe.Proofs.Values
import NetScribe.Proofs.Documents
import NetScribe.Proofs.Spellings
import NetScribe.Proofs.FilePaths
import NetScribe.Proofs.FileTrees
import NetScribe.Proofs.Disks
import NetScribe.Proofs.Walks
import NetScribe.Proofs.Histories
import NetScribe.Proofs.Dependence
import NetScribe.Proofs.Calls
import NetScribe.Proofs.Respelling
import NetScribe.Proofs.Directories
import NetScribe.Proofs.Placement
import NetScribe.Proofs.FrontEnds
import NetScribe.Proofs.Expectations
import NetScribe.Proofs.Refreshing
import NetScribe.Proofs.Decimals
import NetScribe.Proofs.Batches
import NetScribe.Proofs.Literals
import NetScribe.Proofs.Skipping
import NetScribe.Proofs.Decoding
import NetScribe.Proofs.Members
import NetScribe.Proofs.Reordering
import NetScribe.Proofs.Quotations
import NetScribe.Proofs.Rectangles
import NetScribe.Proofs.Surveyors
import NetScribe.Proofs.Nearest
import NetScribe.Proofs.Rereading
import NetScribe.Proofs.Levels
import NetScribe.Proofs.Brackets
import NetScribe.Proofs.Colours
