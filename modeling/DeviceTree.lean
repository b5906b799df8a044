import DeviceTree.Binding.Basic
import DeviceTree.Binding.Catalog
import DeviceTree.Binding.Document
import DeviceTree.Binding.Loader
import DeviceTree.Board
import DeviceTree.Bytes
import DeviceTree.Command.Basic
import DeviceTree.Command.Describe
import DeviceTree.Command.Flags
import DeviceTree.Command.Needs
import DeviceTree.Command.Open
import DeviceTree.Command.Run
import DeviceTree.Config.Basic
import DeviceTree.Diagnostic
import DeviceTree.Disk
import DeviceTree.Expr.Basic
import DeviceTree.Expr.Decimal
import DeviceTree.Expr.Parser
import DeviceTree.Expr.Suffix
import DeviceTree.Expr.Token
import DeviceTree.Glob
import DeviceTree.Inspector.Graph
import DeviceTree.Inspector.Page
import DeviceTree.Inspector.State
import DeviceTree.Json.Basic
import DeviceTree.Json.Decode
import DeviceTree.Json.Number
import DeviceTree.Json.Parser
import DeviceTree.Json.Printer
import DeviceTree.Log
import DeviceTree.Main
import DeviceTree.Path
import DeviceTree.Position
import DeviceTree.Proofs.Acceptance
import DeviceTree.Proofs.Arrays
import DeviceTree.Proofs.Blocks
import DeviceTree.Proofs.CellNames
import DeviceTree.Proofs.Cells
import DeviceTree.Proofs.Checked.Agreement
import DeviceTree.Proofs.Checked.Lines
import DeviceTree.Proofs.Checked.Parser
import DeviceTree.Proofs.Checked.Scanner
import DeviceTree.Proofs.Checked.Totality
import DeviceTree.Proofs.Cycles
import DeviceTree.Proofs.Declarations
import DeviceTree.Proofs.Deletion
import DeviceTree.Proofs.Drawings
import DeviceTree.Proofs.Entries
import DeviceTree.Proofs.Expansion
import DeviceTree.Proofs.Expressions
import DeviceTree.Proofs.FlashMap
import DeviceTree.Proofs.Grammar
import DeviceTree.Proofs.Groups
import DeviceTree.Proofs.Inheritance
import DeviceTree.Proofs.Inlining
import DeviceTree.Proofs.Lexing
import DeviceTree.Proofs.Literals
import DeviceTree.Proofs.Merging
import DeviceTree.Proofs.Moves
import DeviceTree.Proofs.Naming
import DeviceTree.Proofs.Nesting
import DeviceTree.Proofs.Numerals
import DeviceTree.Proofs.Offsets
import DeviceTree.Proofs.Origins
import DeviceTree.Proofs.Orphans
import DeviceTree.Proofs.Outline
import DeviceTree.Proofs.Overlaps
import DeviceTree.Proofs.Ownership
import DeviceTree.Proofs.Paths
import DeviceTree.Proofs.Pins
import DeviceTree.Proofs.Places
import DeviceTree.Proofs.Properties
import DeviceTree.Proofs.Queries
import DeviceTree.Proofs.Quoting
import DeviceTree.Proofs.Reading
import DeviceTree.Proofs.Recovery
import DeviceTree.Proofs.References
import DeviceTree.Proofs.RegisterBlocks
import DeviceTree.Proofs.Registers
import DeviceTree.Proofs.Registration
import DeviceTree.Proofs.Resolution
import DeviceTree.Proofs.Roundtrip
import DeviceTree.Proofs.Server.Framing
import DeviceTree.Proofs.Server.Publication
import DeviceTree.Proofs.Server.Responses
import DeviceTree.Proofs.Server.Service
import DeviceTree.Proofs.Session.Arrival
import DeviceTree.Proofs.Session.Bursts
import DeviceTree.Proofs.Session.Contexts
import DeviceTree.Proofs.Session.Convergence
import DeviceTree.Proofs.Session.Deferral
import DeviceTree.Proofs.Session.Edits
import DeviceTree.Proofs.Session.Failure
import DeviceTree.Proofs.Session.Files
import DeviceTree.Proofs.Session.Freshness
import DeviceTree.Proofs.Session.Growth
import DeviceTree.Proofs.Session.Isolation
import DeviceTree.Proofs.Session.Loading
import DeviceTree.Proofs.Session.Outcomes
import DeviceTree.Proofs.Session.Overtaking
import DeviceTree.Proofs.Session.Rest
import DeviceTree.Proofs.Session.Retention
import DeviceTree.Proofs.Session.Rounds
import DeviceTree.Proofs.Session.Serving
import DeviceTree.Proofs.Session.Shadows
import DeviceTree.Proofs.Session.Steps
import DeviceTree.Proofs.Spans
import DeviceTree.Proofs.Spelling
import DeviceTree.Proofs.Statements
import DeviceTree.Proofs.Store
import DeviceTree.Proofs.Strings
import DeviceTree.Proofs.Suffixes
import DeviceTree.Proofs.Taking
import DeviceTree.Proofs.Tiling
import DeviceTree.Proofs.Tokens
import DeviceTree.Proofs.Traversal
import DeviceTree.Proofs.Wording
import DeviceTree.Server.Frame
import DeviceTree.Server.Handle
import DeviceTree.Server.Hover
import DeviceTree.Server.Message
import DeviceTree.Server.Navigate
import DeviceTree.Server.Publish
import DeviceTree.Server.Start
import DeviceTree.Server.State
import DeviceTree.Session.Run
import DeviceTree.Session.State
import DeviceTree.Session.Task
import DeviceTree.Source.Document
import DeviceTree.Source.File
import DeviceTree.Source.Lexer
import DeviceTree.Source.Parser
import DeviceTree.Source.Problem
import DeviceTree.Source.Token
import DeviceTree.Text.Printable
import DeviceTree.Text.Quoted
import DeviceTree.Text.Rune
import DeviceTree.Toml.Basic
import DeviceTree.Toml.Table
import DeviceTree.Tree.Check
import DeviceTree.Tree.Flash
import DeviceTree.Tree.Merge
import DeviceTree.Tree.Pins
import DeviceTree.Tree.Printer
import DeviceTree.Tree.Query
import DeviceTree.Tree.Reference
import DeviceTree.Tree.Registers
import DeviceTree.Tree.Store
import DeviceTree.Uri
import DeviceTree.Yaml.Basic
import DeviceTree.Yaml.Parser
import DeviceTree.Yaml.Scalar
