import Netlist.Audit
import Netlist.Balance.Leaves
import Netlist.Balance.Rebuild
import Netlist.Balance.Tree
import Netlist.Circuit.Graph
import Netlist.Circuit.Node
import Netlist.Circuit.Opcode
import Netlist.Circuit.Operation
import Netlist.Circuit.Temporary
import Netlist.Component
import Netlist.Copies
import Netlist.Error
import Netlist.FileSystem.Basic
import Netlist.FileSystem.Path
import Netlist.Format.Parse
import Netlist.Format.Print
import Netlist.Format.Statement
import Netlist.Generator
import Netlist.Liveness
import Netlist.Main
import Netlist.Numeral
import Netlist.Pipeline.Context
import Netlist.Pipeline.Host
import Netlist.Pipeline.Pass
import Netlist.Pipeline.Registry
import Netlist.Pipeline.Stage
import Netlist.Proofs.Assignment
import Netlist.Proofs.Audit
import Netlist.Proofs.Balance
import Netlist.Proofs.Chains
import Netlist.Proofs.Command
import Netlist.Proofs.Component
import Netlist.Proofs.Connected
import Netlist.Proofs.Constants
import Netlist.Proofs.Copies
import Netlist.Proofs.DeadCode
import Netlist.Proofs.Depth
import Netlist.Proofs.Effects
import Netlist.Proofs.Faults
import Netlist.Proofs.Generated
import Netlist.Proofs.Grammar
import Netlist.Proofs.Index
import Netlist.Proofs.Invariant
import Netlist.Proofs.Leaves
import Netlist.Proofs.Legible
import Netlist.Proofs.LineOrder
import Netlist.Proofs.Live
import Netlist.Proofs.Liveness
import Netlist.Proofs.Locality
import Netlist.Proofs.Meaning
import Netlist.Proofs.Minting
import Netlist.Proofs.Numeral
import Netlist.Proofs.Optimize
import Netlist.Proofs.Order
import Netlist.Proofs.Outcome
import Netlist.Proofs.Outline
import Netlist.Proofs.Parse
import Netlist.Proofs.Pipeline
import Netlist.Proofs.Rebuild
import Netlist.Proofs.Redefinition
import Netlist.Proofs.Replacement
import Netlist.Proofs.RoundTrip
import Netlist.Proofs.Safe
import Netlist.Proofs.Search
import Netlist.Proofs.Settings
import Netlist.Proofs.Solutions
import Netlist.Proofs.Spacing
import Netlist.Proofs.Spelling
import Netlist.Proofs.Stated
import Netlist.Proofs.Statement
import Netlist.Proofs.Statistics
import Netlist.Proofs.Straight
import Netlist.Proofs.Temporary
import Netlist.Proofs.Tree
import Netlist.Proofs.Unfolding
import Netlist.Proofs.Walk
import Netlist.Proofs.Wellformed
import Netlist.Proofs.Widths
import Netlist.Proofs.Words
import Netlist.Proofs.Writability
import Netlist.Proofs.Writes
import Netlist.Random
import Netlist.Report.Cell
import Netlist.Report.Duration
import Netlist.Report.Log
import Netlist.Report.Statistics
import Netlist.Report.Table
import Netlist.Search
import Netlist.Settings
import Netlist.Text.Basic
import Netlist.Text.Blank
import Netlist.Text.CharClass
import Netlist.Text.Columns
import Netlist.Text.ControlSequence
import Netlist.Text.Printable
import Netlist.Text.Quoted
import Netlist.Text.Symbol
import Netlist.Tool.Flags
import Netlist.Tool.Generator
import Netlist.Tool.Optimizer
