import StackCalc.Main
import StackCalc.Proofs.Compilation
import StackCalc.Proofs.Forest
import StackCalc.Proofs.Tracing
import StackCalc.Proofs.Depth
import StackCalc.Proofs.Fusion
import StackCalc.Proofs.Folding
import StackCalc.Proofs.FoldingDraft
import StackCalc.Proofs.Transparency
import StackCalc.Proofs.Streams
import StackCalc.Proofs.Parsing
import StackCalc.Proofs.Rounded
import StackCalc.Proofs.Grammar
import StackCalc.Proofs.Extremes
import StackCalc.Proofs.Numerals
import StackCalc.Proofs.Figures
import StackCalc.Proofs.ProgramText
import StackCalc.Proofs.Lines
import StackCalc.Proofs.Preservation
import StackCalc.Proofs.Scanning
import StackCalc.Proofs.Values
import StackCalc.Proofs.Layout
import StackCalc.Proofs.Nesting
import StackCalc.Proofs.SourceText
import StackCalc.Proofs.WellFormed
import StackCalc.Proofs.Levels
import StackCalc.Proofs.Reloading
import StackCalc.Proofs.Exactness
import StackCalc.Proofs.Producers
import StackCalc.Proofs.Merging
import StackCalc.Proofs.Runs
import StackCalc.Proofs.NormalForm
import StackCalc.Proofs.Convergence
import StackCalc.Proofs.Flattening
import StackCalc.Proofs.LeftNested
import StackCalc.Proofs.Joining
import StackCalc.Proofs.Nearest
import StackCalc.Proofs.Canonical
import StackCalc.Proofs.Lookahead
import StackCalc.Proofs.DisplayText
import StackCalc.Proofs.Outline
import StackCalc.Proofs.Ledger
import StackCalc.Proofs.Revisions
import StackCalc.Proofs.Arguments
import StackCalc.Proofs.Omission
import StackCalc.Proofs.Commands
