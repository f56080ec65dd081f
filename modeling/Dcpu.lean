import Dcpu.Main
import Dcpu.Proofs.Answer
import Dcpu.Proofs.DraftSteps
import Dcpu.Proofs.Refresh
import Dcpu.Proofs.Outcome
import Dcpu.Proofs.Rounds
import Dcpu.Proofs.Addresses
import Dcpu.Proofs.Evaluation
import Dcpu.Proofs.Scanning
import Dcpu.Proofs.Stability
import Dcpu.Proofs.FixedPoint
import Dcpu.Proofs.Equates
import Dcpu.Proofs.Diagnostics
import Dcpu.Proofs.Decoding
import Dcpu.Proofs.MachineCode
import Dcpu.Proofs.Variants
import Dcpu.Proofs.FirstPass
import Dcpu.Proofs.Shrinking
import Dcpu.Proofs.Convergence
import Dcpu.Proofs.Shortest
import Dcpu.Proofs.Branches
import Dcpu.Proofs.Names
import Dcpu.Proofs.Substitution
import Dcpu.Proofs.Terms
import Dcpu.Proofs.Padding
import Dcpu.Proofs.PaddedLayout
import Dcpu.Proofs.PaddedDraft
import Dcpu.Proofs.PaddedLines
import Dcpu.Proofs.Frames
import Dcpu.Proofs.CommonLines
import Dcpu.Proofs.Splicing
import Dcpu.Proofs.MacroCalls
import Dcpu.Proofs.Control
import Dcpu.Proofs.BlockEvents
import Dcpu.Proofs.DisabledBlocks
import Dcpu.Proofs.FlatLines
import Dcpu.Proofs.Bindings
import Dcpu.Proofs.Alignment
import Dcpu.Proofs.BlankLines
import Dcpu.Proofs.Chains
import Dcpu.Proofs.DataLines
import Dcpu.Proofs.References
import Dcpu.Proofs.LongForm
import Dcpu.Proofs.LineEntries
import Dcpu.Proofs.Walks
import Dcpu.Proofs.Matching
import Dcpu.Proofs.InstructionForms
import Dcpu.Proofs.IndexedOperands
import Dcpu.Proofs.ListingReports
import Dcpu.Proofs.Lookup
import Dcpu.Proofs.Numerals
import Dcpu.Proofs.Recursion
import Dcpu.Proofs.CleanLines
import Dcpu.Proofs.LinesToCome
import Dcpu.Proofs.CleanPrograms
import Dcpu.Proofs.Wrapping
import Dcpu.Proofs.PackedFiles
import Dcpu.Proofs.ByteOffsets
import Dcpu.Proofs.LetterCase
import Dcpu.Proofs.ByteEvaluation
import Dcpu.Proofs.OperatorSites
import Dcpu.Proofs.Separators
import Dcpu.Proofs.MatchRounds
