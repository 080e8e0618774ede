import Bracketing.Main
import Bracketing.Script.Run
import Bracketing.Proofs.Tree.Acyclic
import Bracketing.Proofs.Path.Indices
import Bracketing.Proofs.Path.Trail
import Bracketing.Proofs.Path.Enumerate
import Bracketing.Proofs.Path.Restore
import Bracketing.Proofs.Path.Step
import Bracketing.Proofs.Path.Record
import Bracketing.Proofs.Path.Exit
import Bracketing.Proofs.Path.WalkOrder
import Bracketing.Proofs.Verdict.Answer
import Bracketing.Proofs.Verdict.Leading
import Bracketing.Proofs.Path.Walked
import Bracketing.Proofs.Verdict.Opening
import Bracketing.Proofs.Printing.Grammar
import Bracketing.Proofs.Printing.Reader
import Bracketing.Proofs.Printing.Printer
import Bracketing.Proofs.Printing.Place
import Bracketing.Proofs.Printing.Slot
import Bracketing.Proofs.Printing.Faithful
import Bracketing.Proofs.Verdict.Enclosing
import Bracketing.Proofs.Verdict.Unbroken
import Bracketing.Proofs.Document.Loaded
import Bracketing.Proofs.Path.Inspection
import Bracketing.Proofs.Printing.TypePrinter
import Bracketing.Proofs.Path.Frames
import Bracketing.Proofs.Path.Starts
import Bracketing.Proofs.Source.Order
import Bracketing.Proofs.Tree.TokenRange
import Bracketing.Proofs.Path.Neighbours
import Bracketing.Proofs.Document.Condition
import Bracketing.Proofs.Document.Faults
import Bracketing.Proofs.Tree.Sightings
import Bracketing.Proofs.Document.Settled
import Bracketing.Proofs.Document.Shown
import Bracketing.Proofs.Document.Sound
import Bracketing.Proofs.Verdict.Chain
import Bracketing.Proofs.Document.Positions
import Bracketing.Proofs.Tree.Enclosed
import Bracketing.Proofs.Verdict.Explicit
import Bracketing.Proofs.Verdict.FixedPoint
import Bracketing.Proofs.Printing.OperandReader
import Bracketing.Proofs.Printing.OperandPrinter
import Bracketing.Proofs.Path.Elements
import Bracketing.Proofs.Path.Replay
import Bracketing.Proofs.Tree.Validity
import Bracketing.Proofs.Printing.Tiers
import Bracketing.Proofs.Printing.Needed
import Bracketing.Proofs.Report.Tour
import Bracketing.Proofs.Tree.Endless
import Bracketing.Proofs.Verdict.Endless
import Bracketing.Proofs.Report.Accessor
import Bracketing.Proofs.Report.Parens
import Bracketing.Proofs.Tree.Remarks
import Bracketing.Proofs.Verdict.Marking
import Bracketing.Proofs.Tree.Search
import Bracketing.Proofs.Tree.Fields
import Bracketing.Proofs.Verdict.Callee
