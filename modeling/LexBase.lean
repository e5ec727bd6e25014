import LexBase.Scan.Buffer
import LexBase.Scan.Script
import LexBase.Session
import LexBase.Proofs.Sizing
import LexBase.Proofs.Numeral.Rounding
import LexBase.Proofs.Sizing.Smallest
import LexBase.Proofs.Table.Probe
import LexBase.Proofs.Table.Insert
import LexBase.Proofs.Table.Removal
import LexBase.Proofs.Table.Occupancy
import LexBase.Proofs.Table.Rehash
import LexBase.Proofs.Table.Shift
import LexBase.Proofs.CodeMap.Valid
import LexBase.Proofs.CodeMap.Contents
import LexBase.Proofs.CodeMap.Iteration
import LexBase.Proofs.CodeMap.Evolution
import LexBase.Proofs.CodeMap.Layout
import LexBase.Proofs.CodeMap.Turnover
import LexBase.Proofs.CodeMap.Tidy
import LexBase.Proofs.Walker.Calls
import LexBase.Proofs.Walker.Outcome
import LexBase.Proofs.Walker.Standing
import LexBase.Proofs.Walker.Walks
import LexBase.Proofs.Walker.Underway
import LexBase.Proofs.Walker.Orderly
import LexBase.Proofs.Walker.Sweep
import LexBase.Proofs.CodeMap.Sound
import LexBase.Proofs.CodeMap.Growth
import LexBase.Proofs.CodeMap.Refinement
import LexBase.Proofs.CodeMap.Removal
import LexBase.Proofs.CodeMap.Views
import LexBase.Proofs.CodeMap.Retain
import LexBase.Proofs.CodeMap.Undo
import LexBase.Proofs.Session.Effect
import LexBase.Proofs.Session.Reachable
import LexBase.Proofs.Session.History
import LexBase.Proofs.Session.Walks
import LexBase.Proofs.Session.Tally
import LexBase.Proofs.Session.Recall
import LexBase.Proofs.Session.Failure
import LexBase.Proofs.Scan.Buffer
import LexBase.Proofs.Scan.View
import LexBase.Proofs.Scan.DoubleReversal
import LexBase.Proofs.Scan.Mirror
import LexBase.Proofs.Scan.Range
import LexBase.Proofs.Scan.Words
import LexBase.Proofs.Scan.Moves
import LexBase.Proofs.Scan.Loop
import LexBase.Proofs.Text.Cut
import LexBase.Proofs.Text.RoundTrip
import LexBase.Proofs.Scan.Pieces
