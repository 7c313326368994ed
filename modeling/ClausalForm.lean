import ClausalForm.Main
import ClausalForm.Proofs.Normalization.Clauses
import ClausalForm.Proofs.Normalization.Satisfiability
import ClausalForm.Proofs.Normalization.Closure
import ClausalForm.Proofs.Formula.Written
import ClausalForm.Proofs.Token.Scanning
import ClausalForm.Proofs.Program.Reading
import ClausalForm.Proofs.Program.RoundTrip
import ClausalForm.Proofs.NormalForm.Junction
import ClausalForm.Proofs.Normalization.Shape
import ClausalForm.Proofs.NormalForm.Replacement
import ClausalForm.Proofs.Normalization.Branches
import ClausalForm.Proofs.Normalization.Freshness
import ClausalForm.Proofs.Program.Grammar
import ClausalForm.Proofs.Program.Parsing
import ClausalForm.Proofs.Program.Height
import ClausalForm.Proofs.Token.Layout
import ClausalForm.Proofs.NormalForm.WiderLimits
import ClausalForm.Proofs.Normalization.WiderLimits
import ClausalForm.Proofs.Token.Spacing
import ClausalForm.Proofs.Program.Offsets
import ClausalForm.Proofs.Formula.Nameless
import ClausalForm.Proofs.Program.Rereading
import ClausalForm.Proofs.NormalForm.Renaming
import ClausalForm.Proofs.NormalForm.SkolemForm
import ClausalForm.Proofs.NormalForm.CrossProduct
import ClausalForm.Proofs.NormalForm.NegationForm
import ClausalForm.Proofs.NormalForm.FreshNames
import ClausalForm.Proofs.NormalForm.LevelLimits
import ClausalForm.Proofs.Normalization.FixedPoints
import ClausalForm.Proofs.Program.Conservation
import ClausalForm.Proofs.Program.Independence
import ClausalForm.Proofs.Program.Reader
import ClausalForm.Proofs.Token.Faults
import ClausalForm.Proofs.NormalForm.Hoisting
import ClausalForm.Proofs.NormalForm.NegationChains
import ClausalForm.Proofs.NormalForm.Operands
import ClausalForm.Proofs.Normalization.Reports
import ClausalForm.Proofs.Formula.Occurrences
import ClausalForm.Proofs.CommandLine.Outcome
