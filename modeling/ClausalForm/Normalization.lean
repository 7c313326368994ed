import ClausalForm.Clause
import ClausalForm.NormalForm.Apart
import ClausalForm.NormalForm.Distribution
import ClausalForm.NormalForm.ImplicationFree
import ClausalForm.NormalForm.Negation
import ClausalForm.NormalForm.Skolem
import ClausalForm.Program

/-!
# Normalization

A formula taken through all stages to its clauses, and the same for a statement of a text.

## Main definitions

* `Normalization`: the formula at every stage
* `Normalization.pass`: a pass by itself
* `Formula.normalize`: the stages of a formula
* `normalizeText`: the stages of a statement of a text
* `Failure`: the ways in which this fails
-/

namespace ClausalForm

/-- A formula at every stage. -/
structure Normalization where
  given : Formula
  implicationFree : Formula
  negationPushed : Formula
  doubleNegationFree : Formula
  standardized : Formula
  prenex : Formula
  skolemized : Formula
  quantifierFree : Formula
  cnf : Formula
  cnfPrenex : Formula
  dnfPrenex : Formula
deriving DecidableEq, Repr

namespace Normalization

/-- The formula at a stage. -/
def formula (r : Normalization) : Stage → Formula
  | .given => r.given
  | .implicationFree => r.implicationFree
  | .negationPushed => r.negationPushed
  | .doubleNegationFree => r.doubleNegationFree
  | .standardized => r.standardized
  | .prenex => r.prenex
  | .skolemized => r.skolemized
  | .quantifierFree => r.quantifierFree
  | .cnf => r.cnf
  | .cnfPrenex => r.cnfPrenex
  | .dnfPrenex => r.dnfPrenex

/-- Every stage with its formula, in order. -/
def stages (r : Normalization) : List (Stage × Formula) :=
  Stage.all.map fun stage => (stage, r.formula stage)

/-- The clauses of the conjunctive form. -/
def clauses (r : Normalization) : List Formula := r.cnf.clauses

/-- The reports on the clauses. -/
def horn (r : Normalization) : List HornReport := r.clauses.map .ofClause

/-- The pass that leads to a stage, on the formula at the stage that it starts from. -/
def pass (limits : Limits) (r : Normalization) : Stage → Journal PassError Formula
  | .given => pure r.given
  | .implicationFree => .ofExcept (r.given.eliminateImplication limits)
  | .negationPushed => .ofExcept (r.implicationFree.pushNegation limits)
  | .doubleNegationFree => .ofExcept (r.negationPushed.removeDoubleNegation limits)
  | .standardized => r.doubleNegationFree.standardize limits
  | .prenex => .ofExcept (r.standardized.hoistQuantifiers limits)
  | .skolemized => r.prenex.skolemize limits
  | .quantifierFree => pure r.skolemized.dropQuantifiers
  | .cnf => .ofExcept (r.quantifierFree.distributeToCnf limits)
  | .cnfPrenex => .ofExcept (r.prenex.toConjunctivePrenex limits)
  | .dnfPrenex => .ofExcept (r.prenex.toDisjunctivePrenex limits)

end Normalization

/-- Reports that normalization has reached a stage. -/
def reach (stage : Stage) (x : Journal PassError Formula) : Journal PassError Formula := do
  let f ← x
  .report (.reached stage f)
  return f

/-- A formula taken through all stages. -/
def Formula.normalize (limits : Limits) (f : Formula) : Journal PassError Normalization := do
  let given ← reach .given (pure f)
  let implicationFree ← reach .implicationFree (.ofExcept (given.eliminateImplication limits))
  let negationPushed ← reach .negationPushed (.ofExcept (implicationFree.pushNegation limits))
  let doubleNegationFree ←
    reach .doubleNegationFree (.ofExcept (negationPushed.removeDoubleNegation limits))
  let standardized ← reach .standardized (doubleNegationFree.standardize limits)
  let prenex ← reach .prenex (.ofExcept (standardized.hoistQuantifiers limits))
  let skolemized ← reach .skolemized (prenex.skolemize limits)
  let quantifierFree ← reach .quantifierFree (pure skolemized.dropQuantifiers)
  let cnf ← reach .cnf (.ofExcept (quantifierFree.distributeToCnf limits))
  let cnfPrenex ← reach .cnfPrenex (.ofExcept (prenex.toConjunctivePrenex limits))
  let dnfPrenex ← reach .dnfPrenex (.ofExcept (prenex.toDisjunctivePrenex limits))
  let r : Normalization :=
    { given, implicationFree, negationPushed, doubleNegationFree, standardized, prenex,
      skolemized, quantifierFree, cnf, cnfPrenex, dnfPrenex }
  .report (.counted r.clauses.length (r.horn.countP HornReport.isHorn))
  return r

/-- The ways in which normalizing a text fails. -/
inductive Failure where
  /-- The text has a lexical fault. -/
  | lexical (fault : LexFault)
  /-- The text has no statement with the number asked for. -/
  | noFormula
  /-- A pass failed. -/
  | pass (e : PassError)
deriving DecidableEq, Repr

/-- The wording of a failure. -/
def Failure.message : Failure → String
  | lexical fault => fault.message
  | noFormula => "no formula found in input"
  | pass e => "transformation error: " ++ e.message

/-- How a text is normalized. -/
structure NormalizeOptions where
  /-- The nesting levels that a statement may have. -/
  nesting : Nat := 100
  /-- The bounds of the passes. -/
  limits : Limits := {}
  /-- The number of the statement to normalize, counted from zero. -/
  statement : Nat := 0
deriving DecidableEq, Repr

/-- The program of a text, or the lexical fault as a failure. -/
def parseText (nesting : Nat) (text : String) : Journal Failure Program :=
  (Program.ofText nesting text).mapError .lexical

/-- The program of a text, and the chosen one of its statements taken through all stages. -/
def normalizeText (options : NormalizeOptions) (text : String) :
    Journal Failure (Program × Normalization) := do
  let program ← parseText options.nesting text
  match program.statements[options.statement]? with
  | none => .ofExcept (.error .noFormula)
  | some f =>
    .report (.selected options.statement f)
    let r ← (f.normalize options.limits).mapError .pass
    return (program, r)

end ClausalForm
