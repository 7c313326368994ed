/-!
# Stages of normalization

The forms that a formula passes through on its way to clauses.

## Main definitions

* `Stage`, `Stage.all`: the stages, and all of them in order
* `Stage.name`, `Stage.ofName?`: a stage's name, and the name read back
-/

namespace ClausalForm

/-- A form that a formula takes during normalization. -/
inductive Stage where
  /-- The formula as given. -/
  | given
  /-- Without implications and biconditionals. -/
  | implicationFree
  /-- With negations on atoms only. -/
  | negationPushed
  /-- Without chains of negations. -/
  | doubleNegationFree
  /-- With a name of its own for every binder. -/
  | standardized
  /-- With all quantifiers in front. -/
  | prenex
  /-- Without existential quantifiers. -/
  | skolemized
  /-- Without the leading universal quantifiers. -/
  | quantifierFree
  /-- A conjunction of disjunctions. -/
  | cnf
  /-- The matrix of the prenex form as a conjunction of disjunctions. -/
  | cnfPrenex
  /-- The matrix of the prenex form as a disjunction of conjunctions. -/
  | dnfPrenex
deriving DecidableEq, Repr, Inhabited

namespace Stage

/-- Every stage, in the order in which normalization reaches them. -/
def all : List Stage :=
  [given, implicationFree, negationPushed, doubleNegationFree, standardized, prenex,
    skolemized, quantifierFree, cnf, cnfPrenex, dnfPrenex]

/-- The name of a stage. -/
def name : Stage → String
  | given => "original"
  | implicationFree => "implication-free"
  | negationPushed => "negation-pushed"
  | doubleNegationFree => "double-negation-free"
  | standardized => "standardized"
  | prenex => "prenex"
  | skolemized => "skolemized"
  | quantifierFree => "quantifier-free"
  | cnf => "cnf"
  | cnfPrenex => "cnf-prenex"
  | dnfPrenex => "dnf-prenex"

/-- The stage with the given name. -/
def ofName? (s : String) : Option Stage :=
  all.find? fun stage => stage.name == s

theorem mem_all (stage : Stage) : stage ∈ all := by cases stage <;> decide

theorem ofName?_name (stage : Stage) : ofName? stage.name = some stage := by
  cases stage <;> decide

/-- The position of a stage in the order, counted from zero. -/
def index (stage : Stage) : Nat :=
  all.idxOf stage

end Stage

end ClausalForm
