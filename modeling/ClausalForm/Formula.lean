import ClausalForm.Connective
import ClausalForm.Term

/-!
# Formulas

First-order formulas as plain trees, and the questions one asks of a tree: what its root is, which
subformulas it has, which quantifiers it starts with.

## Main definitions

* `Formula`: propositions, bare variables, negations, connectives and quantifiers
* `Formula.subformulas`: all subformulas in pre-order
* `Formula.quantifierPrefix`, `Formula.matrix`: the leading quantifiers and what follows them
* `Formula.variableNames`: every variable name that occurs or is bound
-/

namespace ClausalForm

/-- A first-order formula. -/
inductive Formula where
  /-- A proposition applied to arguments, perhaps to none. -/
  | prop (name : String) (args : List Term)
  /-- A variable that stands as a formula. -/
  | var (name : String)
  /-- A negation. -/
  | neg (operand : Formula)
  /-- Two formulas joined by a connective. -/
  | binary (op : Connective) (left right : Formula)
  /-- A quantifier that binds one variable in its body. -/
  | quant (q : Quantifier) (name : String) (body : Formula)
deriving DecidableEq, Repr, Inhabited

/-- A quantifier with the variable that it binds. -/
structure Binder where
  quantifier : Quantifier
  name : String
deriving DecidableEq, Repr, Inhabited

namespace Formula

/-- A term in the place of a formula: a variable stays a variable, an application becomes a
proposition of the same name and arguments. -/
def ofTerm : Term → Formula
  | .var x => var x
  | .app f args => prop f args

/-! ### The root of a formula -/

/-- Whether the formula is a proposition or a variable. -/
def isAtom : Formula → Bool
  | prop .. | var _ => true
  | _ => false

/-- Whether the formula is a negation. -/
def isNegation : Formula → Bool
  | neg _ => true
  | _ => false

/-- Whether the formula is an application of a connective. -/
def isBinary : Formula → Bool
  | binary .. => true
  | _ => false

/-- Whether the formula is an application of the connective `op`. -/
def isApplicationOf (op : Connective) : Formula → Bool
  | binary op' _ _ => op' == op
  | _ => false

/-- Whether the formula starts with a quantifier. -/
def isQuantified : Formula → Bool
  | quant .. => true
  | _ => false

/-! ### The tree of a formula -/

/-- The formula and all its subformulas in pre-order, left operands before right ones. -/
def subformulas : Formula → List Formula
  | f@(prop ..) | f@(var _) => [f]
  | f@(neg g) | f@(quant _ _ g) => f :: g.subformulas
  | f@(binary _ l r) => f :: (l.subformulas ++ r.subformulas)

/-- Whether no subformula is quantified. -/
def isQuantifierFree : Formula → Bool
  | prop .. | var _ => true
  | neg g => g.isQuantifierFree
  | binary _ l r => l.isQuantifierFree && r.isQuantifierFree
  | quant .. => false

theorem isQuantifierFree_eq_all (f : Formula) :
    f.isQuantifierFree = f.subformulas.all (!·.isQuantified) := by
  induction f with
  | prop | var => rfl
  | neg g ih | quant q x g ih => simp [isQuantifierFree, subformulas, isQuantified, ih]
  | binary op l r ihl ihr =>
    simp [isQuantifierFree, subformulas, isQuantified, ihl, ihr]

/-- The leading quantifiers, outermost first. -/
def quantifierPrefix : Formula → List Binder
  | quant q x g => ⟨q, x⟩ :: g.quantifierPrefix
  | _ => []

/-- What follows the leading quantifiers. -/
def matrix : Formula → Formula
  | quant _ _ g => g.matrix
  | f => f

/-- A formula under a list of quantifiers, the first of them outermost. -/
def quantify (binders : List Binder) (f : Formula) : Formula :=
  binders.foldr (fun b g => quant b.quantifier b.name g) f

theorem quantify_quantifierPrefix_matrix (f : Formula) :
    quantify f.quantifierPrefix f.matrix = f := by
  induction f with
  | quant q x g ih => simpa [quantify, quantifierPrefix, matrix] using ih
  | prop | var | neg | binary => rfl

/-! ### Names -/

/-- Every variable name that occurs in the formula or is bound in it, in pre-order, one entry for
each place. -/
def variableNames : Formula → List String
  | prop _ args => Term.varsOf args
  | var x => [x]
  | neg g => g.variableNames
  | binary _ l r => l.variableNames ++ r.variableNames
  | quant _ x g => x :: g.variableNames

end Formula

end ClausalForm
