/-!
# Connectives and quantifiers

The binary connectives and the two quantifiers of first-order formulas, each with its written
symbol, its binding strength and its dual.

## Main definitions

* `Connective`: conjunction, disjunction, implication and biconditional
* `Quantifier`: universal and existential
* `Connective.ofSymbol?`, `Quantifier.ofSymbol?`: the symbol read back
-/

namespace ClausalForm

/-- A binary connective. -/
inductive Connective where
  /-- Conjunction, written `\land`. -/
  | conj
  /-- Disjunction, written `\lor`. -/
  | disj
  /-- Implication, written `\implies`. -/
  | implies
  /-- Biconditional, written `\iff`. -/
  | iff
deriving DecidableEq, Repr, Inhabited

namespace Connective

/-- Every connective, from the tightest to the loosest. -/
def all : List Connective := [conj, disj, implies, iff]

/-- The written symbol of a connective. -/
def symbol : Connective → String
  | conj => "\\land"
  | disj => "\\lor"
  | implies => "\\implies"
  | iff => "\\iff"

/-- The connective with the given symbol. -/
def ofSymbol? (s : String) : Option Connective :=
  all.find? fun op => op.symbol == s

/-- The binding strength: a higher number binds tighter. -/
def precedence : Connective → Nat
  | conj => 4
  | disj => 3
  | implies => 2
  | iff => 1

/-- Whether a chain of this connective groups to the right, as implications and biconditionals
do. Conjunctions and disjunctions group to the left. -/
def isRightAssociative : Connective → Bool
  | conj | disj => false
  | implies | iff => true

/-- The least strength of a connective that may stand bare at the root of the right operand. -/
def rightStrength (op : Connective) : Nat :=
  if op.isRightAssociative then op.precedence else op.precedence + 1

/-- Conjunction and disjunction exchanged; the other connectives have no dual and stay. -/
def dual : Connective → Connective
  | conj => disj
  | disj => conj
  | implies => implies
  | iff => iff

@[simp] theorem dual_dual (op : Connective) : op.dual.dual = op := by cases op <;> rfl

theorem mem_all (op : Connective) : op ∈ all := by cases op <;> decide

theorem ofSymbol?_symbol (op : Connective) : ofSymbol? op.symbol = some op := by
  cases op <;> decide

end Connective

/-- A quantifier. -/
inductive Quantifier where
  /-- The universal quantifier, written `\forall`. -/
  | universal
  /-- The existential quantifier, written `\exists`. -/
  | existential
deriving DecidableEq, Repr, Inhabited

namespace Quantifier

/-- Both quantifiers. -/
def all : List Quantifier := [universal, existential]

/-- The written symbol of a quantifier. -/
def symbol : Quantifier → String
  | universal => "\\forall"
  | existential => "\\exists"

/-- The quantifier with the given symbol. -/
def ofSymbol? (s : String) : Option Quantifier :=
  all.find? fun q => q.symbol == s

/-- Both quantifiers bind tighter than every connective. -/
def precedence : Nat := 6

/-- The universal and the existential quantifier exchanged. -/
def dual : Quantifier → Quantifier
  | universal => existential
  | existential => universal

@[simp] theorem dual_dual (q : Quantifier) : q.dual.dual = q := by cases q <;> rfl

theorem ofSymbol?_symbol (q : Quantifier) : ofSymbol? q.symbol = some q := by
  cases q <;> decide

end Quantifier

theorem Connective.precedence_lt_quantifier (op : Connective) :
    op.precedence < Quantifier.precedence := by
  cases op <;> decide

end ClausalForm
