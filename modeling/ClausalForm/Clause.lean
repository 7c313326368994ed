import ClausalForm.Formula.Rendering

/-!
# Clauses and their Horn kinds

A conjunction taken apart into clauses, a clause into literals, and the classification of a clause
by how many of its literals are negated.

## Main definitions

* `Formula.chain`: the operands of a chain of one connective
* `Formula.clauses`, `Formula.literals`: the chains of conjunctions and disjunctions
* `HornKind`, `HornKind.classify`: the kinds of clauses
* `HornReport`: a clause with its counts and its kind
-/

namespace ClausalForm

namespace Formula

/-- The operands of the chain of `op` at the root, from left to right, however the chain is
grouped. A formula that is no application of `op` is a chain of one. -/
def chain (op : Connective) : Formula → List Formula
  | f@(binary op' l r) => if op' = op then l.chain op ++ r.chain op else [f]
  | f => [f]

/-- The clauses of a formula in conjunctive form. -/
def clauses (f : Formula) : List Formula := f.chain .conj

/-- The literals of a clause. -/
def literals (clause : Formula) : List Formula := clause.chain .disj

end Formula

/-- What a clause is, by its numbers of positive and negative literals. -/
inductive HornKind where
  /-- Negative literals only. -/
  | query
  /-- One positive literal and nothing else. -/
  | fact
  /-- One positive literal and some negative ones. -/
  | rule
  /-- No literals. -/
  | empty
  /-- More than one positive literal. -/
  | nonHorn
deriving DecidableEq, Repr, Inhabited

namespace HornKind

/-- Every kind. -/
def all : List HornKind := [query, fact, rule, empty, nonHorn]

/-- The name of a kind. -/
def name : HornKind → String
  | query => "query"
  | fact => "fact"
  | rule => "rule"
  | empty => "empty"
  | nonHorn => "non-horn"

/-- The kind with the given name. -/
def ofName? (s : String) : Option HornKind :=
  all.find? fun kind => kind.name == s

theorem mem_all (kind : HornKind) : kind ∈ all := by cases kind <;> decide

theorem ofName?_name (kind : HornKind) : ofName? kind.name = some kind := by
  cases kind <;> decide

/-- The kind of a clause with so many positive and negative literals. -/
def classify (positive negative : Nat) : HornKind :=
  match positive, negative with
  | 0, 0 => empty
  | 0, _ => query
  | 1, 0 => fact
  | 1, _ => rule
  | _, _ => nonHorn

/-- Whether clauses of this kind are Horn clauses. -/
def isHorn (kind : HornKind) : Bool := kind != nonHorn

/-- What a kind is, in words. -/
def description : HornKind → String
  | query => "query (all literals negative)"
  | fact => "fact (one positive literal)"
  | rule => "rule (one positive literal, one or more negative literals)"
  | empty => "empty clause"
  | nonHorn => "non-Horn (several positive literals)"

/-- The Horn kinds are those with at most one positive literal. -/
theorem isHorn_classify (positive negative : Nat) :
    (classify positive negative).isHorn = decide (positive ≤ 1) := by
  unfold classify
  split <;> simp_all [isHorn]
  omega

end HornKind

/-- A clause with the numbers of its literals and its kind. -/
structure HornReport where
  clause : Formula
  positive : Nat
  negative : Nat
  kind : HornKind
deriving DecidableEq, Repr

namespace HornReport

/-- The report on a clause. A literal counts as negative if it is a negation, whatever it
negates. -/
def ofClause (clause : Formula) : HornReport :=
  let negative := clause.literals.countP Formula.isNegation
  let positive := clause.literals.countP fun l => !l.isNegation
  ⟨clause, positive, negative, HornKind.classify positive negative⟩

/-- Whether the clause has at most one positive literal. -/
def isHorn (r : HornReport) : Bool := r.positive ≤ 1

/-- The clause and its kind in words. -/
def message (r : HornReport) : String :=
  r.clause.render ++ ": " ++ r.kind.description

end HornReport

end ClausalForm
