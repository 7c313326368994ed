import ClausalForm.NormalForm.Prenex

/-!
# Conjunctive and disjunctive form

One of conjunction and disjunction distributed over the other, until no application of the first
has an application of the second as an operand.

## Main definitions

* `Formula.combine`: two formulas joined by the inner connective, below the outer one
* `Formula.distributeWithin`: the distribution in a whole formula
* `Formula.distributeToCnf`, `Formula.distributeToDnf`: its two directions
* `Formula.toConjunctivePrenex`, `Formula.toDisjunctivePrenex`: the same for the matrix that is left
  when all quantifiers are discarded
-/

namespace ClausalForm.Formula

/-- The operands of the formula if it is an application of `op`. -/
def operands? (op : Connective) : Formula → Option (Formula × Formula)
  | binary op' l r => if op' = op then some (l, r) else none
  | _ => none

/-- Joins two formulas by the dual of `outer`, below every application of `outer` at their roots.
The right one is taken apart first. Each application costs one of `n` levels out of `limit`. -/
def combine (limit : Nat) (outer : Connective) (n : Nat) (l r : Formula) :
    Except PassError Formula :=
  match r.operands? outer, l.operands? outer with
  | none, none => .ok (binary outer.dual l r)
  | some (a, b), _ =>
    match n with
    | 0 => .error (.recursionLimit limit)
    | n + 1 => do
      let a ← combine limit outer n l a
      let b ← combine limit outer n l b
      return binary outer a b
  | none, some (a, b) =>
    match n with
    | 0 => .error (.recursionLimit limit)
    | n + 1 => do
      let a ← combine limit outer n a r
      let b ← combine limit outer n b r
      return binary outer a b

/-- The dual of `outer` distributed over `outer`, descending at most `n` levels out of `limit`. -/
def distributeWithin (limit : Nat) (outer : Connective) :
    Nat → Formula → Except PassError Formula
  | _, prop p args => .ok (prop p args)
  | _, var x => .ok (var x)
  | 0, neg _ | 0, binary .. | 0, quant .. => .error (.recursionLimit limit)
  | n + 1, neg f => return neg (← distributeWithin limit outer n f)
  | n + 1, binary op l r => do
    let l ← distributeWithin limit outer n l
    let r ← distributeWithin limit outer n r
    if op = outer.dual then combine limit outer n l r else return binary op l r
  | n + 1, quant q x f => return quant q x (← distributeWithin limit outer n f)

/-- Disjunctions distributed over conjunctions. -/
def distributeToCnf (limits : Limits) (f : Formula) : Except PassError Formula :=
  f.distributeWithin limits.depth .conj limits.depth

/-- Conjunctions distributed over disjunctions. -/
def distributeToDnf (limits : Limits) (f : Formula) : Except PassError Formula :=
  f.distributeWithin limits.depth .disj limits.depth

/-- All quantifiers discarded, and disjunctions distributed over conjunctions. -/
def toConjunctivePrenex (limits : Limits) (f : Formula) : Except PassError Formula := do
  (← f.stripQuantifiers limits).distributeToCnf limits

/-- All quantifiers discarded, and conjunctions distributed over disjunctions. -/
def toDisjunctivePrenex (limits : Limits) (f : Formula) : Except PassError Formula := do
  (← f.stripQuantifiers limits).distributeToDnf limits

end ClausalForm.Formula
