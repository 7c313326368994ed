import ClausalForm.Formula
import ClausalForm.Limits

/-!
# Formulas without implications

Implications and biconditionals rewritten into negations, conjunctions and disjunctions.

## Main definitions

* `Formula.withoutImplication`: the rewriting of one application of a connective
* `Formula.eliminateImplication`: the rewriting of a whole formula
-/

namespace ClausalForm.Formula

/-- Two formulas joined by a connective, said without implication and biconditional. -/
def withoutImplication (op : Connective) (l r : Formula) : Formula :=
  match op with
  | .implies => binary .disj (neg l) r
  | .iff => binary .conj (binary .disj (neg l) r) (binary .disj (neg r) l)
  | .conj | .disj => binary op l r

/-- The rewriting with at most `n` levels to descend out of `limit`. -/
def eliminateImplicationWithin (limit : Nat) : Nat → Formula → Except PassError Formula
  | _, prop p args => .ok (prop p args)
  | _, var x => .ok (var x)
  | 0, neg _ | 0, binary .. | 0, quant .. => .error (.recursionLimit limit)
  | n + 1, neg f => return neg (← eliminateImplicationWithin limit n f)
  | n + 1, binary op l r => do
    let l ← eliminateImplicationWithin limit n l
    let r ← eliminateImplicationWithin limit n r
    return withoutImplication op l r
  | n + 1, quant q x f => return quant q x (← eliminateImplicationWithin limit n f)

/-- Every `A \implies B` rewritten into `\neg A \lor B`, and every `A \iff B` into
`(\neg A \lor B) \land (\neg B \lor A)`. -/
def eliminateImplication (limits : Limits) (f : Formula) : Except PassError Formula :=
  f.eliminateImplicationWithin limits.depth limits.depth

end ClausalForm.Formula
