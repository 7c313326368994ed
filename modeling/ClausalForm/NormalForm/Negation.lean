import ClausalForm.Formula
import ClausalForm.Limits

/-!
# Negations

Negations moved to the atoms by the laws of De Morgan and the duality of the quantifiers, and
chains of negations collapsed.

## Main definitions

* `Formula.pushNegation`: negations moved inwards
* `Formula.removeDoubleNegation`: every chain of negations collapsed into at most one
-/

namespace ClausalForm.Formula

/-! ### Moving negations inwards -/

/-- The formula, or its negation where `positive` is false, with every negation moved inwards as
far as it goes, descending at most `n` levels out of `limit`. A negation that meets another one
costs no level. Implications and biconditionals stop a negation. -/
def pushNegationWithin (limit : Nat) : (n : Nat) → (positive : Bool) → Formula →
    Except PassError Formula
  | _, true, prop p args => .ok (prop p args)
  | _, true, var x => .ok (var x)
  | _, false, prop p args => .ok (neg (prop p args))
  | _, false, var x => .ok (neg (var x))
  | n, false, neg f => pushNegationWithin limit n true f
  | 0, true, neg _ | 0, _, binary .. | 0, _, quant .. => .error (.recursionLimit limit)
  | n + 1, true, neg f => pushNegationWithin limit n false f
  | n + 1, true, binary op l r => do
    let l ← pushNegationWithin limit n true l
    let r ← pushNegationWithin limit n true r
    return binary op l r
  | n + 1, false, binary op l r =>
    match op with
    | .conj | .disj => do
      let l ← pushNegationWithin limit n false l
      let r ← pushNegationWithin limit n false r
      return binary op.dual l r
    | .implies | .iff => do
      let l ← pushNegationWithin limit n true l
      let r ← pushNegationWithin limit n true r
      return neg (binary op l r)
  | n + 1, true, quant q x f => return quant q x (← pushNegationWithin limit n true f)
  | n + 1, false, quant q x f => return quant q.dual x (← pushNegationWithin limit n false f)

/-- Every negation moved inwards as far as it goes. -/
def pushNegation (limits : Limits) (f : Formula) : Except PassError Formula :=
  f.pushNegationWithin limits.depth limits.depth true

/-! ### Collapsing chains -/

/-- What stands below the negations at the root, and whether `negated` and the number of these
negations make it negated. -/
def stripNegations (negated : Bool) : Formula → Bool × Formula
  | neg f => f.stripNegations (!negated)
  | f => (negated, f)

/-- The formula, negated if asked for. -/
def negateIf (negated : Bool) (f : Formula) : Formula :=
  if negated then neg f else f

/-- The collapsing with at most `n` levels to descend out of `limit`. A whole chain costs one
level. -/
def removeDoubleNegationWithin (limit : Nat) : Nat → Formula → Except PassError Formula
  | _, prop p args => .ok (prop p args)
  | _, var x => .ok (var x)
  | 0, neg _ | 0, binary .. | 0, quant .. => .error (.recursionLimit limit)
  | n + 1, neg f =>
    let (negated, core) := f.stripNegations true
    return negateIf negated (← removeDoubleNegationWithin limit n core)
  | n + 1, binary op l r => do
    let l ← removeDoubleNegationWithin limit n l
    let r ← removeDoubleNegationWithin limit n r
    return binary op l r
  | n + 1, quant q x f => return quant q x (← removeDoubleNegationWithin limit n f)

/-- Every chain of negations collapsed: into one if its length is odd, and away if it is even. -/
def removeDoubleNegation (limits : Limits) (f : Formula) : Except PassError Formula :=
  f.removeDoubleNegationWithin limits.depth limits.depth

end ClausalForm.Formula
