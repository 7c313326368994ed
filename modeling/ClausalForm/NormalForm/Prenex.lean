import ClausalForm.Formula
import ClausalForm.Limits

/-!
# Prenex form

Quantifiers moved to the front of a formula, or dropped. Moving them keeps the meaning of a formula
whose negations stand on atoms and whose binders are apart.

## Main definitions

* `Formula.separate`: the quantifiers of a formula in pre-order, and the formula without them
* `Formula.hoistQuantifiers`: all quantifiers moved to the front
* `Formula.dropQuantifiers`: the leading universal quantifiers removed
-/

namespace ClausalForm.Formula

/-- The quantifiers in pre-order, and the formula without them, descending at most `n` levels out
of `limit`. -/
def separate (limit : Nat) : Nat → Formula → Except PassError (List Binder × Formula)
  | _, prop p args => .ok ([], prop p args)
  | _, var x => .ok ([], var x)
  | 0, neg _ | 0, binary .. | 0, quant .. => .error (.recursionLimit limit)
  | n + 1, neg f => do
    let (binders, f) ← separate limit n f
    return (binders, neg f)
  | n + 1, binary op l r => do
    let (left, l) ← separate limit n l
    let (right, r) ← separate limit n r
    return (left ++ right, binary op l r)
  | n + 1, quant q x f => do
    let (binders, f) ← separate limit n f
    return (⟨q, x⟩ :: binders, f)

/-- Every quantifier moved to the front. The first one in pre-order becomes the outermost. -/
def hoistQuantifiers (limits : Limits) (f : Formula) : Except PassError Formula := do
  let (binders, g) ← f.separate limits.depth limits.depth
  return g.quantify binders

/-- The formula without any of its quantifiers. -/
def stripQuantifiers (limits : Limits) (f : Formula) : Except PassError Formula := do
  let (_, g) ← f.separate limits.depth limits.depth
  return g

/-- The formula without its leading universal quantifiers. -/
def dropQuantifiers : Formula → Formula
  | quant .universal _ f => f.dropQuantifiers
  | f => f

end ClausalForm.Formula
