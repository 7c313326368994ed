import ClausalForm.Formula
import ClausalForm.Limits

/-!
# Substitution in formulas

A term put in the place of a variable, wherever that variable is free. A quantifier that binds the
variable shadows it, so nothing below such a quantifier changes. Whether a variable of the term is
captured on the way is for the caller to rule out.

## Main definitions

* `Formula.substitute`: substitution with a bound on the levels that it descends
-/

namespace ClausalForm.Formula

/-- Every free occurrence of the variable `x` replaced by the term `r`, descending at most `n`
levels out of `limit`. -/
def substitute (limit : Nat) (x : String) (r : Term) : Nat → Formula → Except PassError Formula
  | _, prop p args => .ok (prop p (Term.substituteAll args x r))
  | _, var y => .ok (if y = x then ofTerm r else var y)
  | 0, neg _ | 0, binary .. => .error (.recursionLimit limit)
  | n + 1, neg f => return neg (← substitute limit x r n f)
  | n + 1, binary op f g => do
    let f ← substitute limit x r n f
    let g ← substitute limit x r n g
    return binary op f g
  | n, quant q y f =>
    if y = x then .ok (quant q y f)
    else
      match n with
      | 0 => .error (.recursionLimit limit)
      | n + 1 => return quant q y (← substitute limit x r n f)

end ClausalForm.Formula
