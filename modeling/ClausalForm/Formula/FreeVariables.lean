import ClausalForm.Formula
import ClausalForm.Limits

/-!
# Free variables

The variables of a formula that no quantifier around them binds.

## Main definitions

* `Formula.freeOccurrences`: one entry for each free occurrence of a variable, from left to right
* `Formula.freeVariables`: the free variables in the order of their first free occurrence
-/

namespace ClausalForm.Formula

/-- The free occurrences of variables below quantifiers that bind the names in `bound`, from left
to right, descending at most `n` levels out of `limit`. -/
def freeOccurrences (limit : Nat) :
    (n : Nat) → (bound : List String) → Formula → Except PassError (List String)
  | _, bound, prop _ args => .ok ((Term.varsOf args).filter fun x => x ∉ bound)
  | _, bound, var x => .ok (if x ∈ bound then [] else [x])
  | 0, _, neg _ | 0, _, binary .. | 0, _, quant .. => .error (.recursionLimit limit)
  | n + 1, bound, neg f => freeOccurrences limit n bound f
  | n + 1, bound, binary _ f g => do
    let left ← freeOccurrences limit n bound f
    let right ← freeOccurrences limit n bound g
    return left ++ right
  | n + 1, bound, quant _ x f => freeOccurrences limit n (x :: bound) f

/-- The free variables of a formula in the order of their first free occurrence. -/
def freeVariables (limits : Limits) (f : Formula) : Except PassError (List String) :=
  return (← f.freeOccurrences limits.depth limits.depth []).eraseDups

end ClausalForm.Formula
