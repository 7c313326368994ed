import ClausalForm.Formula.Substitution
import ClausalForm.Journal

/-!
# Skolem form

Every existential variable replaced by a term: a constant where no universal quantifier is around
it, and elsewhere a function of the variables of those that are. Constants are named `c1`, `c2`, …
and functions `f0`, `f1`, …, in pre-order.

## Main definitions

* `SkolemNames`: the numbers of the next constant and the next function
* `Formula.skolemize`: the replacement in a whole formula
-/

namespace ClausalForm

/-- The numbers of the next constant and the next function. -/
structure SkolemNames where
  nextConstant : Nat := 1
  nextFunction : Nat := 0
deriving DecidableEq, Repr

/-- The term for an existential variable below quantifiers that bind `universals`, and the numbers
that are next after it. -/
def SkolemNames.fresh (names : SkolemNames) (universals : List String) : Term × SkolemNames :=
  match universals with
  | [] =>
    (.app ("c" ++ toString names.nextConstant) [],
      { names with nextConstant := names.nextConstant + 1 })
  | _ =>
    (.app ("f" ++ toString names.nextFunction) (universals.map .var),
      { names with nextFunction := names.nextFunction + 1 })

namespace Formula

/-- The replacement with at most `n` levels to descend out of `limit`, below universal quantifiers
that bind `universals`, the outermost first. Also answers the numbers that are next. -/
def skolemizeWithin (limit : Nat) : (n : Nat) → SkolemNames → (universals : List String) →
    Formula → Journal PassError (Formula × SkolemNames)
  | _, names, _, prop p args => pure (prop p args, names)
  | _, names, _, var x => pure (var x, names)
  | 0, _, _, neg _ | 0, _, _, binary .. | 0, _, _, quant .. =>
    .ofExcept (.error (.recursionLimit limit))
  | n + 1, names, universals, neg f => do
    let (f, names) ← skolemizeWithin limit n names universals f
    return (neg f, names)
  | n + 1, names, universals, binary op l r => do
    let (l, names) ← skolemizeWithin limit n names universals l
    let (r, names) ← skolemizeWithin limit n names universals r
    return (binary op l r, names)
  | n + 1, names, universals, quant .universal x f => do
    let (f, names) ← skolemizeWithin limit n names (universals ++ [x]) f
    return (quant .universal x f, names)
  | n + 1, names, universals, quant .existential x f => do
    let (term, names) := names.fresh universals
    .report (.replaced x term)
    let f ← .ofExcept (f.substitute limit x term n)
    skolemizeWithin limit n names universals f

/-- Every existential variable replaced by a constant or a function of the universal variables
around it. -/
def skolemize (limits : Limits) (f : Formula) : Journal PassError Formula := do
  let (f, _) ← f.skolemizeWithin limits.depth limits.depth {} []
  return f

end Formula

end ClausalForm
