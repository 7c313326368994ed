import ClausalForm.Formula.FreeVariables
import ClausalForm.Formula.Substitution
import ClausalForm.Journal
import Std.Data.TreeSet

/-!
# Binders standardized apart

Bound variables renamed so that every quantifier binds a name of its own, which is no free
variable either. Quantifiers are visited outermost first, left before right, and the first binder
of a name keeps it. A fresh name is the old one with the smallest number appended that gives a name
not given before and not found anywhere in the formula.

## Main definitions

* `Names`: sets of names
* `freshName`: the name for one binder
* `Formula.standardizeWithin`: the renaming, given the names in use
* `Formula.standardize`: the renaming of a whole formula
-/

namespace ClausalForm

/-- A set of names. -/
abbrev Names := Std.TreeSet String

/-- The first of the names `stem ++ k`, `stem ++ (k + 1)`, …, of which at most `tries` are
considered, that is not taken. -/
def firstNumbered (taken : String → Bool) (stem : String) : (tries k : Nat) → Option String
  | 0, _ => none
  | tries + 1, k =>
    let name := stem ++ toString k
    if taken name then firstNumbered taken stem tries (k + 1) else some name

/-- The name for a binder of `name` when the names in `used` may not be bound again: the name
itself, or else the first numbered one that is neither used nor reserved. -/
def freshName (reserved used : Names) (maxSuffix : Nat) (name : String) : Option String :=
  if name ∉ used then some name
  else firstNumbered (fun x => x ∈ reserved || x ∈ used) name maxSuffix 1

namespace Formula

/-- The renaming with at most `n` levels to descend, given the names that may not be bound again.
Also answers these names as they are afterwards. -/
def standardizeWithin (limits : Limits) (reserved : Names) :
    (n : Nat) → (used : Names) → Formula → Journal PassError (Formula × Names)
  | _, used, prop p args => pure (prop p args, used)
  | _, used, var x => pure (var x, used)
  | 0, _, neg _ | 0, _, binary .. | 0, _, quant .. =>
    .ofExcept (.error (.recursionLimit limits.depth))
  | n + 1, used, neg f => do
    let (f, used) ← standardizeWithin limits reserved n used f
    return (neg f, used)
  | n + 1, used, binary op l r => do
    let (l, used) ← standardizeWithin limits reserved n used l
    let (r, used) ← standardizeWithin limits reserved n used r
    return (binary op l r, used)
  | n + 1, used, quant q x f =>
    match freshName reserved used limits.suffix x with
    | none => .ofExcept (.error (.namesExhausted x limits.suffix))
    | some y => do
      let f ← if y = x then pure f else do
        .report (.renamed x y)
        .ofExcept (f.substitute limits.depth x (.var y) n)
      let (f, used) ← standardizeWithin limits reserved n (used.insert y) f
      return (quant q y f, used)

/-- Bound variables renamed so that every quantifier binds a name of its own. -/
def standardize (limits : Limits) (f : Formula) : Journal PassError Formula := do
  let used ← .ofExcept (f.freeVariables limits)
  let (f, _) ← f.standardizeWithin limits (.ofList f.variableNames) limits.depth (.ofList used)
  return f

end Formula

end ClausalForm
