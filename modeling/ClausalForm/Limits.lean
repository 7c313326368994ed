import ClausalForm.Diagnostic

/-!
# Limits

The bounds within which formulas are rewritten, and what happens when one of them is reached. A
pass may descend a limited number of levels into a formula, and may try a limited number of
suffixes for a fresh name.

## Main definitions

* `Limits`: the bounds
* `PassError`: the ways in which a pass fails
-/

namespace ClausalForm

/-- The bounds of a pass. -/
structure Limits where
  /-- How many levels a pass may descend. -/
  depth : Nat := 100
  /-- The largest suffix tried for a fresh name. -/
  suffix : Nat := 999
deriving DecidableEq, Repr

/-- The ways in which a pass fails. -/
inductive PassError where
  /-- Every suffix up to the limit gives a name that is taken. -/
  | namesExhausted (name : String) (limit : Nat)
  /-- The pass needs more levels than the limit. -/
  | recursionLimit (limit : Nat)
deriving DecidableEq, Repr

/-- The wording of a failure. -/
def PassError.message : PassError → String
  | namesExhausted name limit =>
    "could not find a fresh name for variable '" ++ name ++ "' after trying " ++ toString limit ++
      " suffixes"
  | recursionLimit limit => tooDeepMessage limit

end ClausalForm
