/-!
# Terms

The arguments of propositions: variables, and functions applied to terms. Written formulas have
variables only as arguments; applications come from replacing existential variables.

## Main definitions

* `Term`: a variable or an application
* `Term.vars`: the variables of a term, from left to right, repeats kept
* `Term.substitute`: every occurrence of a variable replaced by a term
* `Term.render`: the written form
-/

namespace ClausalForm

/-- A term. An application without arguments is a constant. -/
inductive Term where
  /-- A variable. -/
  | var (name : String)
  /-- A function applied to terms. -/
  | app (name : String) (args : List Term)
deriving Repr, Inhabited

namespace Term

/-! ### Equality -/

mutual

/-- Equality of terms is decided structurally. -/
def decEq : (s t : Term) → Decidable (s = t)
  | var x, var y =>
    if h : x = y then isTrue (by rw [h]) else isFalse (by simpa using h)
  | var _, app _ _ => isFalse nofun
  | app _ _, var _ => isFalse nofun
  | app f ss, app g ts =>
    if h : f = g then
      match decEqList ss ts with
      | isTrue h' => isTrue (by rw [h, h'])
      | isFalse h' => isFalse fun e => h' (by injection e)
    else isFalse fun e => h (by injection e)

/-- Equality of argument lists. -/
def decEqList : (ss ts : List Term) → Decidable (ss = ts)
  | [], [] => isTrue rfl
  | [], _ :: _ => isFalse nofun
  | _ :: _, [] => isFalse nofun
  | s :: ss, t :: ts =>
    match decEq s t with
    | isTrue h =>
      match decEqList ss ts with
      | isTrue h' => isTrue (by rw [h, h'])
      | isFalse h' => isFalse fun e => h' (by injection e)
    | isFalse h => isFalse fun e => h (by injection e)

end

instance : DecidableEq Term := decEq

/-! ### Variables -/

mutual

/-- The variables of a term, from left to right, one entry for each occurrence. -/
def vars : Term → List String
  | var x => [x]
  | app _ args => varsOf args

/-- The variables of a list of terms, from left to right. -/
def varsOf : List Term → List String
  | [] => []
  | t :: ts => vars t ++ varsOf ts

end

theorem varsOf_eq_flatMap (ts : List Term) : varsOf ts = ts.flatMap vars := by
  induction ts with
  | nil => rfl
  | cons t ts ih => simp [varsOf, ih]

/-! ### Substitution -/

mutual

/-- Every occurrence of the variable `x` replaced by the term `r`. -/
def substitute (t : Term) (x : String) (r : Term) : Term :=
  match t with
  | var y => if y = x then r else var y
  | app f args => app f (substituteAll args x r)

/-- Substitution in every term of a list. -/
def substituteAll (ts : List Term) (x : String) (r : Term) : List Term :=
  match ts with
  | [] => []
  | t :: ts => substitute t x r :: substituteAll ts x r

end

theorem substituteAll_eq_map (ts : List Term) (x : String) (r : Term) :
    substituteAll ts x r = ts.map fun t => t.substitute x r := by
  induction ts with
  | nil => rfl
  | cons t ts ih => simp [substituteAll, ih]

/-! ### Written form -/

/-- A name followed by its arguments in parentheses; a name alone if there are none. -/
def application (name : String) : List String → String
  | [] => name
  | args => name ++ "(" ++ ", ".intercalate args ++ ")"

mutual

/-- The written form of a term. -/
def render : Term → String
  | var x => x
  | app f args => application f (renderAll args)

/-- The written forms of a list of terms. -/
def renderAll : List Term → List String
  | [] => []
  | t :: ts => render t :: renderAll ts

end

theorem renderAll_eq_map (ts : List Term) : renderAll ts = ts.map render := by
  induction ts with
  | nil => rfl
  | cons t ts ih => simp [renderAll, ih]

instance : ToString Term := ⟨render⟩

end Term

end ClausalForm
