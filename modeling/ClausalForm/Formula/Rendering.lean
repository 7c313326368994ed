import ClausalForm.Formula

/-!
# The written form of formulas

A formula is written with parentheses where reading it back needs them, and in three more places:
around every conjunction or disjunction inside another one of the same kind, around the left
operand in a chain of implications or biconditionals, and around the body of a quantifier or a
negation that is an application of a connective.

## Main definitions

* `Formula.needsParentheses`: whether an operand is written in parentheses
* `Formula.render`: the written form
-/

namespace ClausalForm

namespace Formula

/-- The side of a connective that an operand stands on. -/
inductive Side where
  | left
  | right
deriving DecidableEq, Repr

/-- Whether the operand of the connective `parent` on the given side is written in parentheses.
A connective of another strength always is; one of the same strength is left bare only where the
connective groups to the right and the operand is its right one. -/
def needsParentheses (parent : Connective) (side : Side) : Formula → Bool
  | binary op _ _ =>
    op.precedence != parent.precedence || !(parent.isRightAssociative && side == .right)
  | _ => false

/-- A text, in parentheses if asked for. -/
def parenthesize (wanted : Bool) (text : String) : String :=
  if wanted then "(" ++ text ++ ")" else text

/-- The written form of a formula. -/
def render : Formula → String
  | prop p args => Term.application p (Term.renderAll args)
  | var x => x
  | neg g => "\\neg " ++ parenthesize g.isBinary g.render
  | binary op l r =>
    parenthesize (l.needsParentheses op .left) l.render ++ " " ++ op.symbol ++ " " ++
      parenthesize (r.needsParentheses op .right) r.render
  | quant q x g => q.symbol ++ " " ++ x ++ " " ++ parenthesize g.isBinary g.render

instance : ToString Formula := ⟨render⟩

theorem render_ofTerm (t : Term) : (ofTerm t).render = t.render := by
  cases t <;> rfl

end Formula

end ClausalForm
