import ClausalForm.Formula.Rendering
import ClausalForm.Token

/-!
# Formulas that can be written

Which formulas have names that the notation knows, which tokens their written form has, and how
many nesting levels reading it takes.

## Main definitions

* `Formula.isLexable`: every name is one that the notation knows
* `Token.isLexable`: every name in a token is one that the notation knows
* `Formula.tokens`: the tokens of the written form
* `Formula.nesting`: the nesting levels of the written form
-/

namespace ClausalForm

/-! ### Names -/

/-- Whether a name is a single small letter. -/
def isVariableName (s : String) : Bool :=
  match s.toList with
  | [c] => c.isLower
  | _ => false

/-- Whether a name is a capital letter and small letters after it. -/
def isPropositionName (s : String) : Bool :=
  match s.toList with
  | c :: cs => c.isUpper && cs.all Char.isLower
  | [] => false

theorem isVariableName_iff {s : String} :
    isVariableName s ↔ ∃ c : Char, c.isLower ∧ s = String.singleton c := by
  constructor
  · intro h
    unfold isVariableName at h
    split at h
    · rename_i c hs
      refine ⟨c, h, ?_⟩
      rw [← String.toList_inj, hs, String.toList_singleton]
    · cases h
  · rintro ⟨c, hc, rfl⟩
    rw [isVariableName, String.toList_singleton]
    exact hc

theorem isPropositionName_iff {s : String} :
    isPropositionName s ↔
      ∃ c cs, c.isUpper ∧ (∀ x ∈ cs, x.isLower) ∧ s = String.ofList (c :: cs) := by
  constructor
  · intro h
    unfold isPropositionName at h
    split at h
    · rename_i c cs hs
      rw [Bool.and_eq_true, List.all_eq_true] at h
      refine ⟨c, cs, h.1, h.2, ?_⟩
      rw [← hs, String.ofList_toList]
    · cases h
  · rintro ⟨c, cs, hc, hcs, rfl⟩
    rw [isPropositionName, String.toList_ofList]
    simpa [hc] using hcs

/-- Whether a term is a variable with a name that the notation knows. -/
def Term.isLexable : Term → Bool
  | var x => isVariableName x
  | app .. => false

/-- Whether every name in a token is one that the notation knows. -/
def Token.isLexable : Token → Bool
  | prop p args _ => isPropositionName p && args.all isVariableName
  | var x => isVariableName x
  | openParen | closeParen | command _ | eof => true

namespace Formula

/-- Whether every name in a formula is one that the notation knows. -/
def isLexable : Formula → Bool
  | prop p args => isPropositionName p && args.all Term.isLexable
  | var x => isVariableName x
  | neg f => f.isLexable
  | binary _ l r => l.isLexable && r.isLexable
  | quant _ x f => isVariableName x && f.isLexable

/-! ### The written form -/

/-- Tokens, in parentheses if asked for. -/
def parenthesizeTokens (wanted : Bool) (ts : List Token) : List Token :=
  if wanted then .openParen :: (ts ++ [.closeParen]) else ts

/-- The tokens of the written form. -/
def tokens : Formula → List Token
  | prop p args => [.prop p (Term.renderAll args) (Term.application p (Term.renderAll args))]
  | var x => [.var x]
  | neg f => .command .neg :: parenthesizeTokens f.isBinary f.tokens
  | binary op l r =>
    parenthesizeTokens (l.needsParentheses op .left) l.tokens ++
      .command (.connective op) :: parenthesizeTokens (r.needsParentheses op .right) r.tokens
  | quant q x f =>
    .command (.quantifier q) :: .var x :: parenthesizeTokens f.isBinary f.tokens

/-- The nesting levels of the written form: one for every negation and quantifier, one for every
right operand, and one for every pair of parentheses. -/
def nesting : Formula → Nat
  | prop .. | var _ => 0
  | neg f | quant _ _ f => 1 + f.isBinary.toNat + f.nesting
  | binary op l r =>
    max ((l.needsParentheses op .left).toNat + l.nesting)
      (1 + (r.needsParentheses op .right).toNat + r.nesting)

/-- A lexable argument is its own written form. -/
theorem map_var_renderAll {args : List Term} (h : args.all Term.isLexable) :
    (Term.renderAll args).map Term.var = args := by
  induction args with
  | nil => rfl
  | cons t ts ih =>
    rw [List.all_cons, Bool.and_eq_true] at h
    cases t with
    | var x => rw [Term.renderAll, Term.render, List.map_cons, ih h.2]
    | app => cases h.1

theorem isVariableName_of_mem_renderAll {args : List Term} (h : args.all Term.isLexable)
    {x : String} (hx : x ∈ Term.renderAll args) : isVariableName x := by
  have hvar : Term.var x ∈ args := by
    rw [← map_var_renderAll h]
    exact List.mem_map_of_mem hx
  exact List.all_eq_true.mp h _ hvar

/-- An application of a connective that is written bare is the right operand of the same
connective. -/
theorem eq_of_not_needsParentheses {op parent : Connective} {side : Side} {l r : Formula}
    (h : (binary op l r).needsParentheses parent side = false) :
    side = .right ∧ parent.isRightAssociative ∧ op.precedence = parent.precedence := by
  simp only [needsParentheses, Bool.or_eq_false_iff, bne_eq_false_iff_eq, Bool.not_eq_false',
    Bool.and_eq_true, beq_iff_eq] at h
  exact ⟨h.2.2, h.2.1, h.1⟩

end Formula

end ClausalForm
