import ClausalForm.Proofs.Program.Attempts
import ClausalForm.Proofs.Program.RoundTrip

/-!
# What reading keeps

Every token is either used or reported. As long as no statement is dropped, the atoms, negations and
quantifiers in the statements are, from left to right, those of the tokens, and the connectives and
the parentheses can be counted: what is missing in the statements is among the diagnostics.

A reader that is part of the way holds some formulas already and has some tokens still ahead. Both
together are what one step of reading keeps.

## Main definitions

* `Part`, `Formula.parts`, `Token.part?`: what formulas and tokens have in common
* `Program.joins`: how often formulas are joined by a connective
* `SyntaxError.isUnjoined`, `SyntaxError.isStrayClose`: what is missing in the statements
* `Conserves`: nothing is lost between two points of the reading

## Main results

* `Reading.Attempt.conserves`: nothing is lost in an attempt that does not fail
* `Program.conserves_ofTokens`: nothing is lost in a program that has all its statements
-/

namespace ClausalForm

/-- What a formula has besides connectives and a token besides parentheses. -/
inductive Part where
  | prop (name : String) (args : List Term)
  /-- A variable that stands as a formula, or that a quantifier binds. -/
  | var (name : String)
  | neg
  | quantifier (q : Quantifier)

/-- The parts of a formula, from left to right as it is written. -/
def Formula.parts : Formula → List Part
  | prop name args => [.prop name args]
  | var x => [.var x]
  | neg f => .neg :: f.parts
  | binary _ l r => l.parts ++ r.parts
  | quant q x f => .quantifier q :: .var x :: f.parts

namespace Token

/-- The part that a token stands for: none for a connective, a parenthesis and the end. -/
def part? : Token → Option Part
  | prop name args _ => some (.prop name (args.map .var))
  | var x => some (.var x)
  | command .neg => some .neg
  | command (.quantifier q) => some (.quantifier q)
  | command (.connective _) | openParen | closeParen | eof => none

/-- Whether a token is a connective. -/
def isConnective : Token → Bool
  | command (.connective _) => true
  | _ => false

end Token

namespace SyntaxError

/-- Whether the fault is a connective that joins nothing: a stray one, or one that lacks its right
operand. -/
def isUnjoined : SyntaxError → Bool
  | unexpectedToken t => t.isConnective
  | missingOperand (.connective _) => true
  | _ => false

/-- Whether the fault is a closing parenthesis that closes nothing. -/
def isStrayClose (e : SyntaxError) : Bool :=
  e == unexpectedToken .closeParen

end SyntaxError

/-- How often formulas are joined by a connective in the given ones. -/
def Program.joins (fs : List Formula) : Nat :=
  (fs.flatMap Formula.subformulas).countP Formula.isBinary

namespace Program

theorem joins_append (fs gs : List Formula) : joins (fs ++ gs) = joins fs + joins gs := by
  simp only [joins, List.flatMap_append, List.countP_append]

theorem joins_binary (op : Connective) (l r : Formula) :
    joins [.binary op l r] = joins [l] + joins [r] + 1 := by
  have hroot : (Formula.binary op l r).isBinary := rfl
  simp only [joins, List.flatMap_cons, List.flatMap_nil, List.append_nil, Formula.subformulas]
  rw [List.countP_cons_of_pos hroot, List.countP_append]

end Program

open Program (joins)

/-- Nothing is lost between a point with the formulas `before` and the tokens `ts` ahead and a later
one with the formulas `after` and the tokens `rest` ahead, if the faults `passed` are met between
them. -/
structure Conserves (before : List Formula) (ts : List Located) (after : List Formula)
    (rest : List Located) (passed : List Diagnostic) : Prop where
  parts : before.flatMap Formula.parts ++ ts.filterMap (·.token.part?) =
    after.flatMap Formula.parts ++ rest.filterMap (·.token.part?)
  joins : joins before + ts.countP (·.token.isConnective) =
    joins after + rest.countP (·.token.isConnective) + passed.countP (·.error.isUnjoined)
  parens : ts.countP (·.token == .openParen) + rest.countP (·.token == .closeParen) +
      passed.countP (·.error.isStrayClose) =
    ts.countP (·.token == .closeParen) + rest.countP (·.token == .openParen) +
      passed.countP (·.error == .unclosedParen)

namespace Conserves

variable {before mid after : List Formula} {ts us rest : List Located}
  {passed passed' : List Diagnostic}

theorem refl (fs : List Formula) (ts : List Located) : Conserves fs ts fs ts [] :=
  ⟨rfl, rfl, Nat.add_right_cancel_iff.mpr (Nat.add_comm _ _)⟩

theorem trans (h : Conserves before ts mid us passed) (h' : Conserves mid us after rest passed') :
    Conserves before ts after rest (passed ++ passed') := by
  refine ⟨h.parts.trans h'.parts, ?_, ?_⟩
  · have := h.joins
    have := h'.joins
    rw [List.countP_append]
    omega
  · have := h.parens
    have := h'.parens
    rw [List.countP_append, List.countP_append]
    omega

/-- Formulas that were read before stay what they are. -/
theorem frame (fs : List Formula) (h : Conserves before ts after rest passed) :
    Conserves (fs ++ before) ts (fs ++ after) rest passed := by
  refine ⟨?_, ?_, h.parens⟩
  · rw [List.flatMap_append, List.flatMap_append, List.append_assoc, List.append_assoc, h.parts]
  · have := h.joins
    rw [Program.joins_append, Program.joins_append]
    omega

variable {f g : Formula} {t : Located} {offset offset' : Nat}

/-- A token that is passed over is reported. -/
theorem stray (fs : List Formula) (ht : Reading.isStray t.token) (ts : List Located) :
    Conserves fs (t :: ts) fs ts [⟨.unexpectedToken t.token, t.offset⟩] := by
  obtain ⟨token, offset⟩ := t
  cases token with
  | closeParen =>
    refine ⟨rfl, rfl, ?_⟩
    simp [SyntaxError.isStrayClose]
    omega
  | command c =>
    cases c with
    | connective op =>
      refine ⟨rfl, ?_, ?_⟩
      · simp [Token.isConnective, SyntaxError.isUnjoined, Nat.add_assoc]
      · simp [SyntaxError.isStrayClose]
        omega
    | neg | quantifier => cases ht
  | openParen | prop | var | eof => cases ht

theorem neg (h : Conserves [] ts [f] rest passed) :
    Conserves [] (⟨.command .neg, offset⟩ :: ts) [.neg f] rest passed := by
  refine ⟨?_, h.joins, h.parens⟩
  simpa [Formula.parts, Token.part?] using h.parts

theorem quant (q : Quantifier) (x : String) (h : Conserves [] ts [f] rest passed) :
    Conserves [] (⟨.command (.quantifier q), offset⟩ :: ⟨.var x, offset'⟩ :: ts) [.quant q x f] rest
      passed := by
  refine ⟨?_, h.joins, h.parens⟩
  simpa [Formula.parts, Token.part?] using h.parts

theorem closed (h : Conserves [] ts [f] (⟨.closeParen, offset'⟩ :: rest) passed) :
    Conserves [] (⟨.openParen, offset⟩ :: ts) [f] rest passed := by
  refine ⟨h.parts, h.joins, ?_⟩
  have := h.parens
  simp at this ⊢
  omega

/-- A parenthesis that is not closed is reported. -/
theorem unclosed (h : Conserves [] ts after rest passed) :
    Conserves [] (⟨.openParen, offset⟩ :: ts) after rest
      (passed ++ [⟨.unclosedParen, offset⟩]) := by
  refine ⟨h.parts, ?_, ?_⟩
  · have := h.joins
    simpa [Token.isConnective, SyntaxError.isUnjoined] using this
  · have := h.parens
    simp [SyntaxError.isStrayClose] at this ⊢
    omega

theorem join (op : Connective) (left : Formula) (h : Conserves [] ts [g] rest passed) :
    Conserves [left] (⟨.command (.connective op), offset⟩ :: ts) [.binary op left g] rest
      passed := by
  refine ⟨?_, ?_, h.parens⟩
  · simpa [Formula.parts, Token.part?] using h.parts
  · have := h.joins
    have hnil : Program.joins [] = 0 := rfl
    rw [Program.joins_binary]
    simp [Token.isConnective] at this ⊢
    omega

/-- A connective that lacks its right operand is reported. -/
theorem missingOperand (op : Connective) (left : Formula) (h : Conserves [] ts [] rest passed) :
    Conserves [left] (⟨.command (.connective op), offset⟩ :: ts) [left] rest
      (passed ++ [⟨.missingOperand (.connective op), offset⟩]) := by
  have hframe := h.frame [left]
  refine ⟨hframe.parts, ?_, ?_⟩
  · have := hframe.joins
    simp [Token.isConnective, SyntaxError.isUnjoined] at this ⊢
    omega
  · have := h.parens
    simp [SyntaxError.isStrayClose] at this ⊢
    omega

end Conserves

/-! ### Attempts -/

namespace Reading

/-- Nothing is lost in a reply, unless it costs the statement. -/
def Reply.Conserves (before : List Formula) (ts : List Located) : Reply → Prop
  | formula f rest passed => ClausalForm.Conserves before ts [f] rest passed
  | nothing rest passed => ClausalForm.Conserves before ts [] rest passed
  | fault d _ _ => d.error.isFatal

namespace Reply.Conserves

variable {before mid : List Formula} {ts us : List Located} {r : Reply}

theorem after {passed : List Diagnostic} (h : r.Conserves mid us)
    (hbefore : ClausalForm.Conserves before ts mid us passed) :
    (r.after passed).Conserves before ts := by
  cases r with
  | formula | nothing => exact hbefore.trans h
  | fault => exact h

theorem neg (h : r.Conserves [] ts) (offset : Nat) :
    (r.operand .neg offset .neg).Conserves [] (⟨.command .neg, offset⟩ :: ts) := by
  cases r with
  | formula => exact h.neg
  | nothing => rfl
  | fault => exact h

theorem quant (h : r.Conserves [] ts) (q : Quantifier) (x : String) (offset offset' : Nat) :
    (r.operand (.quantifier q) offset (.quant q x)).Conserves []
      (⟨.command (.quantifier q), offset⟩ :: ⟨.var x, offset'⟩ :: ts) := by
  cases r with
  | formula => exact h.quant q x
  | nothing => rfl
  | fault => exact h

theorem closed (h : r.Conserves [] ts) (offset : Nat) :
    (r.closed offset).Conserves [] (⟨.openParen, offset⟩ :: ts) := by
  unfold Reply.closed
  split
  · exact ClausalForm.Conserves.closed h
  · exact ClausalForm.Conserves.unclosed h
  · exact ClausalForm.Conserves.unclosed h
  · rename_i hformula hnothing
    cases r with
    | formula f rest passed => exact absurd rfl (hformula f rest passed)
    | nothing rest passed => exact absurd rfl (hnothing rest passed)
    | fault => exact h

end Reply.Conserves

/-- The formulas that are there before a task. -/
def Task.before : Task → List Formula
  | primary | expression _ => []
  | connectives _ left => [left]

variable {limit last n : Nat}

/-- Nothing is lost in an attempt, unless it costs the statement. -/
theorem Attempt.conserves {task : Task} {ts : List Located} {r : Reply}
    (h : Attempt limit last task n ts r) : r.Conserves task.before ts := by
  induction h with
  | stray ht _ ih => exact ih.after (.stray [] ht _)
  | prop | var => exact ⟨rfl, rfl, (Conserves.refl [] _).parens⟩
  | neg _ ih => exact ih.neg _
  | quant _ ih => exact ih.quant _ _ _ _
  | negTooDeep | quantTooDeep | quantUnbound | parensTooDeep | joinTooDeep => rfl
  | parens _ ih => exact ih.closed _
  | nothing | stop => exact .refl _ _
  | chain _ _ ihfirst ihrest => exact ihrest.after ihfirst
  | noChain _ _ ih => exact ih
  | join _ _ _ ihright ihrest => exact ihrest.after (.join _ _ ihright)
  | joinNothing _ _ ih => exact .missingOperand _ _ ih
  | joinFault _ _ ih => exact ih

end Reading

/-! ### Programs -/

namespace Program

open Reading (Attempt attempt_iff beforeEnd fromEnd)

variable {limit last : Nat} {ts : List Located}

/-- Nothing is lost until the end is reached, if every statement is read. -/
theorem conserves_read (h : ∀ d ∈ (read limit last ts).diagnostics, d.error.isFatal = false) :
    Conserves [] ts (read limit last ts).statements (fromEnd ts)
      (read limit last ts).diagnostics := by
  fun_induction read limit last ts with
  | case1 ts hfront =>
    rw [Reading.fromEnd_of_frontToken hfront]
    exact .refl [] ts
  | case2 ts hfront f rest passed hread ih =>
    have hattempt : Attempt limit last (.expression 0) limit ts (.formula f rest passed) :=
      attempt_iff.mpr hread
    have hfirst : Conserves [] ts [f] rest passed := hattempt.conserves
    have hrest := ih fun d hd => h d (List.mem_append_right passed hd)
    rw [hattempt.leaves.fromEnd_eq]
    exact hfirst.trans (hrest.frame [f])
  | case3 ts hfront rest passed hread =>
    -- what is left starts with the end
    have hattempt : Attempt limit last (.expression 0) limit ts (.nothing rest passed) :=
      attempt_iff.mpr hread
    have hconserves : Conserves [] ts [] rest passed := hattempt.conserves
    rwa [hattempt.leaves.fromEnd_eq, Reading.fromEnd_of_frontToken (hattempt.leavesEnd.1 rfl)]
  | case4 ts hfront d rest passed hread ih =>
    -- a statement is dropped
    have hattempt : Attempt limit last (.expression 0) limit ts (.fault d rest passed) :=
      attempt_iff.mpr hread
    have hfatal : d.error.isFatal := hattempt.conserves
    have hd : d ∈ passed ++ [d] ++ (read limit last (dropCloseParens rest)).diagnostics := by simp
    cases hfatal.symm.trans (h d hd)

/-- A program that has all its statements, as no fault costs one, has in them the parts of the
tokens before the end in their order, joins as often as there are connectives that are not reported,
and reports every parenthesis that has no counterpart. -/
theorem conserves_ofTokens {limit : Nat} {ts : List Located}
    (h : ∀ d ∈ (ofTokens limit ts).diagnostics, d.error.isFatal = false) :
    let p := ofTokens limit ts
    p.statements.flatMap Formula.parts = (beforeEnd ts).filterMap (·.token.part?) ∧
      joins p.statements + p.diagnostics.countP (·.error.isUnjoined) =
        (beforeEnd ts).countP (·.token.isConnective) ∧
      ((beforeEnd ts).countP (·.token == .openParen) : Int) -
          (beforeEnd ts).countP (·.token == .closeParen) =
        p.diagnostics.countP (·.error == .unclosedParen) -
          p.diagnostics.countP (·.error.isStrayClose) := by
  intro p
  have hconserves : Conserves [] ts p.statements (fromEnd ts) p.diagnostics := conserves_read h
  have hsplit {α : Type} (q : Located → Option α) :
      ts.filterMap q = (beforeEnd ts).filterMap q ++ (fromEnd ts).filterMap q := by
    rw [← List.filterMap_append, Reading.beforeEnd_append_fromEnd]
  have hcount (q : Located → Bool) :
      ts.countP q = (beforeEnd ts).countP q + (fromEnd ts).countP q := by
    rw [← List.countP_append, Reading.beforeEnd_append_fromEnd]
  refine ⟨?_, ?_, ?_⟩
  · -- the tokens from the end on are ahead at both points
    have hparts := hconserves.parts
    rw [hsplit, List.flatMap_nil, List.nil_append] at hparts
    exact (List.append_cancel_right hparts).symm
  · have hnil : joins [] = 0 := rfl
    have hjoins := hconserves.joins
    rw [hcount] at hjoins
    omega
  · have hparens := hconserves.parens
    rw [hcount, hcount (·.token == .closeParen)] at hparens
    omega

/-- A stray closing parenthesis, a parenthesis that is not closed and a connective in front of the
end. -/
theorem conserves_ofTokens_unclosed :
    let connective (op : Connective) : Token := .command (.connective op)
    let us : List Token := [.closeParen, .prop "P" ["x"] "P(x)", connective .conj, .openParen,
      .command .neg, .prop "A" [] "A", connective .disj, .command (.quantifier .universal),
      .var "x", .var "x", connective .implies]
    let ts : List Located := (us ++ [Token.eof, Token.prop "B" [] "B"]).map fun t => ⟨t, 0⟩
    let p := ofTokens 8 ts
    (∀ d ∈ p.diagnostics, d.error.isFatal = false) ∧
      p.diagnostics.map Diagnostic.error =
        [.unexpectedToken .closeParen, .missingOperand (.connective .implies), .unclosedParen] ∧
      p.statements.flatMap Formula.parts = [.prop "P" [.var "x"], .neg, .prop "A" [],
        .quantifier .universal, .var "x", .var "x"] ∧
      joins p.statements + p.diagnostics.countP (·.error.isUnjoined) = 3 ∧
      (1 : Int) - 1 = p.diagnostics.countP (·.error == .unclosedParen) -
        p.diagnostics.countP (·.error.isStrayClose) := by
  intro connective us ts p
  have hfatal : ∀ d ∈ p.diagnostics, d.error.isFatal = false := by decide +kernel
  obtain ⟨hparts, hjoins, hparens⟩ := conserves_ofTokens hfatal
  exact ⟨hfatal, by decide +kernel, hparts, hjoins, hparens⟩

end Program

end ClausalForm
