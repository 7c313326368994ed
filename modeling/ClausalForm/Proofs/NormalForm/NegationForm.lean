import ClausalForm.Proofs.NormalForm.NegationChains

/-!
# Negations moved inwards in any formula

Implications and biconditionals stop a negation on its way inwards. Where a formula still has them,
moving its negations inwards nevertheless keeps what it says, leaves no chain of negations, and
changes nothing else in it: atoms and bound variables stay in their order.

## Main definitions

* `Formula.traversal`: the atoms and the bound variables of a formula, from left to right

## Main results

* `stops_of_neg_mem_polarized`: what negations stand on afterwards
* `traversal_polarized`: the atoms and the bound variables stay where they are
* `height_polarized_le`: the formula fits into the levels of the pass, also with new negations
* `traversal_pushNegation`: all of this for the pass
-/

namespace ClausalForm.Formula

universe u

/-- The atoms and the variables at the quantifiers, from left to right. -/
def traversal : Formula → List (Formula ⊕ String)
  | f@(prop ..) | f@(var _) => [.inl f]
  | neg f => f.traversal
  | binary _ l r => l.traversal ++ r.traversal
  | quant _ x f => .inr x :: f.traversal

theorem traversal_polarized (positive : Bool) (f : Formula) :
    (f.polarized positive).traversal = f.traversal := by
  induction f generalizing positive with
  | prop | var => cases positive <;> rfl
  | neg f ih => cases positive <;> exact ih _
  | binary op l r ihl ihr =>
    cases positive <;> cases op <;> simp only [polarized, traversal, ihl, ihr]
  | quant q x f ih => cases positive <;> simp only [polarized, traversal, ih]

/-- Whether the formula lets no negation pass: an atom, an implication or a biconditional. -/
def Stops (f : Formula) : Prop :=
  f.isAtom ∨ f.isApplicationOf .implies ∨ f.isApplicationOf .iff

theorem Stops.isNegation_eq_false {f : Formula} (h : f.Stops) : f.isNegation = false := by
  cases f with
  | neg f => rcases h with h | h | h <;> cases h
  | prop | var | binary | quant => rfl

theorem Stops.isQuantified_eq_false {f : Formula} (h : f.Stops) : f.isQuantified = false := by
  cases f with
  | quant q x f => rcases h with h | h | h <;> cases h
  | prop | var | neg | binary => rfl

/-- Negations move on until something stops them. -/
theorem stops_of_neg_mem_polarized {positive : Bool} {f a : Formula}
    (ha : neg a ∈ (f.polarized positive).subformulas) : a.Stops := by
  induction f generalizing positive with
  | prop | var =>
    cases positive with
    | true => exact absurd ha (neg_not_mem_subformulas_of_isAtom rfl)
    | false =>
      rcases neg_mem_subformulas_neg.mp ha with rfl | ha
      · exact .inl rfl
      · exact absurd ha (neg_not_mem_subformulas_of_isAtom rfl)
  | neg f ih => cases positive <;> exact ih ha
  | binary op l r ihl ihr =>
    -- either both operands are taken with the same sign, or a negation stays in front of them
    have hsame {op' : Connective} {s : Bool}
        (h : neg a ∈ (binary op' (l.polarized s) (r.polarized s)).subformulas) : a.Stops :=
      (neg_mem_subformulas_binary.mp h).elim ihl ihr
    cases positive with
    | true => exact hsame ha
    | false =>
      cases op with
      | conj | disj => exact hsame ha
      | implies =>
        rcases neg_mem_subformulas_neg.mp ha with rfl | ha
        · exact .inr (.inl rfl)
        · exact hsame ha
      | iff =>
        rcases neg_mem_subformulas_neg.mp ha with rfl | ha
        · exact .inr (.inr rfl)
        · exact hsame ha
  | quant q x f ih => cases positive <;> exact ih (neg_mem_subformulas_quant.mp ha)

/-- The pass has levels for what it answers. A negation that a formula is given from outside takes
one more, which has been paid for where it came from. -/
theorem height_polarized_le (f : Formula) :
    (f.polarized true).height ≤ f.polarLevels true ∧
      (f.polarized false).height ≤ f.polarLevels false + 1 := by
  induction f with
  | prop | var => exact ⟨Nat.le_refl _, Nat.le_refl _⟩
  | neg f ih =>
    obtain ⟨ihpos, ihneg⟩ := ih
    exact ⟨ihneg, Nat.le_succ_of_le ihpos⟩
  | binary op l r ihl ihr =>
    obtain ⟨ihlpos, ihlneg⟩ := ihl
    obtain ⟨ihrpos, ihrneg⟩ := ihr
    constructor
    · simp only [polarized, height, polarLevels]
      omega
    · cases op <;> simp only [polarized, height, polarLevels] <;> omega
  | quant q x f ih =>
    obtain ⟨ihpos, ihneg⟩ := ih
    exact ⟨Nat.succ_le_succ ihpos, Nat.succ_le_succ ihneg⟩

/-- What moving negations inwards makes of any formula: it says the same, its negations stand on
atoms, implications and biconditionals, so that there is no chain of them to collapse, and it has
the same atoms and bound variables in the same order. -/
theorem traversal_pushNegation {limits : Limits} {f g : Formula}
    (h : f.pushNegation limits = .ok g) :
    (∀ {D : Type u} (I : Interpretation D) (e : String → D), g.Holds I e ↔ f.Holds I e) ∧
      (∀ a, neg a ∈ g.subformulas →
        (a.isAtom ∨ a.isApplicationOf .implies ∨ a.isApplicationOf .iff) ∧
          a.isNegation = false ∧ a.isQuantified = false) ∧
      g.removeDoubleNegation limits = .ok g ∧
      (∀ limits' g', g.removeDoubleNegation limits' = .ok g' → g' = g) ∧
      (f.isImplicationFree → ∀ a, neg a ∈ g.subformulas → a.isAtom) ∧
      g.traversal = f.traversal := by
  rw [pushNegation, pushNegationWithin_eq, withLevels_eq_ok_iff] at h
  obtain ⟨hlevels, rfl⟩ := h
  have hchain (a : Formula) (ha : neg a ∈ (f.polarized true).subformulas) : a.isNegation = false :=
    (stops_of_neg_mem_polarized ha).isNegation_eq_false
  have hremove (limits' : Limits) :
      (f.polarized true).removeDoubleNegation limits' =
        withLevels limits'.depth (f.polarized true).height limits'.depth (f.polarized true) :=
    removeDoubleNegationWithin_eq_self hchain ..
  refine ⟨fun I e => (holds_polarized f e).1, ?_, ?_, ?_, ?_, traversal_polarized true f⟩
  · intro a ha
    have hstops := stops_of_neg_mem_polarized ha
    exact ⟨hstops, hstops.isNegation_eq_false, hstops.isQuantified_eq_false⟩
  · rw [hremove, withLevels_eq_ok_iff]
    exact ⟨Nat.le_trans (height_polarized_le f).1 hlevels, rfl⟩
  · intro limits' g' hg'
    rw [hremove, withLevels_eq_ok_iff] at hg'
    exact hg'.2.symm
  · intro hfree a ha
    exact isAtom_of_isNegationNormal (isNegationNormal_polarized hfree true) ha

/-- Negations in front of a conjunction, a quantifier, a disjunction and two formulas that stop
them. -/
theorem traversal_pushNegation_mixed :
    let a := prop "A" []
    let p := prop "P" [.var "x"]
    let f := neg (binary .conj a (neg (neg (quant .universal "x"
      (binary .implies p (neg (quant .existential "y" (binary .disj (neg (binary .iff a p))
        (neg (var "y"))))))))))
    let g := binary .disj (neg a) (quant .existential "x"
      (neg (binary .implies p (quant .universal "y" (binary .conj (binary .iff a p) (var "y"))))))
    f.pushNegation {} = .ok g ∧
      (∀ (I : Interpretation Bool) (e : String → Bool), g.Holds I e ↔ f.Holds I e) ∧
      g.removeDoubleNegation {} = .ok g ∧
      f.traversal = [.inl a, .inr "x", .inl p, .inr "y", .inl a, .inl p, .inl (var "y")] := by
  intro a p f g
  have hrun : f.pushNegation {} = .ok g := rfl
  obtain ⟨hholds, -, hremove, -, -, htraversal⟩ := traversal_pushNegation hrun
  exact ⟨hrun, hholds, hremove, htraversal.symm⟩

end ClausalForm.Formula
