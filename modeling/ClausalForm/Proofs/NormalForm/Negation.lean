import ClausalForm.NormalForm.Negation
import ClausalForm.Proofs.NormalForm.ImplicationFree

/-!
# Negation normal form

Moving negations inwards keeps the truth of a formula. Without implications in its way it leaves
negations on atoms only, and then no chain of negations is left to collapse.

## Main definitions

* `Formula.polarized`: the formula or its negation with negations moved inwards
* `Formula.isNegationNormal`: whether every negation stands on an atom

## Main results

* `pushNegationWithin_eq`: the pass computes `polarized`
* `holds_polarized`: the truth of the formula, or its opposite
* `isNegationNormal_polarized`: where the negations stand afterwards
* `isAtom_of_isNegationNormal`: what negations stand on
-/

namespace ClausalForm.Formula

universe u

/-- The formula, or its negation where `positive` is false, with negations moved inwards. -/
def polarized : (positive : Bool) → Formula → Formula
  | true, prop p args => prop p args
  | true, var x => var x
  | false, prop p args => neg (prop p args)
  | false, var x => neg (var x)
  | positive, neg f => f.polarized (!positive)
  | true, binary op l r => binary op (l.polarized true) (r.polarized true)
  | false, binary op l r =>
    match op with
    | .conj | .disj => binary op.dual (l.polarized false) (r.polarized false)
    | .implies | .iff => neg (binary op (l.polarized true) (r.polarized true))
  | true, quant q x f => quant q x (f.polarized true)
  | false, quant q x f => quant q.dual x (f.polarized false)

/-- The number of levels that moving negations inwards descends. A negation that meets another
one is free. -/
def polarLevels : (positive : Bool) → Formula → Nat
  | _, prop .. | _, var _ => 0
  | true, neg f => f.polarLevels false + 1
  | false, neg f => f.polarLevels true
  | true, binary _ l r => max (l.polarLevels true) (r.polarLevels true) + 1
  | false, binary op l r =>
    match op with
    | .conj | .disj => max (l.polarLevels false) (r.polarLevels false) + 1
    | .implies | .iff => max (l.polarLevels true) (r.polarLevels true) + 1
  | positive, quant _ _ f => f.polarLevels positive + 1

/-- Whether every negation stands on an atom. -/
def isNegationNormal : Formula → Bool
  | prop .. | var _ => true
  | neg f => f.isAtom
  | binary _ l r => l.isNegationNormal && r.isNegationNormal
  | quant _ _ f => f.isNegationNormal

theorem pushNegationWithin_eq (limit n : Nat) (positive : Bool) (f : Formula) :
    pushNegationWithin limit n positive f =
      withLevels limit (f.polarLevels positive) n (f.polarized positive) := by
  induction f generalizing n positive with
  | prop | var => cases positive <;> simp [pushNegationWithin, polarLevels, polarized]
  | neg f ih =>
    -- a negation that meets another one takes no level
    cases positive with
    | false => simp [pushNegationWithin, polarLevels, polarized, ih]
    | true => cases n <;> simp [pushNegationWithin, polarLevels, polarized, ih]
  | binary op l r ihl ihr =>
    cases n with
    | zero => cases positive <;> cases op <;> simp [pushNegationWithin, polarLevels]
    | succ n =>
      cases positive with
      | true =>
        simp only [pushNegationWithin, polarLevels, polarized, ihl, ihr, withLevels_succ_succ]
        exact withLevels_bind (withLevels_bind_pure ..)
      | false =>
        cases op <;>
          simp only [pushNegationWithin, polarLevels, polarized, ihl, ihr, withLevels_succ_succ] <;>
          exact withLevels_bind (withLevels_bind_pure ..)
  | quant q x f ih =>
    cases n with
    | zero => cases positive <;> simp [pushNegationWithin, polarLevels]
    | succ n =>
      cases positive <;>
        simp only [pushNegationWithin, polarLevels, polarized, ih, withLevels_succ_succ] <;>
        exact withLevels_bind_pure ..

theorem polarLevels_le_height (positive : Bool) (f : Formula) :
    f.polarLevels positive ≤ f.height := by
  induction f generalizing positive with
  | prop | var => exact Nat.zero_le _
  | neg f ih =>
    cases positive with
    | true => exact Nat.succ_le_succ (ih false)
    | false => exact Nat.le_succ_of_le (ih true)
  | binary op l r ihl ihr =>
    have hmax (s : Bool) : max (l.polarLevels s) (r.polarLevels s) ≤ max l.height r.height := by
      have hl := ihl s
      have hr := ihr s
      omega
    cases positive with
    | true => exact Nat.succ_le_succ (hmax true)
    | false => cases op <;> exact Nat.succ_le_succ (hmax _)
  | quant q x f ih => exact Nat.succ_le_succ (ih positive)

/-! ### Names and truth -/

theorem free_polarized (positive : Bool) (f : Formula) : (f.polarized positive).free = f.free := by
  induction f generalizing positive with
  | prop | var => cases positive <;> rfl
  | neg f ih => cases positive <;> exact ih _
  | binary op l r ihl ihr => cases positive <;> cases op <;> simp only [polarized, free, ihl, ihr]
  | quant q x f ih => cases positive <;> simp only [polarized, free, ih]

theorem boundNames_polarized (positive : Bool) (f : Formula) :
    (f.polarized positive).boundNames = f.boundNames := by
  induction f generalizing positive with
  | prop | var => cases positive <;> rfl
  | neg f ih => cases positive <;> exact ih _
  | binary op l r ihl ihr =>
    cases positive <;> cases op <;>
      simp only [polarized, boundNames_binary, boundNames_neg, ihl, ihr]
  | quant q x f ih => cases positive <;> simp only [polarized, boundNames_quant, ih]

theorem symbols_polarized (positive : Bool) (f : Formula) :
    (f.polarized positive).symbols = f.symbols := by
  induction f generalizing positive with
  | prop | var => cases positive <;> rfl
  | neg f ih | quant q x f ih => cases positive <;> exact ih _
  | binary op l r ihl ihr =>
    cases positive <;> cases op <;> simp only [polarized, symbols, ihl, ihr]

section Truth

variable {D : Type u} {I : Interpretation D}

/-- A negated conjunction or disjunction, by the laws of De Morgan. -/
theorem holds_neg_dual {op : Connective} (h : op = .conj ∨ op = .disj) (p q : Prop) :
    op.dual.Joins (¬ p) (¬ q) ↔ ¬ op.Joins p q := by
  rcases h with rfl | rfl
  · exact not_and_or.symm
  · exact not_or.symm

/-- Moving negations inwards keeps the truth of a formula, or turns it into its opposite. -/
theorem holds_polarized (f : Formula) (e : String → D) :
    ((f.polarized true).Holds I e ↔ f.Holds I e) ∧
      ((f.polarized false).Holds I e ↔ ¬ f.Holds I e) := by
  induction f generalizing e with
  | prop | var => exact ⟨Iff.rfl, Iff.rfl⟩
  | neg f ih =>
    -- the two halves change places
    obtain ⟨ihpos, ihneg⟩ := ih e
    refine ⟨ihneg, ?_⟩
    rw [Holds, not_not]
    exact ihpos
  | binary op l r ihl ihr =>
    have hpos : (binary op (l.polarized true) (r.polarized true)).Holds I e ↔
        (binary op l r).Holds I e :=
      op.joins_congr (ihl e).1 (ihr e).1
    have hneg (h : op = .conj ∨ op = .disj) :
        (binary op.dual (l.polarized false) (r.polarized false)).Holds I e ↔
          ¬ (binary op l r).Holds I e := by
      rw [Holds, Holds, ← holds_neg_dual h]
      exact op.dual.joins_congr (ihl e).2 (ihr e).2
    refine ⟨hpos, ?_⟩
    -- the other connectives keep the negation in front of them
    cases op with
    | conj => exact hneg (.inl rfl)
    | disj => exact hneg (.inr rfl)
    | implies | iff => exact not_congr hpos
  | quant q x f ih =>
    refine ⟨q.ranges_congr fun d => (ih _).1, ?_⟩
    -- a negation turns the quantifier over
    rw [Holds, ← Quantifier.ranges_dual]
    exact q.dual.ranges_congr fun d => (ih _).2

end Truth

/-! ### Shape -/

theorem isImplicationFree_polarized {f : Formula} (h : f.isImplicationFree) (positive : Bool) :
    (f.polarized positive).isImplicationFree := by
  induction f generalizing positive with
  | prop | var => cases positive <;> rfl
  | neg f ih => cases positive <;> exact ih h _
  | binary op l r ihl ihr =>
    simp only [isImplicationFree, Bool.and_eq_true] at h
    obtain ⟨⟨hop, hl⟩, hr⟩ := h
    cases positive <;> cases op <;>
      simp_all [polarized, isImplicationFree, Connective.dual]
  | quant q x f ih => cases positive <;> exact ih h _

/-- Where no implication stops them, negations end up on atoms. -/
theorem isNegationNormal_polarized {f : Formula} (h : f.isImplicationFree) (positive : Bool) :
    (f.polarized positive).isNegationNormal := by
  induction f generalizing positive with
  | prop | var => cases positive <;> rfl
  | neg f ih => cases positive <;> exact ih h _
  | binary op l r ihl ihr =>
    simp only [isImplicationFree, Bool.and_eq_true] at h
    obtain ⟨⟨hop, hl⟩, hr⟩ := h
    cases positive <;> cases op <;> simp_all [polarized, isNegationNormal]
  | quant q x f ih => cases positive <;> exact ih h _

/-- Negations that stand on atoms already stay where they are. -/
theorem polarized_of_isNegationNormal {f : Formula} (h : f.isNegationNormal) :
    f.polarized true = f := by
  induction f with
  | prop | var => rfl
  | neg f ih =>
    cases f with
    | prop | var => rfl
    | neg | binary | quant => cases h
  | binary op l r ihl ihr =>
    rw [isNegationNormal, Bool.and_eq_true] at h
    rw [polarized, ihl h.1, ihr h.2]
  | quant q x f ih => rw [polarized, ih h]

/-! ### The operands of negations -/

section Operands

variable {a f l r : Formula}

theorem neg_mem_subformulas_neg : neg a ∈ (neg f).subformulas ↔ a = f ∨ neg a ∈ f.subformulas := by
  simp [subformulas]

theorem neg_mem_subformulas_binary {op : Connective} :
    neg a ∈ (binary op l r).subformulas ↔ neg a ∈ l.subformulas ∨ neg a ∈ r.subformulas := by
  simp [subformulas]

theorem neg_mem_subformulas_quant {q : Quantifier} {x : String} :
    neg a ∈ (quant q x f).subformulas ↔ neg a ∈ f.subformulas := by
  simp [subformulas]

theorem neg_not_mem_subformulas_of_isAtom (h : f.isAtom) : neg a ∉ f.subformulas := by
  cases f with
  | prop | var =>
    intro ha
    cases List.mem_singleton.mp ha
  | neg | binary | quant => cases h

theorem isNegation_eq_false_of_isAtom (h : f.isAtom) : f.isNegation = false := by
  cases f with
  | prop | var => rfl
  | neg | binary | quant => cases h

/-- In negation normal form the operands of negations are atoms. -/
theorem isAtom_of_isNegationNormal (h : f.isNegationNormal) (ha : neg a ∈ f.subformulas) :
    a.isAtom := by
  induction f with
  | prop | var => exact absurd ha (neg_not_mem_subformulas_of_isAtom rfl)
  | neg f ih =>
    rcases neg_mem_subformulas_neg.mp ha with rfl | ha
    · exact h
    · exact absurd ha (neg_not_mem_subformulas_of_isAtom h)
  | binary op l r ihl ihr =>
    rw [isNegationNormal, Bool.and_eq_true] at h
    exact (neg_mem_subformulas_binary.mp ha).elim (ihl h.1) (ihr h.2)
  | quant q x f ih => exact ih h (neg_mem_subformulas_quant.mp ha)

end Operands

end ClausalForm.Formula
