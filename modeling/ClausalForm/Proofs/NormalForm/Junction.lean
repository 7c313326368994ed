import ClausalForm.Proofs.NormalForm.Distribution
import ClausalForm.Proofs.NormalForm.Prenex

/-!
# The shape of distributed formulas

Where negations stand on atoms and there is no quantifier and no implication, distribution leaves
a formula of three layers: one connective at the root, its dual below it, and literals below that.
Such a formula still has the shapes that distribution started from.

## Main definitions

* `Formula.isLiteral`: whether a formula is an atom or a negated atom
* `Formula.isJoined`: whether a formula is joined by one connective from formulas of a kind
* `Formula.isCnf`, `Formula.isDnf`: conjunctions of disjunctions of literals, and the dual
* `Formula.IsDistributed`: distribution finds nothing to do

## Main results

* `isLayered_combined`, `isLayered_distributeWithin`: the layers that distribution leaves
* `isPlain_of_isLayered`: the shapes of a formula with such layers
* `isDistributed_of_isLayered`: distribution leaves it as it is
* `isClause_of_mem_clauses`: the clauses of a conjunctive form are disjunctions of literals
-/

namespace ClausalForm

namespace Connective

variable {op outer : Connective}

theorem dual_ne (h : op = .conj ∨ op = .disj) : op.dual ≠ op := by
  rcases h with rfl | rfl <;> decide

theorem dual_eq_conj_or_disj (h : op = .conj ∨ op = .disj) :
    op.dual = .conj ∨ op.dual = .disj := by
  rcases h with rfl | rfl <;> decide

/-- Of conjunction and disjunction, what is not the dual of one is this one. -/
theorem eq_of_ne_dual (houter : outer = .conj ∨ outer = .disj) (hop : op = .conj ∨ op = .disj)
    (h : op ≠ outer.dual) : op = outer := by
  rcases houter with rfl | rfl <;> rcases hop with rfl | rfl <;> simp_all [dual]

end Connective

namespace Formula

/-! ### Layers -/

/-- Whether a formula is an atom or the negation of an atom. -/
def isLiteral : Formula → Bool
  | neg f => f.isAtom
  | f => f.isAtom

/-- Whether a formula is joined by `op` alone from formulas with the property `p`. -/
def isJoined (op : Connective) (p : Formula → Bool) : Formula → Bool
  | binary op' l r => p (binary op' l r) || (op' == op && l.isJoined op p && r.isJoined op p)
  | f => p f

/-- Whether a formula is joined by `outer` from formulas that its dual joins from literals. -/
def isLayered (outer : Connective) : Formula → Bool :=
  isJoined outer (isJoined outer.dual isLiteral)

/-- Whether a formula is a disjunction of literals. -/
def isClause : Formula → Bool := isJoined .disj isLiteral

/-- Whether a formula is a conjunction of disjunctions of literals. -/
def isCnf : Formula → Bool := isJoined .conj isClause

/-- Whether a formula is a disjunction of conjunctions of literals. -/
def isDnf : Formula → Bool := isJoined .disj (isJoined .conj isLiteral)

variable {op outer : Connective} {p : Formula → Bool} {f l r : Formula}

theorem isJoined_of (h : p f) : f.isJoined op p := by
  cases f <;> simp [isJoined, h]

theorem isJoined_binary :
    (binary op l r).isJoined op p ↔ p (binary op l r) ∨ l.isJoined op p ∧ r.isJoined op p := by
  simp [isJoined]

/-- What holds of the parts of a formula and passes the connective holds of the formula. -/
theorem isJoined_induction {Q : Formula → Prop} (hp : ∀ f, p f → Q f)
    (hjoin : ∀ l r, Q l → Q r → Q (binary op l r)) (h : f.isJoined op p) : Q f := by
  induction f with
  | binary op' l r ihl ihr =>
    simp only [isJoined, Bool.or_eq_true, Bool.and_eq_true, beq_iff_eq] at h
    rcases h with h | ⟨⟨rfl, hl⟩, hr⟩
    · exact hp _ h
    · exact hjoin l r (ihl hl) (ihr hr)
  | prop | var | neg | quant => exact hp _ h

/-- The parts of a formula are what its chain takes it apart into. -/
theorem forall_mem_chain (hp : ∀ l r, p (binary op l r) = false) (h : f.isJoined op p) :
    ∀ c ∈ f.chain op, p c := by
  induction f with
  | binary op' l r ihl ihr =>
    simp only [isJoined, Bool.or_eq_true, Bool.and_eq_true, beq_iff_eq] at h
    rw [chain]
    split
    · rename_i hop
      subst hop
      obtain h | ⟨⟨-, hl⟩, hr⟩ := h
      · exact absurd h (by simp [hp])
      · exact List.forall_mem_append.mpr ⟨ihl hl, ihr hr⟩
    · rename_i hop
      exact List.forall_mem_singleton.mpr (h.resolve_right fun h => hop h.1.1)
  | prop | var | neg | quant => exact List.forall_mem_singleton.mpr h

/-- No application of a connective is a clause of its dual. -/
theorem isJoined_dual_binary (houter : outer = .conj ∨ outer = .disj) (l r : Formula) :
    (binary outer l r).isJoined outer.dual isLiteral = false := by
  simp [isJoined, isLiteral, isAtom, (Connective.dual_ne houter).symm]

theorem isClause_of_mem_clauses (h : f.isCnf) : ∀ c ∈ f.clauses, c.isClause :=
  forall_mem_chain (isJoined_dual_binary (.inl rfl)) h

/-! ### The shapes of a formula with layers -/

/-- No implication, no quantifier, and negations on atoms only. -/
structure IsPlain (f : Formula) : Prop where
  implicationFree : f.isImplicationFree
  negationNormal : f.isNegationNormal
  quantifierFree : f.isQuantifierFree

theorem IsPlain.left (h : (binary op l r).IsPlain) : l.IsPlain := by
  obtain ⟨himp, hneg, hquant⟩ := h
  simp only [isImplicationFree, isNegationNormal, isQuantifierFree, Bool.and_eq_true]
    at himp hneg hquant
  exact ⟨himp.1.2, hneg.1, hquant.1⟩

theorem IsPlain.right (h : (binary op l r).IsPlain) : r.IsPlain := by
  obtain ⟨himp, hneg, hquant⟩ := h
  simp only [isImplicationFree, isNegationNormal, isQuantifierFree, Bool.and_eq_true]
    at himp hneg hquant
  exact ⟨himp.2, hneg.2, hquant.2⟩

theorem IsPlain.op_eq (h : (binary op l r).IsPlain) : op = .conj ∨ op = .disj := by
  have himp := h.implicationFree
  simp only [isImplicationFree, Bool.and_eq_true, Bool.or_eq_true, beq_iff_eq] at himp
  exact himp.1.1

theorem IsPlain.binary (hop : op = .conj ∨ op = .disj) (hl : l.IsPlain) (hr : r.IsPlain) :
    (Formula.binary op l r).IsPlain where
  implicationFree := by
    rcases hop with rfl | rfl <;> simp [isImplicationFree, hl.implicationFree, hr.implicationFree]
  negationNormal := by simp [isNegationNormal, hl.negationNormal, hr.negationNormal]
  quantifierFree := by simp [isQuantifierFree, hl.quantifierFree, hr.quantifierFree]

theorem isPlain_of_isLiteral (h : f.isLiteral) : f.IsPlain := by
  cases f with
  | prop | var => exact ⟨rfl, rfl, rfl⟩
  | neg f =>
    -- below the negation stands an atom
    cases f with
    | prop | var => exact ⟨rfl, rfl, rfl⟩
    | neg | binary | quant => cases h
  | binary | quant => cases h

theorem isPlain_of_isLayered (houter : outer = .conj ∨ outer = .disj) (h : f.isLayered outer) :
    f.IsPlain := by
  have hdual := Connective.dual_eq_conj_or_disj houter
  refine isJoined_induction (fun c hc => ?_) (fun l r => IsPlain.binary houter) h
  exact isJoined_induction (fun _ => isPlain_of_isLiteral) (fun l r => IsPlain.binary hdual) hc

/-! ### Distribution -/

/-- Joining two formulas with layers operand by operand leaves a formula with layers. -/
theorem isLayered_combined (houter : outer = .conj ∨ outer = .disj) (hl : l.isLayered outer)
    (hr : r.isLayered outer) : (l.combined outer r).isLayered outer := by
  -- a formula without `outer` at its root is a single part
  have hpart {f : Formula} (hf : f.isLayered outer) (hnone : f.operands? outer = none) :
      f.isJoined outer.dual isLiteral := by
    cases f with
    | binary op a b =>
      simp only [isLayered, isJoined, Bool.or_eq_true, Bool.and_eq_true, beq_iff_eq] at hf ⊢
      exact hf.resolve_right fun h => ne_of_operands?_eq_none hnone h.1.1
    | prop | var | neg | quant => exact hf
  have hoperands {a b : Formula} (hf : (binary outer a b).isLayered outer) :
      a.isLayered outer ∧ b.isLayered outer := by
    refine (isJoined_binary.mp hf).resolve_left fun h => ?_
    rw [isJoined_dual_binary houter] at h
    cases h
  induction l, r using combined_induction outer with
  | single l r hl' hr' =>
    rw [combined_single hl' hr']
    exact isJoined_of (isJoined_binary.mpr (.inr ⟨hpart hl hl', hpart hr hr'⟩))
  | left a b r hr' iha ihb =>
    rw [combined_left hr']
    exact isJoined_binary.mpr (.inr ⟨iha (hoperands hl).1 hr, ihb (hoperands hl).2 hr⟩)
  | right l a b iha ihb =>
    rw [combined_right]
    exact isJoined_binary.mpr (.inr ⟨iha hl (hoperands hr).1, ihb hl (hoperands hr).2⟩)

theorem isLayered_distributed (houter : outer = .conj ∨ outer = .disj) (hf : f.IsPlain) :
    (f.distributed outer).isLayered outer := by
  induction f with
  | prop | var => rfl
  | neg f ih =>
    -- the operand is an atom, which distribution leaves as it is
    have hatom : f.isAtom := hf.negationNormal
    cases f with
    | prop | var => rfl
    | neg | binary | quant => cases hatom
  | binary op l r ihl ihr =>
    rw [distributed]
    split
    · exact isLayered_combined houter (ihl hf.left) (ihr hf.right)
    · -- the other one of the two connectives is `outer`
      rename_i hop
      obtain rfl := Connective.eq_of_ne_dual houter hf.op_eq hop
      exact isJoined_binary.mpr (.inr ⟨ihl hf.left, ihr hf.right⟩)
  | quant => cases hf.quantifierFree

/-- Distribution leaves layers of a plain formula. -/
theorem isLayered_distributeWithin (houter : outer = .conj ∨ outer = .disj) {limit n : Nat}
    {g : Formula} (hf : f.IsPlain) (h : distributeWithin limit outer n f = .ok g) :
    g.isLayered outer := by
  rw [distributeWithin_eq, withLevels_eq_ok_iff] at h
  obtain ⟨-, rfl⟩ := h
  exact isLayered_distributed houter hf

/-- Distribution finds nothing to do in the formula. -/
structure IsDistributed (outer : Connective) (f : Formula) : Prop where
  distributed_eq : f.distributed outer = f
  distributionLevels_eq : f.distributionLevels outer = f.height

theorem isDistributed_of_isLiteral (h : f.isLiteral) : f.IsDistributed outer := by
  cases f with
  | prop | var => exact ⟨rfl, rfl⟩
  | neg f =>
    cases f with
    | prop | var => exact ⟨rfl, rfl⟩
    | neg | binary | quant => cases h
  | binary | quant => cases h

/-- A part of a formula with layers is distributed: no `outer` is below the dual of `outer`. -/
theorem isDistributed_of_isJoined_dual (houter : outer = .conj ∨ outer = .disj)
    (h : f.isJoined outer.dual isLiteral) :
    f.IsDistributed outer ∧ f.operands? outer = none := by
  refine isJoined_induction (Q := fun f => f.IsDistributed outer ∧ f.operands? outer = none)
    (fun f hf => ?_) (fun l r hl hr => ?_) h
  · refine ⟨isDistributed_of_isLiteral hf, ?_⟩
    cases f with
    | prop | var | neg => rfl
    | binary | quant => cases hf
  · obtain ⟨⟨hl, hlLevels⟩, hlNone⟩ := hl
    obtain ⟨⟨hr, hrLevels⟩, hrNone⟩ := hr
    refine ⟨⟨?_, ?_⟩, if_neg (Connective.dual_ne houter)⟩
    · rw [distributed, if_pos rfl, hl, hr, combined_single hlNone hrNone]
    · rw [distributionLevels, if_pos rfl, hl, hr, chainHeight_of_operands?_eq_none hlNone,
        chainHeight_of_operands?_eq_none hrNone, hlLevels, hrLevels, height, Nat.max_zero]

/-- A formula with layers is distributed. -/
theorem isDistributed_of_isLayered (houter : outer = .conj ∨ outer = .disj)
    (h : f.isLayered outer) : f.IsDistributed outer := by
  have hdual := (Connective.dual_ne houter).symm
  refine isJoined_induction (fun f hf => (isDistributed_of_isJoined_dual houter hf).1)
    (fun l r hl hr => ?_) h
  constructor
  · rw [distributed, if_neg hdual, hl.distributed_eq, hr.distributed_eq]
  · rw [distributionLevels, if_neg hdual, hl.distributionLevels_eq, hr.distributionLevels_eq,
      height, Nat.max_zero]

end Formula

end ClausalForm
