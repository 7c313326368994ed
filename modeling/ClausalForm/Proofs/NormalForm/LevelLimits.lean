import ClausalForm.Proofs.NormalForm.FreshNames
import ClausalForm.Proofs.NormalForm.Junction

/-!
# When the limit of levels is reached

A pass needs as many levels as the formula has, and fails if there are fewer. Distribution needs
more where it multiplies out a disjunction of conjunctions, since it goes down both of the chains
that its operands have become, one after the other, starting below the place of the disjunction.

## Main definitions

* `Formula.subformulasAt`: the subformulas at one distance from the root
* `Formula.splits`: how high the chain at the root is after distribution

## Main results

* `chainHeight_distributed`: distribution builds chains as high as `splits` says
* `distributionLevels_le_iff`: how many levels are enough for distribution
* `isLimited_passes`: when the passes report the limit
-/

namespace ClausalForm.Formula

variable {outer : Connective}

/-! ### Distances -/

/-- The subformulas at a distance from the root, from left to right. -/
def subformulasAt : Formula → (distance : Nat) → List Formula
  | f, 0 => [f]
  | prop .., _ + 1 | var _, _ + 1 => []
  | neg f, d + 1 | quant _ _ f, d + 1 => f.subformulasAt d
  | binary _ l r, d + 1 => l.subformulasAt d ++ r.subformulasAt d

@[simp] theorem subformulasAt_zero (f : Formula) : f.subformulasAt 0 = [f] := by
  cases f <;> rfl

/-! ### Chains after distribution -/

/-- How many applications of `outer` lie one below the other at the root after distribution: below
the dual of `outer` those of both sides come together. -/
def splits (outer : Connective) : Formula → Nat
  | binary op l r =>
    if op = outer then 1 + max (l.splits outer) (r.splits outer)
    else if op = outer.dual then l.splits outer + r.splits outer
    else 0
  | _ => 0

theorem chainHeight_combined (houter : outer = .conj ∨ outer = .disj) (l r : Formula) :
    (l.combined outer r).chainHeight outer = l.chainHeight outer + r.chainHeight outer := by
  induction l, r using combined_induction outer with
  | single l r hl hr =>
    rw [combined_single hl hr, chainHeight_of_operands?_eq_none hl,
      chainHeight_of_operands?_eq_none hr]
    exact if_neg (Connective.dual_ne houter)
  | left a b r hr iha ihb =>
    rw [combined_left hr, chainHeight_binary_self, chainHeight_binary_self, iha, ihb,
      chainHeight_of_operands?_eq_none hr]
    omega
  | right l a b iha ihb =>
    rw [combined_right, chainHeight_binary_self, chainHeight_binary_self, iha, ihb]
    omega

theorem chainHeight_distributed (houter : outer = .conj ∨ outer = .disj) (f : Formula) :
    (f.distributed outer).chainHeight outer = f.splits outer := by
  induction f with
  | prop | var | neg | quant => rfl
  | binary op l r ihl ihr =>
    have hdual := Connective.dual_ne houter
    rw [distributed, splits]
    by_cases hop : op = outer
    · subst hop
      rw [if_neg hdual.symm, if_pos rfl, chainHeight_binary_self, ihl, ihr, Nat.add_comm]
    · rw [if_neg hop]
      split
      · rw [chainHeight_combined houter, ihl, ihr]
      · exact if_neg hop

/-- The levels are enough to multiply out every application of the dual of `outer` in the formula,
where one at a distance from the root has so many levels less. -/
def MultipliesWithin (outer : Connective) (m : Nat) (f : Formula) : Prop :=
  ∀ d l r, binary outer.dual l r ∈ f.subformulasAt d → d + 1 + l.splits outer + r.splits outer ≤ m

section MultipliesWithin

variable {m : Nat} {f l r : Formula}

theorem multipliesWithin_of_isAtom (h : f.isAtom) : f.MultipliesWithin outer m := by
  intro d a b hab
  cases f with
  | prop | var =>
    cases d with
    | zero => cases List.mem_singleton.mp hab
    | succ d => cases hab
  | neg | binary | quant => cases h

/-- Above a single operand everything is one level farther away. -/
theorem multipliesWithin_succ {g : Formula} (hg : g.isBinary = false)
    (hbelow : ∀ d, g.subformulasAt (d + 1) = f.subformulasAt d) :
    g.MultipliesWithin outer (m + 1) ↔ f.MultipliesWithin outer m := by
  constructor
  · intro h d a b hab
    rw [← hbelow] at hab
    have hle := h (d + 1) a b hab
    omega
  · intro h d a b hab
    cases d with
    | zero =>
      rw [subformulasAt_zero, List.mem_singleton] at hab
      rw [← hab] at hg
      cases hg
    | succ d =>
      rw [hbelow] at hab
      have hle := h d a b hab
      omega

theorem multipliesWithin_binary {op : Connective} :
    (binary op l r).MultipliesWithin outer (m + 1) ↔
      l.MultipliesWithin outer m ∧ r.MultipliesWithin outer m ∧
        (op = outer.dual → l.splits outer + r.splits outer ≤ m) := by
  constructor
  · intro h
    refine ⟨fun d a b hab => ?_, fun d a b hab => ?_, ?_⟩
    · have hle := h (d + 1) a b (List.mem_append_left _ hab)
      omega
    · have hle := h (d + 1) a b (List.mem_append_right _ hab)
      omega
    · rintro rfl
      have hle := h 0 l r (List.mem_singleton_self _)
      omega
  · rintro ⟨hl, hr, hroot⟩ d a b hab
    cases d with
    | zero =>
      obtain ⟨hop, rfl, rfl⟩ := binary.inj (List.mem_singleton.mp hab)
      have hle := hroot hop.symm
      omega
    | succ d =>
      rcases List.mem_append.mp hab with hab | hab
      · have hle := hl d a b hab
        omega
      · have hle := hr d a b hab
        omega

/-- The levels are enough for distribution if they are enough for the formula and for everything
that is multiplied out in it. -/
theorem distributionLevels_le_iff (houter : outer = .conj ∨ outer = .disj) :
    f.distributionLevels outer ≤ m ↔ f.height ≤ m ∧ f.MultipliesWithin outer m := by
  induction f generalizing m with
  | prop | var =>
    exact iff_of_true (Nat.zero_le m) ⟨Nat.zero_le m, multipliesWithin_of_isAtom rfl⟩
  | neg f ih | quant q x f ih =>
    cases m with
    | zero => exact iff_of_false (Nat.not_succ_le_zero _) fun h => Nat.not_succ_le_zero _ h.1
    | succ m =>
      rw [distributionLevels, height, multipliesWithin_succ rfl fun _ => rfl,
        Nat.add_le_add_iff_right, Nat.add_le_add_iff_right, ih]
  | binary op l r ihl ihr =>
    cases m with
    | zero => exact iff_of_false (Nat.not_succ_le_zero _) fun h => Nat.not_succ_le_zero _ h.1
    | succ m =>
      have hroot :
          (if op = outer.dual then
            (l.distributed outer).chainHeight outer + (r.distributed outer).chainHeight outer
          else 0) ≤ m ↔ (op = outer.dual → l.splits outer + r.splits outer ≤ m) := by
        rw [chainHeight_distributed houter, chainHeight_distributed houter]
        split <;> simp_all
      rw [distributionLevels, height, multipliesWithin_binary, Nat.add_le_add_iff_right,
        Nat.add_le_add_iff_right, Nat.max_le, Nat.max_le, Nat.max_le, ihl, ihr, hroot]
      constructor
      · rintro ⟨⟨hl, hlwithin⟩, ⟨hr, hrwithin⟩, hroot⟩
        exact ⟨⟨hl, hr⟩, hlwithin, hrwithin, hroot⟩
      · rintro ⟨⟨hl, hr⟩, hlwithin, hrwithin, hroot⟩
        exact ⟨⟨hl, hlwithin⟩, ⟨hr, hrwithin⟩, hroot⟩

end MultipliesWithin

/-! ### The passes -/

theorem isLimited_distributeToCnf (limits : Limits) (f : Formula) :
    IsLimited limits.depth (f.distributeToCnf limits)
      (limits.depth < f.height ∨ ∃ d l r, binary .disj l r ∈ f.subformulasAt d ∧
        limits.depth < d + 1 + l.splits .conj + r.splits .conj) := by
  rw [distributeToCnf, distributeWithin_eq]
  refine isLimited_withLevels ?_ _
  rw [← Nat.not_le (a := f.distributionLevels _), distributionLevels_le_iff (.inl rfl), not_and_or,
    Nat.not_le]
  refine or_congr_right ?_
  simp only [MultipliesWithin, not_forall, Nat.not_le, exists_prop]
  rfl

theorem isLimited_skolemize (limits : Limits) (f : Formula) :
    IsLimited limits.depth (f.skolemize limits).result (limits.depth < f.height) := by
  obtain ⟨p, hp⟩ := exists_skolemizeWithin_eq limits.depth limits.depth {} [] f
  have hresult : (f.skolemize limits).result =
      withLevels limits.depth f.height limits.depth p.1 := by
    simp only [skolemize, Journal.result_bind, hp]
    exact withLevels_bind_pure ..
  rw [hresult]
  exact isLimited_withLevels Iff.rfl _

theorem standardize_eq_error_iff (limits : Limits) (f : Formula) :
    (f.standardize limits).result = .error (.recursionLimit limits.depth) ↔
      limits.depth < f.height := by
  constructor
  · intro h
    by_contra hle
    obtain ⟨_, _, _, he⟩ := isStuck_of_standardize (Nat.le_of_not_lt hle) h
    cases he
  · intro hlt
    simp only [standardize, Journal.result_bind, Journal.result_ofExcept, freeVariables_eq,
      withLevels, if_neg (Nat.not_le.mpr hlt)]
    rfl

/-- When the passes report the limit of levels. Eliminating implications, hoisting quantifiers,
skolemizing and collecting free variables need as many levels as the formula has. So does
standardizing, which may also fail for want of names. Moving negations inwards never needs more. In
distribution a disjunction needs levels for both of the chains that it joins, on top of those above
it. -/
theorem isLimited_passes (limits : Limits) (f : Formula) :
    IsLimited limits.depth (f.eliminateImplication limits) (limits.depth < f.height) ∧
      IsLimited limits.depth (f.hoistQuantifiers limits) (limits.depth < f.height) ∧
      IsLimited limits.depth (f.skolemize limits).result (limits.depth < f.height) ∧
      IsLimited limits.depth (f.freeVariables limits) (limits.depth < f.height) ∧
      ((f.standardize limits).result = .error (.recursionLimit limits.depth) ↔
        limits.depth < f.height) ∧
      (∀ e, (f.standardize limits).result = .error e →
        e = .recursionLimit limits.depth ∨ ∃ x, e = .namesExhausted x limits.suffix) ∧
      (f.height ≤ limits.depth → ∃ g, f.pushNegation limits = .ok g) ∧
      IsLimited limits.depth (f.distributeToCnf limits)
        (limits.depth < f.height ∨ ∃ d l r, binary .disj l r ∈ f.subformulasAt d ∧
          limits.depth < d + 1 + l.splits .conj + r.splits .conj) := by
  refine ⟨?_, ?_, isLimited_skolemize limits f, ?_, standardize_eq_error_iff limits f, ?_, ?_,
    isLimited_distributeToCnf limits f⟩
  · rw [eliminateImplication, eliminateImplicationWithin_eq]
    exact isLimited_withLevels Iff.rfl _
  · rw [hoistQuantifiers_eq]
    exact isLimited_withLevels Iff.rfl _
  · rw [freeVariables_eq]
    exact isLimited_withLevels Iff.rfl _
  · intro e he
    by_cases hheight : f.height ≤ limits.depth
    · obtain ⟨_, x, _, hx⟩ := isStuck_of_standardize hheight he
      exact .inr ⟨x, hx⟩
    · rw [(standardize_eq_error_iff limits f).mpr (Nat.lt_of_not_le hheight)] at he
      exact .inl (Except.error.inj he).symm
  · intro hheight
    refine ⟨f.polarized true, ?_⟩
    rw [pushNegation, pushNegationWithin_eq, withLevels_eq_ok_iff]
    exact ⟨Nat.le_trans (polarLevels_le_height true f) hheight, rfl⟩

/-- A disjunction of two conjunctions below a negation: three levels are enough for the formula, but
not for multiplying it out. -/
theorem isLimited_passes_negated_disjunction :
    let c := binary .conj (prop "A" []) (prop "B" [])
    let f := neg (binary .disj c c)
    (∃ g, f.eliminateImplication { depth := 3 } = .ok g) ∧
      (∃ g, f.pushNegation { depth := 3 } = .ok g) ∧
      f.distributeToCnf { depth := 3 } = .error (.recursionLimit 3) ∧
      (f.standardize { depth := 2 }).result = .error (.recursionLimit 2) := by
  intro c f
  obtain ⟨heliminate, -, -, -, -, -, hpush, hdistribute⟩ := isLimited_passes { depth := 3 } f
  obtain ⟨-, -, -, -, hstandardize, -⟩ := isLimited_passes { depth := 2 } f
  refine ⟨heliminate.exists_ok (Nat.lt_irrefl 3), hpush (Nat.le_refl 3), ?_, ?_⟩
  · -- the disjunction stands one level below the root, and each of its operands brings one more
    exact hdistribute.error_iff.mpr
      (.inr ⟨1, c, c, List.mem_singleton_self _, Nat.lt_succ_self 3⟩)
  · exact hstandardize.mpr (Nat.lt_succ_self 2)

end ClausalForm.Formula
