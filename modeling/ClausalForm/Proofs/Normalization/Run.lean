import ClausalForm.Normalization
import ClausalForm.Proofs.NormalForm.Apart
import ClausalForm.Proofs.NormalForm.NegationChains
import ClausalForm.Proofs.NormalForm.Prenex

/-!
# Runs of the normalization

A normalization that succeeds is a chain of passes, each of which has succeeded on what the one
before it left. The stages up to the prenex form are then given by functions of the tree, and the
shapes that these establish are there for the stages after them.

## Main definitions

* `Normalization.IsRun`: every stage comes from the stage before it

## Main results

* `normalize_eq_ok_iff`: normalization succeeds exactly with its runs
* `IsRun.result_pass`: each pass of a run by itself
* `IsRun.negationPushed_eq`, `IsRun.prenex_eq`: what the stages are
* `IsRun.bindersApart`: the binders of the standardized stage
-/

namespace ClausalForm

/-- Every stage of `r` comes from the stage before it, the first one being `f`. -/
structure Normalization.IsRun (limits : Limits) (f : Formula) (r : Normalization) : Prop where
  given : r.given = f
  implicationFree : f.eliminateImplication limits = .ok r.implicationFree
  negationPushed : r.implicationFree.pushNegation limits = .ok r.negationPushed
  doubleNegationFree : r.negationPushed.removeDoubleNegation limits = .ok r.doubleNegationFree
  standardized : (r.doubleNegationFree.standardize limits).result = .ok r.standardized
  prenex : r.standardized.hoistQuantifiers limits = .ok r.prenex
  skolemized : (r.prenex.skolemize limits).result = .ok r.skolemized
  quantifierFree : r.quantifierFree = r.skolemized.dropQuantifiers
  cnf : r.quantifierFree.distributeToCnf limits = .ok r.cnf
  cnfPrenex : r.prenex.toConjunctivePrenex limits = .ok r.cnfPrenex
  dnfPrenex : r.prenex.toDisjunctivePrenex limits = .ok r.dnfPrenex

namespace Formula

variable {limits : Limits} {f g : Formula}

theorem eq_expanded_of_eliminateImplication (h : f.eliminateImplication limits = .ok g) :
    g = f.expanded := by
  rw [eliminateImplication, eliminateImplicationWithin_eq, withLevels_eq_ok_iff] at h
  exact h.2.symm

theorem eq_polarized_of_pushNegation (h : f.pushNegation limits = .ok g) :
    g = f.polarized true := by
  rw [pushNegation, pushNegationWithin_eq, withLevels_eq_ok_iff] at h
  exact h.2.symm

/-- Once negations stand on atoms, no chain of them is left to collapse. -/
theorem eq_of_removeDoubleNegation (hf : f.isNegationNormal)
    (h : f.removeDoubleNegation limits = .ok g) : g = f := by
  have hchain (a : Formula) (ha : .neg a ∈ f.subformulas) : a.isNegation = false :=
    isNegation_eq_false_of_isAtom (isAtom_of_isNegationNormal hf ha)
  rw [removeDoubleNegation, removeDoubleNegationWithin_eq_self hchain, withLevels_eq_ok_iff] at h
  exact h.2.symm

end Formula

/-- Reporting a stage does not change what it is. -/
@[simp] theorem result_reach (stage : Stage) (x : Journal PassError Formula) :
    (reach stage x).result = x.result := by
  rw [reach, Journal.result_bind]
  cases x.result <;> rfl

/-- Normalization succeeds exactly with its runs. -/
theorem Formula.normalize_eq_ok_iff {limits : Limits} {f : Formula} {r : Normalization} :
    (f.normalize limits).result = .ok r ↔ r.IsRun limits f := by
  simp only [normalize, Journal.result_bind, result_reach, Journal.result_pure,
    Journal.result_ofExcept, Journal.result_report, bind_eq_ok_iff, Except.ok.injEq]
  constructor
  -- every `reach` hands on the formula of its pass
  · rintro ⟨_, rfl, _, h₁, _, h₂, _, h₃, _, h₄, _, h₅, _, h₆, _, rfl, _, h₇, _, h₈, _, h₉, _, _,
      rfl⟩
    exact ⟨rfl, h₁, h₂, h₃, h₄, h₅, h₆, rfl, h₇, h₈, h₉⟩
  · rintro ⟨rfl, h₁, h₂, h₃, h₄, h₅, h₆, h, h₇, h₈, h₉⟩
    exact ⟨_, rfl, _, h₁, _, h₂, _, h₃, _, h₄, _, h₅, _, h₆, _, rfl, _, h ▸ h₇, _, h₈, _, h₉, (),
      trivial, by rw [← h]⟩

namespace Normalization.IsRun

variable {limits : Limits} {f : Formula} {r : Normalization}

/-- Each pass of a run by itself comes to the formula at its stage, so that the time that the pass
takes is that of the stage. -/
theorem result_pass (h : r.IsRun limits f) (stage : Stage) :
    (r.pass limits stage).result = .ok (r.formula stage) := by
  cases stage with
  | given => rfl
  | implicationFree =>
    rw [pass, h.given]
    exact h.implicationFree
  | negationPushed => exact h.negationPushed
  | doubleNegationFree => exact h.doubleNegationFree
  | standardized => exact h.standardized
  | prenex => exact h.prenex
  | skolemized => exact h.skolemized
  | quantifierFree => exact congrArg Except.ok h.quantifierFree.symm
  | cnf => exact h.cnf
  | cnfPrenex => exact h.cnfPrenex
  | dnfPrenex => exact h.dnfPrenex

theorem implicationFree_eq (h : r.IsRun limits f) : r.implicationFree = f.expanded :=
  Formula.eq_expanded_of_eliminateImplication h.implicationFree

theorem negationPushed_eq (h : r.IsRun limits f) :
    r.negationPushed = f.expanded.polarized true := by
  rw [Formula.eq_polarized_of_pushNegation h.negationPushed, h.implicationFree_eq]

theorem doubleNegationFree_eq (h : r.IsRun limits f) :
    r.doubleNegationFree = r.negationPushed := by
  refine Formula.eq_of_removeDoubleNegation ?_ h.doubleNegationFree
  rw [h.negationPushed_eq]
  exact Formula.isNegationNormal_polarized (Formula.isImplicationFree_expanded f) true

theorem isImplicationFree_doubleNegationFree (h : r.IsRun limits f) :
    r.doubleNegationFree.isImplicationFree := by
  rw [h.doubleNegationFree_eq, h.negationPushed_eq]
  exact Formula.isImplicationFree_polarized (Formula.isImplicationFree_expanded f) true

theorem isNegationNormal_doubleNegationFree (h : r.IsRun limits f) :
    r.doubleNegationFree.isNegationNormal := by
  rw [h.doubleNegationFree_eq, h.negationPushed_eq]
  exact Formula.isNegationNormal_polarized (Formula.isImplicationFree_expanded f) true

theorem isImplicationFree_standardized (h : r.IsRun limits f) :
    r.standardized.isImplicationFree := by
  obtain ⟨_, _, _, _, _, hstd⟩ := Formula.standardizes_of_standardize h.standardized
  rw [hstd.isImplicationFree_eq]
  exact h.isImplicationFree_doubleNegationFree

theorem isNegationNormal_standardized (h : r.IsRun limits f) :
    r.standardized.isNegationNormal := by
  obtain ⟨_, _, _, _, _, hstd⟩ := Formula.standardizes_of_standardize h.standardized
  rw [hstd.isNegationNormal_eq]
  exact h.isNegationNormal_doubleNegationFree

theorem free_standardized (h : r.IsRun limits f) :
    r.standardized.free = r.doubleNegationFree.free := by
  obtain ⟨_, _, _, hscoped, _, hstd⟩ := Formula.standardizes_of_standardize h.standardized
  exact hstd.free_eq hscoped

/-- Standardization leaves the variables of the formula free. -/
theorem mem_free_standardized (h : r.IsRun limits f) {x : String} :
    x ∈ r.standardized.free ↔ x ∈ f.free := by
  rw [h.free_standardized, h.doubleNegationFree_eq, h.negationPushed_eq, Formula.free_polarized,
    Formula.mem_free_expanded]

/-- After standardization every quantifier binds a name of its own, which is free nowhere. -/
theorem bindersApart (h : r.IsRun limits f) : r.standardized.BindersApart :=
  Formula.bindersApart_of_standardize h.standardized

theorem prenex_eq (h : r.IsRun limits f) :
    r.prenex = r.standardized.core.quantify r.standardized.binders := by
  have hrun := h.prenex
  rw [Formula.hoistQuantifiers_eq, withLevels_eq_ok_iff] at hrun
  exact hrun.2.symm

theorem quantifierPrefix_prenex (h : r.IsRun limits f) :
    r.prenex.quantifierPrefix = r.standardized.binders := by
  rw [h.prenex_eq, Formula.quantifierPrefix_quantify (Formula.isQuantifierFree_core _)]

theorem matrix_prenex (h : r.IsRun limits f) : r.prenex.matrix = r.standardized.core := by
  rw [h.prenex_eq, Formula.matrix_quantify (Formula.isQuantifierFree_core _)]

/-- No pass up to the prenex form adds a symbol. -/
theorem mem_symbols_core (h : r.IsRun limits f) {s : String}
    (hs : s ∈ r.standardized.core.symbols) : s ∈ f.symbols := by
  obtain ⟨_, _, _, _, _, hstd⟩ := Formula.standardizes_of_standardize h.standardized
  rw [Formula.symbols_core] at hs
  have hs := hstd.mem_symbols hs
  rwa [h.doubleNegationFree_eq, h.negationPushed_eq, Formula.symbols_polarized,
    Formula.mem_symbols_expanded] at hs

end Normalization.IsRun

end ClausalForm
