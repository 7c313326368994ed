import ClausalForm.Proofs.NormalForm.Junction
import ClausalForm.Proofs.Normalization.Clauses

/-!
# Shapes of the stages

Every pass establishes a shape, and no later pass gives it up: what is without implications stays
so, negations stay on atoms, binders stay apart as long as there are any, and the quantifiers that
are in front or gone do not come back.

## Main definitions

* `Normalization.KeepsShapes`: the shapes of all stages

## Main results

* `isPlain_matrix`, `isPlain_quantifierFree`: the shapes with which distribution starts
* `isCnf_cnf`, `isCnf_cnfPrenex`, `isDnf_dnfPrenex`: the shapes that it leaves
* `normalize_keepsShapes`: every run keeps the shapes
-/

namespace ClausalForm

namespace Formula

theorem IsPlain.subst {f : Formula} (h : f.IsPlain) (x : String) (r : Term) :
    (f.subst x r).IsPlain where
  implicationFree := by rw [isImplicationFree_subst, h.implicationFree]
  negationNormal := by rw [isNegationNormal_subst, h.negationNormal]
  quantifierFree := by rw [isQuantifierFree_subst, h.quantifierFree]

theorem IsPlain.instantiate {f : Formula} (h : f.IsPlain) (terms : List (String × Term)) :
    (f.instantiate terms).IsPlain := by
  induction terms generalizing f with
  | nil => exact h
  | cons p terms ih => exact ih (h.subst p.1 p.2)

end Formula

namespace Normalization.IsRun

variable {limits : Limits} {f : Formula} {r : Normalization}

theorem isPlain_matrix (h : r.IsRun limits f) : r.prenex.matrix.IsPlain := by
  rw [h.matrix_prenex]
  refine ⟨?_, ?_, Formula.isQuantifierFree_core _⟩
  · rw [Formula.isImplicationFree_core]
    exact h.isImplicationFree_standardized
  · exact Formula.isNegationNormal_core h.isNegationNormal_standardized

theorem isPlain_quantifierFree (h : r.IsRun limits f) : r.quantifierFree.IsPlain := by
  rw [h.quantifierFree_eq]
  exact h.isPlain_matrix.instantiate _

/-- With its quantifiers in front the formula binds the same names, and no more are free. -/
theorem bindersApart_prenex (h : r.IsRun limits f) : r.prenex.BindersApart := by
  have hbound : r.prenex.boundNames = r.standardized.boundNames := by
    rw [h.prenex_eq, Formula.boundNames_quantify,
      Formula.boundNames_of_isQuantifierFree (Formula.isQuantifierFree_core _), List.append_nil]
    rfl
  refine ⟨hbound ▸ h.bindersApart.nodup, fun x hx hfree => ?_⟩
  rw [hbound] at hx
  rw [h.prenex_eq, h.bindersApart.free_quantify_core] at hfree
  exact h.bindersApart.not_free x hx hfree

theorem matrix_skolemized (h : r.IsRun limits f) : r.skolemized.matrix = r.quantifierFree := by
  rw [h.skolemized_eq, h.quantifierFree_eq]
  exact Formula.matrix_quantify (h.isPlain_matrix.instantiate _).quantifierFree _

theorem quantifierPrefix_skolemized (h : r.IsRun limits f) :
    r.skolemized.quantifierPrefix = Formula.universals r.prenex.quantifierPrefix := by
  rw [h.skolemized_eq]
  exact Formula.quantifierPrefix_quantify (h.isPlain_matrix.instantiate _).quantifierFree _

/-! ### Conjunctive and disjunctive form -/

theorem isCnf_cnf (h : r.IsRun limits f) : r.cnf.isCnf :=
  Formula.isLayered_distributeWithin (.inl rfl) h.isPlain_quantifierFree h.cnf

/-- Without its quantifiers the prenex form is its matrix. -/
theorem stripQuantifiers_prenex (h : r.IsRun limits f) {g : Formula}
    (hg : r.prenex.stripQuantifiers limits = .ok g) : g = r.prenex.matrix := by
  rw [Formula.stripQuantifiers_eq, withLevels_eq_ok_iff, h.prenex_eq_quantify,
    Formula.core_quantify, Formula.core_of_isQuantifierFree h.isQuantifierFree_matrix,
    ← h.prenex_eq_quantify] at hg
  exact hg.2.symm

theorem isCnf_cnfPrenex (h : r.IsRun limits f) : r.cnfPrenex.isCnf := by
  have hrun := h.cnfPrenex
  rw [Formula.toConjunctivePrenex, bind_eq_ok_iff] at hrun
  obtain ⟨g, hg, hrun⟩ := hrun
  obtain rfl := h.stripQuantifiers_prenex hg
  exact Formula.isLayered_distributeWithin (.inl rfl) h.isPlain_matrix hrun

theorem isDnf_dnfPrenex (h : r.IsRun limits f) : r.dnfPrenex.isDnf := by
  have hrun := h.dnfPrenex
  rw [Formula.toDisjunctivePrenex, bind_eq_ok_iff] at hrun
  obtain ⟨g, hg, hrun⟩ := hrun
  obtain rfl := h.stripQuantifiers_prenex hg
  exact Formula.isLayered_distributeWithin (.inr rfl) h.isPlain_matrix hrun

/-! ### All stages -/

/-- From the Skolem form on, every stage is plain below its quantifiers. -/
theorem isPlain_formula (h : r.IsRun limits f) {stage : Stage}
    (hstage : Stage.quantifierFree.index ≤ stage.index) : (r.formula stage).IsPlain := by
  cases stage with
  | quantifierFree => exact h.isPlain_quantifierFree
  | cnf => exact Formula.isPlain_of_isLayered (.inl rfl) h.isCnf_cnf
  | cnfPrenex => exact Formula.isPlain_of_isLayered (.inl rfl) h.isCnf_cnfPrenex
  | dnfPrenex => exact Formula.isPlain_of_isLayered (.inr rfl) h.isDnf_dnfPrenex
  | _ => exact absurd hstage (by decide)

theorem isImplicationFree_formula (h : r.IsRun limits f) {stage : Stage}
    (hstage : Stage.implicationFree.index ≤ stage.index) :
    (r.formula stage).isImplicationFree := by
  cases stage with
  | given => exact absurd hstage (by decide)
  | implicationFree =>
    show r.implicationFree.isImplicationFree
    rw [h.implicationFree_eq]
    exact Formula.isImplicationFree_expanded f
  | negationPushed =>
    show r.negationPushed.isImplicationFree
    rw [← h.doubleNegationFree_eq]
    exact h.isImplicationFree_doubleNegationFree
  | doubleNegationFree => exact h.isImplicationFree_doubleNegationFree
  | standardized => exact h.isImplicationFree_standardized
  | prenex =>
    show r.prenex.isImplicationFree
    rw [h.prenex_eq_quantify, Formula.isImplicationFree_quantify]
    exact h.isPlain_matrix.implicationFree
  | skolemized =>
    show r.skolemized.isImplicationFree
    rw [h.skolemized_eq, Formula.isImplicationFree_quantify]
    exact (h.isPlain_matrix.instantiate _).implicationFree
  | quantifierFree | cnf | cnfPrenex | dnfPrenex =>
    exact (h.isPlain_formula (by decide)).implicationFree

theorem isNegationNormal_formula (h : r.IsRun limits f) {stage : Stage}
    (hstage : Stage.negationPushed.index ≤ stage.index) :
    (r.formula stage).isNegationNormal := by
  cases stage with
  | given | implicationFree => exact absurd hstage (by decide)
  | negationPushed =>
    show r.negationPushed.isNegationNormal
    rw [← h.doubleNegationFree_eq]
    exact h.isNegationNormal_doubleNegationFree
  | doubleNegationFree => exact h.isNegationNormal_doubleNegationFree
  | standardized => exact h.isNegationNormal_standardized
  | prenex =>
    show r.prenex.isNegationNormal
    rw [h.prenex_eq_quantify, Formula.isNegationNormal_quantify]
    exact h.isPlain_matrix.negationNormal
  | skolemized =>
    show r.skolemized.isNegationNormal
    rw [h.skolemized_eq, Formula.isNegationNormal_quantify]
    exact (h.isPlain_matrix.instantiate _).negationNormal
  | quantifierFree | cnf | cnfPrenex | dnfPrenex =>
    exact (h.isPlain_formula (by decide)).negationNormal

end Normalization.IsRun

/-! ### The shapes together -/

/-- The shapes of the stages. Each is established by one pass and kept by all later ones. -/
structure Normalization.KeepsShapes (r : Normalization) : Prop where
  implicationFree : ∀ stage, Stage.implicationFree.index ≤ stage.index →
    (r.formula stage).isImplicationFree
  negationNormal : ∀ stage, Stage.negationPushed.index ≤ stage.index →
    (r.formula stage).isNegationNormal
  doubleNegationFree : r.doubleNegationFree = r.negationPushed
  standardizedApart : r.standardized.BindersApart
  prenexApart : r.prenex.BindersApart
  prenexMatrix : r.prenex.matrix.isQuantifierFree
  skolemizedMatrix : r.skolemized.matrix.isQuantifierFree
  skolemizedPrefix : ∀ b ∈ r.skolemized.quantifierPrefix, b.quantifier = .universal
  quantifierFree : ∀ stage, Stage.quantifierFree.index ≤ stage.index →
    (r.formula stage).isQuantifierFree
  cnf : r.cnf.isCnf
  cnfPrenex : r.cnfPrenex.isCnf
  dnfPrenex : r.dnfPrenex.isDnf
  clauses : ∀ c ∈ r.clauses, c.isClause

namespace Formula

/-- Every stage has the shapes that it and the stages before it establish. -/
theorem normalize_keepsShapes {limits : Limits} {f : Formula} {r : Normalization}
    (h : (f.normalize limits).result = .ok r) : r.KeepsShapes := by
  have hrun := normalize_eq_ok_iff.mp h
  exact {
    implicationFree := fun _ => hrun.isImplicationFree_formula
    negationNormal := fun _ => hrun.isNegationNormal_formula
    doubleNegationFree := hrun.doubleNegationFree_eq
    standardizedApart := hrun.bindersApart
    prenexApart := hrun.bindersApart_prenex
    prenexMatrix := hrun.isQuantifierFree_matrix
    skolemizedMatrix := by
      rw [hrun.matrix_skolemized]
      exact hrun.isPlain_quantifierFree.quantifierFree
    skolemizedPrefix := by
      rw [hrun.quantifierPrefix_skolemized]
      exact fun b hb => quantifier_of_mem_universals hb
    quantifierFree := fun _ hstage => (hrun.isPlain_formula hstage).quantifierFree
    cnf := hrun.isCnf_cnf
    cnfPrenex := hrun.isCnf_cnfPrenex
    dnfPrenex := hrun.isDnf_dnfPrenex
    clauses := isClause_of_mem_clauses hrun.isCnf_cnf }

set_option maxRecDepth 10000 in
/-- A biconditional under a negation, with a binder of the same name beside it. -/
theorem normalize_keepsShapes_biconditional :
    let f := neg (binary .disj
      (quant .universal "x" (binary .iff (prop "P" [.var "x"]) (prop "Q" [.var "x"])))
      (quant .existential "x" (neg (prop "R" [.var "x"]))))
    ∃ r, (f.normalize {}).result = .ok r ∧ r.clauses.length = 5 ∧ r.KeepsShapes := by
  intro f
  have hlength : (f.normalize {}).result.map (fun r => r.clauses.length) = .ok 5 := by
    decide +kernel
  obtain ⟨r, hr, hlength⟩ := exists_eq_ok_of_map hlength
  exact ⟨r, hr, hlength, normalize_keepsShapes hr⟩

end Formula

end ClausalForm
