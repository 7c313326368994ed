import ClausalForm.Proofs.Normalization.Run

/-!
# Stages that mean the same

Up to the prenex form, normalization only says differently what the formula says: each of these
stages is true in the same structures and under the same assignments as the formula.

## Main results

* `normalize_stages_equivalent`: all stages up to the prenex form have one truth value
-/

namespace ClausalForm

universe u

namespace Normalization.IsRun

variable {limits : Limits} {f : Formula} {r : Normalization} {D : Type u}
  (I : Interpretation D) (e : String → D)

theorem holds_implicationFree (h : r.IsRun limits f) :
    r.implicationFree.Holds I e ↔ f.Holds I e := by
  rw [h.implicationFree_eq, Formula.holds_expanded]

theorem holds_negationPushed (h : r.IsRun limits f) :
    r.negationPushed.Holds I e ↔ f.Holds I e := by
  rw [h.negationPushed_eq, (Formula.holds_polarized _ e).1, Formula.holds_expanded]

theorem holds_standardized (h : r.IsRun limits f) :
    r.standardized.Holds I e ↔ f.Holds I e := by
  obtain ⟨_, _, _, hscoped, _, hstd⟩ := Formula.standardizes_of_standardize h.standardized
  rw [hstd.holds_iff hscoped, h.doubleNegationFree_eq, h.holds_negationPushed]

/-- Moving the quantifiers to the front is where the domain must not be empty. -/
theorem holds_prenex [Nonempty D] (h : r.IsRun limits f) :
    r.prenex.Holds I e ↔ f.Holds I e := by
  have hfree (a : Formula) : .neg a ∈ r.standardized.subformulas → a.isQuantifierFree :=
    Formula.isQuantifierFree_of_isNegationNormal h.isNegationNormal_standardized
  rw [h.prenex_eq, Formula.holds_quantify_core h.isImplicationFree_standardized hfree
    h.bindersApart, h.holds_standardized]

end Normalization.IsRun

namespace Formula

/-- The stages up to the prenex form have the truth value of the formula, in every structure with
a non-empty domain and under every assignment. -/
theorem normalize_stages_equivalent {limits : Limits} {f : Formula} {r : Normalization}
    (h : (f.normalize limits).result = .ok r) {D : Type u} [Nonempty D] (I : Interpretation D)
    (e : String → D) :
    ∀ stage ∈ [Stage.given, .implicationFree, .negationPushed, .doubleNegationFree, .standardized,
      .prenex], (r.formula stage).Holds I e ↔ f.Holds I e := by
  have hrun := normalize_eq_ok_iff.mp h
  simp only [List.forall_mem_cons, Normalization.formula]
  refine ⟨?_, hrun.holds_implicationFree I e, hrun.holds_negationPushed I e, ?_,
    hrun.holds_standardized I e, hrun.holds_prenex I e, by simp⟩
  · rw [hrun.given]
  · rw [hrun.doubleNegationFree_eq]
    exact hrun.holds_negationPushed I e

set_option maxRecDepth 10000 in
/-- A biconditional, whose binders standardization has to separate, over two values. -/
theorem normalize_stages_equivalent_biconditional :
    let f := binary .iff (quant .universal "x" (prop "P" [.var "x"]))
      (quant .existential "x" (binary .conj (prop "Q" [.var "x", .var "y"]) (var "x")))
    let I : Interpretation Bool :=
      ⟨fun _ _ => true, fun p ds => p = "P" ∨ ds.contains false, fun d => d = true⟩
    ∃ r, (f.normalize {}).result = .ok r ∧
      ∀ stage ∈ [Stage.given, .implicationFree, .negationPushed, .doubleNegationFree,
        .standardized, .prenex],
        (r.formula stage).Holds I (fun _ => false) ↔ f.Holds I fun _ => false := by
  intro f I
  have hprefix : (f.normalize {}).result.map (fun r => r.prenex.quantifierPrefix) =
      .ok [⟨.existential, "x"⟩, ⟨.existential, "x1"⟩, ⟨.universal, "x2"⟩, ⟨.universal, "x3"⟩] := by
    decide +kernel
  obtain ⟨r, hr, -⟩ := exists_eq_ok_of_map hprefix
  exact ⟨r, hr, normalize_stages_equivalent hr I _⟩

end Formula

end ClausalForm
