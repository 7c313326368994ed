import Mathlib.Data.List.Nodup
import ClausalForm.Proofs.NormalForm.Distribution
import ClausalForm.Proofs.Normalization.Clauses

/-!
# Free variables of a run

Up to the Skolem form every stage has the free variables of the formula, in the order in which they
occur there for the first time. Elimination of biconditionals repeats occurrences; the other passes
leave each one in its place, up to those that are bound. In the Skolem form what is not free in the
formula is bound by a universal quantifier of the prenex form, and the later stages have no other
variables.

## Main results

* `IsRun.eraseDups_free_formula`: the free variables of a stage
* `IsRun.mem_variableNames_skolemized`: the variables of the Skolem form
* `freeVariables_normalize`: no free variable is captured, freed or lost
-/

namespace ClausalForm

theorem Formula.mem_variableNames_of_dropQuantifiers {f : Formula} {x : String}
    (hx : x ∈ f.dropQuantifiers.variableNames) : x ∈ f.variableNames := by
  induction f with
  | quant q y f ih =>
    cases q with
    | universal => exact List.mem_cons_of_mem y (ih hx)
    | existential => exact hx
  | prop | var | neg | binary => exact hx

namespace Normalization.IsRun

variable {limits : Limits} {f : Formula} {r : Normalization} {x : String}

/-! ### Free variables of a stage -/

theorem free_prenex (h : r.IsRun limits f) : r.prenex.free = r.standardized.free := by
  rw [h.prenex_eq, h.bindersApart.free_quantify_core]

/-- The terms bring in universal variables only, which their quantifiers bind. What goes are the
existential variables, which were bound before. -/
theorem free_skolemized (h : r.IsRun limits f) : r.skolemized.free = r.prenex.free := by
  have hterms : ∀ p ∈ r.terms, ∀ y ∈ p.2.vars,
      y ∈ (Formula.universals r.prenex.quantifierPrefix).map Binder.name := by
    intro p hp y hy
    have hbinders := (Formula.mem_of_mem_vars_skolemTerms hp hy).resolve_left List.not_mem_nil
    exact List.mem_map.mpr ⟨_, List.mem_filter.mpr ⟨hbinders, rfl⟩, rfl⟩
  calc r.skolemized.free
      = r.prenex.matrix.free.filter fun x =>
          x ∉ (Formula.universals r.prenex.quantifierPrefix).map Binder.name ∧
            x ∉ (Formula.existentials r.prenex.quantifierPrefix).map Binder.name := by
        rw [h.skolemized_eq, Formula.free_quantify,
          Formula.filter_free_instantiate h.isQuantifierFree_matrix hterms, terms,
          Formula.map_fst_skolemTerms]
    _ = r.prenex.matrix.free.filter fun x =>
          x ∉ r.prenex.quantifierPrefix.map Binder.name := by
        simp only [← not_or, Formula.mem_universals_or_mem_existentials]
    _ = (r.prenex.matrix.quantify r.prenex.quantifierPrefix).free :=
        (Formula.free_quantify ..).symm
    _ = r.prenex.free := by rw [← h.prenex_eq_quantify]

/-- Up to the Skolem form every stage has the free variables of the formula, in the same order. -/
theorem eraseDups_free_formula (h : r.IsRun limits f) {stage : Stage}
    (hstage : stage ∈ [Stage.given, .implicationFree, .negationPushed, .doubleNegationFree,
      .standardized, .prenex, .skolemized]) :
    (r.formula stage).free.eraseDups = f.free.eraseDups := by
  have himplication : r.implicationFree.free.eraseDups = f.free.eraseDups := by
    rw [h.implicationFree_eq, Formula.eraseDups_free_expanded]
  have hnegation : r.negationPushed.free.eraseDups = f.free.eraseDups := by
    rw [h.negationPushed_eq, Formula.free_polarized, Formula.eraseDups_free_expanded]
  have hdouble : r.doubleNegationFree.free.eraseDups = f.free.eraseDups := by
    rw [h.doubleNegationFree_eq, hnegation]
  have hstandardized : r.standardized.free.eraseDups = f.free.eraseDups := by
    rw [h.free_standardized, hdouble]
  have hprenex : r.prenex.free.eraseDups = f.free.eraseDups := by
    rw [h.free_prenex, hstandardized]
  have hskolemized : r.skolemized.free.eraseDups = f.free.eraseDups := by
    rw [h.free_skolemized, hprenex]
  simp only [List.mem_cons, List.not_mem_nil, or_false] at hstage
  rcases hstage with rfl | rfl | rfl | rfl | rfl | rfl | rfl
  · exact congrArg (fun g => g.free.eraseDups) h.given
  · exact himplication
  · exact hnegation
  · exact hdouble
  · exact hstandardized
  · exact hprenex
  · exact hskolemized

/-! ### Variables from the Skolem form on -/

/-- A variable of the Skolem form is free in the formula or universal in the prefix. -/
theorem mem_variableNames_skolemized (h : r.IsRun limits f)
    (hx : x ∈ r.skolemized.variableNames) :
    x ∈ f.free ∨ ⟨.universal, x⟩ ∈ r.prenex.quantifierPrefix := by
  rcases Formula.mem_variableNames.mp hx with hx | hx
  · rw [h.free_skolemized, h.free_prenex, h.mem_free_standardized] at hx
    exact .inl hx
  · rw [h.skolemized_eq, Formula.boundNames_quantify, Formula.boundNames_of_isQuantifierFree
      (Formula.isQuantifierFree_instantiate h.isQuantifierFree_matrix _), List.append_nil] at hx
    obtain ⟨⟨q, y⟩, hb, rfl⟩ := List.mem_map.mp hx
    obtain ⟨hb, hq⟩ := List.mem_filter.mp hb
    obtain rfl : q = .universal := by simpa using hq
    exact .inr hb

/-- No variable is bound by quantifiers of both kinds. -/
theorem existential_not_universal (h : r.IsRun limits f)
    (hx : ⟨.existential, x⟩ ∈ r.prenex.quantifierPrefix) :
    ⟨.universal, x⟩ ∉ r.prenex.quantifierPrefix := by
  intro hx'
  have heq := List.inj_on_of_nodup_map h.nodup_prefix hx hx' rfl
  cases heq

/-- After the Skolem form no stage brings in a variable. -/
theorem mem_variableNames_of_formula (h : r.IsRun limits f) {stage : Stage}
    (hstage : stage ∈ [Stage.skolemized, .quantifierFree, .cnf])
    (hx : x ∈ (r.formula stage).variableNames) : x ∈ r.skolemized.variableNames := by
  have hfree (hx : x ∈ r.quantifierFree.variableNames) : x ∈ r.skolemized.variableNames := by
    rw [h.quantifierFree] at hx
    exact Formula.mem_variableNames_of_dropQuantifiers hx
  simp only [List.mem_cons, List.not_mem_nil, or_false] at hstage
  rcases hstage with rfl | rfl | rfl
  · exact hx
  · exact hfree hx
  · exact hfree (Formula.mem_variableNames_of_distributeWithin h.cnf hx)

end Normalization.IsRun

namespace Formula

/-- No free variable is captured, freed or lost. Up to the Skolem form every stage has the same list
of free variables. In the Skolem form nothing is left of the existential variables, and from there
on a variable is one of that list or universal in the prenex form. -/
theorem freeVariables_normalize {limits : Limits} {f : Formula} {r : Normalization}
    (h : (f.normalize limits).result = .ok r) :
    ∃ xs : List String,
      (∀ stage ∈ [Stage.given, .implicationFree, .negationPushed, .doubleNegationFree,
          .standardized, .prenex, .skolemized],
        ∀ ample : Limits, (r.formula stage).height ≤ ample.depth →
          (r.formula stage).freeVariables ample = .ok xs) ∧
      (∀ x, ⟨.existential, x⟩ ∈ r.prenex.quantifierPrefix → x ∉ r.skolemized.variableNames) ∧
      ∀ x, (x ∈ r.quantifierFree.variableNames ∨ x ∈ r.cnf.variableNames ∨
          ∃ c ∈ r.clauses, x ∈ c.variableNames) →
        x ∈ xs ∨ ⟨.universal, x⟩ ∈ r.prenex.quantifierPrefix := by
  have hrun := normalize_eq_ok_iff.mp h
  refine ⟨f.free.eraseDups, fun stage hstage ample hle => ?_, fun x hx hskolemized => ?_,
    fun x hx => ?_⟩
  · rw [freeVariables_eq, withLevels_eq_ok_iff]
    exact ⟨hle, hrun.eraseDups_free_formula hstage⟩
  · rcases hrun.mem_variableNames_skolemized hskolemized with hfree | huniversal
    · exact hrun.not_mem_free_of_mem_prefix (List.mem_map_of_mem hx) hfree
    · exact hrun.existential_not_universal hx huniversal
  · rw [List.mem_eraseDups]
    have hcnf (hx : x ∈ r.cnf.variableNames) : x ∈ r.skolemized.variableNames :=
      hrun.mem_variableNames_of_formula (show Stage.cnf ∈ _ by simp) hx
    refine hrun.mem_variableNames_skolemized ?_
    rcases hx with hx | hx | ⟨c, hc, hx⟩
    · exact hrun.mem_variableNames_of_formula (show Stage.quantifierFree ∈ _ by simp) hx
    · exact hcnf hx
    · exact hcnf (mem_variableNames_of_mem_clauses hc hx)

set_option maxRecDepth 10000 in
/-- A biconditional with a quantifier that binds the outer variable once more. Its operands are
repeated in the other order, and its quantifier becomes an existential and a universal one. -/
theorem freeVariables_normalize_biconditional :
    let f := quant .universal "x" (binary .iff (prop "P" [.var "x", .var "z"])
      (quant .existential "x" (prop "Q" [.var "x", .var "w"])))
    ∃ r, (f.normalize {}).result = .ok r ∧
      r.prenex.quantifierPrefix = [⟨.universal, "x"⟩, ⟨.existential, "x1"⟩, ⟨.universal, "x2"⟩] ∧
      f.freeVariables {} = .ok ["z", "w"] ∧ r.skolemized.freeVariables {} = .ok ["z", "w"] ∧
      "x1" ∉ r.skolemized.variableNames ∧
      ∀ x ∈ r.cnf.variableNames, x ∈ ["z", "w", "x", "x2"] := by
  intro f
  have hstages : (f.normalize {}).result.map
      (fun r => (r.given, r.prenex.quantifierPrefix, r.skolemized.height)) =
        .ok (f, [⟨.universal, "x"⟩, ⟨.existential, "x1"⟩, ⟨.universal, "x2"⟩], 5) := by
    decide +kernel
  obtain ⟨r, hr, hstages⟩ := exists_eq_ok_of_map hstages
  simp only [Prod.mk.injEq] at hstages
  obtain ⟨hgiven, hbinders, hheight⟩ := hstages
  obtain ⟨xs, hsame, hexistential, hvariables⟩ := freeVariables_normalize hr
  -- the list is that of the formula as given
  have hf : f.freeVariables {} = .ok ["z", "w"] := by decide +kernel
  have hxs : f.freeVariables {} = .ok xs := hgiven ▸ hsame .given (by simp) {} (by
    rw [show r.formula .given = f from hgiven]
    decide)
  obtain rfl : ["z", "w"] = xs := Except.ok.inj (hf.symm.trans hxs)
  refine ⟨r, hr, hbinders, hf, hsame .skolemized (by simp) {} ?_,
    hexistential "x1" (by rw [hbinders]; decide), fun x hx => ?_⟩
  · rw [show r.formula .skolemized = r.skolemized from rfl, hheight]
    decide
  · rcases hvariables x (.inr (.inl hx)) with hx | hx
    · exact List.mem_append_left ["x", "x2"] hx
    · rw [hbinders] at hx
      simp only [List.mem_cons, Binder.mk.injEq, reduceCtorEq, true_and, false_and, false_or,
        List.not_mem_nil, or_false] at hx
      rcases hx with rfl | rfl <;> decide

end Formula

end ClausalForm
