import ClausalForm.Proofs.NormalForm.CrossProduct
import ClausalForm.Proofs.NormalForm.LevelLimits
import ClausalForm.Proofs.NormalForm.Renaming
import ClausalForm.Proofs.Normalization.Shape

/-!
# Clauses as fixed points

A clause comes back as it is when it is normalized. It has the shape that every pass is there to
establish, so each of them finds nothing to do. And although all clauses together may be higher than
the limit of levels, each of them is no higher than the formula that they were multiplied out from,
so no pass runs out of levels on it.

## Main results

* `Formula.isRun_of_isClause`: all passes leave a clause as it is
* `Normalization.IsRun.height_le_of_mem_clauses`: the height of the clauses
* `Formula.normalize_of_mem_clauses`: the run on a clause of a run
-/

namespace ClausalForm

namespace Formula

variable {limits : Limits} {f : Formula}

/-! ### Plain formulas -/

namespace IsPlain

theorem eliminateImplication_eq (h : f.IsPlain) (hheight : f.height ≤ limits.depth) :
    f.eliminateImplication limits = .ok f := by
  rw [eliminateImplication, eliminateImplicationWithin_eq, withLevels_eq_ok_iff]
  exact ⟨hheight, expanded_of_isImplicationFree h.implicationFree⟩

theorem pushNegation_eq (h : f.IsPlain) (hheight : f.height ≤ limits.depth) :
    f.pushNegation limits = .ok f := by
  rw [pushNegation, pushNegationWithin_eq, withLevels_eq_ok_iff]
  exact ⟨(polarLevels_le_height true f).trans hheight,
    polarized_of_isNegationNormal h.negationNormal⟩

theorem removeDoubleNegation_eq (h : f.IsPlain) (hheight : f.height ≤ limits.depth) :
    f.removeDoubleNegation limits = .ok f := by
  have hchain (a : Formula) (ha : neg a ∈ f.subformulas) : a.isNegation = false :=
    isNegation_eq_false_of_isAtom (isAtom_of_isNegationNormal h.negationNormal ha)
  rw [removeDoubleNegation, removeDoubleNegationWithin_eq_self hchain, withLevels_eq_ok_iff]
  exact ⟨hheight, rfl⟩

theorem boundNames_eq (h : f.IsPlain) : f.boundNames = [] :=
  boundNames_of_isQuantifierFree h.quantifierFree

theorem result_standardize (h : f.IsPlain) (hheight : f.height ≤ limits.depth) :
    (f.standardize limits).result = .ok f := by
  refine standardize_of_bindersApart ⟨?_, ?_⟩ hheight
  · rw [h.boundNames_eq]
    exact List.nodup_nil
  · rw [h.boundNames_eq]
    exact List.forall_mem_nil _

theorem hoistQuantifiers_eq (h : f.IsPlain) (hheight : f.height ≤ limits.depth) :
    f.hoistQuantifiers limits = .ok f := by
  rw [Formula.hoistQuantifiers_eq, withLevels_eq_ok_iff,
    binders_of_isQuantifierFree h.quantifierFree,
    core_of_isQuantifierFree h.quantifierFree]
  exact ⟨hheight, rfl⟩

theorem stripQuantifiers_eq (h : f.IsPlain) (hheight : f.height ≤ limits.depth) :
    f.stripQuantifiers limits = .ok f := by
  rw [Formula.stripQuantifiers_eq, withLevels_eq_ok_iff]
  exact ⟨hheight, core_of_isQuantifierFree h.quantifierFree⟩

theorem result_skolemize (h : f.IsPlain) (hheight : f.height ≤ limits.depth) :
    (f.skolemize limits).result = .ok f := by
  -- the formula is its matrix under no quantifiers
  obtain ⟨g, hg⟩ : ∃ g, ((f.quantify []).skolemize limits).result = .ok g :=
    (isLimited_skolemize limits f).exists_ok (Nat.not_lt.mpr hheight)
  have hnodup : (([] : List Binder).map Binder.name).Nodup := List.nodup_nil
  have heq : g = f := skolemize_quantify_eq h.quantifierFree hnodup hg
  rwa [heq] at hg

end IsPlain

theorem distributeWithin_of_isLayered {outer : Connective} (houter : outer = .conj ∨ outer = .disj)
    (h : f.isLayered outer) (hheight : f.height ≤ limits.depth) :
    f.distributeWithin limits.depth outer limits.depth = .ok f := by
  obtain ⟨hdistributed, hlevels⟩ := isDistributed_of_isLayered houter h
  rw [distributeWithin_eq, withLevels_eq_ok_iff, hlevels]
  exact ⟨hheight, hdistributed⟩

/-! ### Clauses -/

/-- A disjunction of literals has the layers of the conjunctive form, with a single clause, and
those of the disjunctive form, with single literals. -/
theorem isLayered_of_isClause (h : f.isClause) : f.isLayered .conj ∧ f.isLayered .disj :=
  ⟨isJoined_of h, isJoined_induction (fun _ hc => isJoined_of (isJoined_of hc))
    (fun _ _ hl hr => isJoined_binary.mpr (.inr ⟨hl, hr⟩)) h⟩

theorem operands?_of_isClause (h : f.isClause) : f.operands? .conj = none :=
  (isDistributed_of_isJoined_dual (.inl rfl) h).2

/-- Every stage of a clause is the clause, if there are as many levels as it has. -/
theorem isRun_of_isClause (h : f.isClause) (hheight : f.height ≤ limits.depth) :
    (⟨f, f, f, f, f, f, f, f, f, f, f⟩ : Normalization).IsRun limits f := by
  obtain ⟨hcnf, hdnf⟩ := isLayered_of_isClause h
  have hplain := isPlain_of_isLayered (.inl rfl) hcnf
  have hdistribute : f.distributeToCnf limits = .ok f :=
    distributeWithin_of_isLayered (.inl rfl) hcnf hheight
  have hdistribute' : f.distributeToDnf limits = .ok f :=
    distributeWithin_of_isLayered (.inr rfl) hdnf hheight
  exact {
    given := rfl
    implicationFree := hplain.eliminateImplication_eq hheight
    negationPushed := hplain.pushNegation_eq hheight
    doubleNegationFree := hplain.removeDoubleNegation_eq hheight
    standardized := hplain.result_standardize hheight
    prenex := hplain.hoistQuantifiers_eq hheight
    skolemized := hplain.result_skolemize hheight
    quantifierFree := (dropQuantifiers_of_isQuantifierFree hplain.quantifierFree).symm
    cnf := hdistribute
    cnfPrenex := by
      rw [toConjunctivePrenex, hplain.stripQuantifiers_eq hheight]
      exact hdistribute
    dnfPrenex := by
      rw [toDisjunctivePrenex, hplain.stripQuantifiers_eq hheight]
      exact hdistribute' }

end Formula

/-- The clauses of a run are no higher than the formula that distribution started from, for which
there were levels enough. -/
theorem Normalization.IsRun.height_le_of_mem_clauses {limits : Limits} {f c : Formula}
    {r : Normalization} (h : r.IsRun limits f) (hc : c ∈ r.clauses) : c.height ≤ limits.depth := by
  have hrun := h.cnf
  rw [Formula.distributeToCnf, Formula.distributeWithin_eq, withLevels_eq_ok_iff,
    Formula.distributionLevels_le_iff (.inl rfl)] at hrun
  obtain ⟨⟨hheight, -⟩, hcnf⟩ := hrun
  rw [Normalization.clauses, Formula.clauses, ← hcnf, Formula.chain_distributed (.inl rfl)] at hc
  exact (Formula.height_le_of_mem_crossClauses (.inl rfl) h.isPlain_quantifierFree hc).trans hheight

namespace Formula

/-- A clause of a formula that is normalized is normalized within the same limits, and comes back as
it is: every stage of it is the clause, and it is its only clause. -/
theorem normalize_of_mem_clauses {limits : Limits} {f : Formula} {r : Normalization}
    (h : (f.normalize limits).result = .ok r) :
    ∀ c ∈ r.clauses, ∃ r', (c.normalize limits).result = .ok r' ∧
      (∀ stage, r'.formula stage = c) ∧ r'.clauses = [c] := by
  intro c hc
  have hrun := normalize_eq_ok_iff.mp h
  have hclause := isClause_of_mem_clauses hrun.isCnf_cnf c hc
  refine ⟨⟨c, c, c, c, c, c, c, c, c, c, c⟩, ?_, fun stage => ?_, ?_⟩
  · exact normalize_eq_ok_iff.mpr (isRun_of_isClause hclause (hrun.height_le_of_mem_clauses hc))
  · cases stage <;> rfl
  · exact chain_of_operands?_eq_none (operands?_of_isClause hclause)

/-- With three levels a conjunctive form of height four comes out, which could not be taken through
the passes again, but each of its clauses can. -/
theorem normalize_of_mem_clauses_tall :
    let limits : Limits := { depth := 3 }
    let a := prop "A" []
    let b := prop "B" [.var "x"]
    let f := binary .disj (binary .conj a (neg b)) (binary .conj b (neg a))
    let c := binary .disj (neg b) (neg a)
    ∃ r, (f.normalize limits).result = .ok r ∧ c ∈ r.clauses ∧
      (r.cnf.normalize limits).result = .error (.recursionLimit 3) ∧
      ∃ r', (c.normalize limits).result = .ok r' ∧
        (∀ stage, r'.formula stage = c) ∧ r'.clauses = [c] := by
  intro limits a b f c
  have hcnf : (f.normalize limits).result.map (·.cnf) = .ok (binary .conj
      (binary .conj (binary .disj a b) (binary .disj (neg b) b))
      (binary .conj (binary .disj a (neg a)) c)) := by
    decide +kernel
  obtain ⟨r, hr, hcnf⟩ := exists_eq_ok_of_map hcnf
  have hc : c ∈ r.clauses := by
    rw [Normalization.clauses, hcnf]
    decide
  refine ⟨r, hr, hc, ?_, normalize_of_mem_clauses hr c hc⟩
  rw [hcnf]
  decide +kernel

end Formula

end ClausalForm
