import ClausalForm.Proofs.NormalForm.Replacement
import ClausalForm.Proofs.Normalization.Run
import Mathlib.Data.List.Nodup

/-!
# Two ways to a conjunctive form

From the prenex form two ways lead to a conjunction of disjunctions. One puts terms for the
existential variables and drops the universal quantifiers, the other only drops the quantifiers.
They come to the same clauses but for the terms, and where the first comes to an end the second
does too.

## Main definitions

* `replacements`: the variables that were reported to give way to terms, with these terms

## Main results

* `exists_toConjunctivePrenex`: the two ways from a prefix and a matrix
* `exists_stages_of_reached_cnf`: the passes behind the report of the conjunctive form
* `cnf_eq_replace_cnfPrenex`: the two ways in a normalization
-/

namespace ClausalForm

/-! ### What is reported -/

/-- The variable that gave way to a term, and the term, if the event is about that. -/
def Event.replacement? : Event → Option (String × Term)
  | .replaced x t => some (x, t)
  | _ => none

/-- The variables that gave way to terms, with these terms, in the order of the events. -/
def replacements (events : List Event) : List (String × Term) :=
  events.filterMap Event.replacement?

theorem replacements_append (es es' : List Event) :
    replacements (es ++ es') = replacements es ++ replacements es' :=
  List.filterMap_append

@[simp] theorem replacements_cons_reached (stage : Stage) (f : Formula) (es : List Event) :
    replacements (.reached stage f :: es) = replacements es := rfl

theorem replacements_eq_nil {es : List Event} (h : ∀ e ∈ es, e.replacement? = none) :
    replacements es = [] :=
  List.filterMap_eq_nil_iff.mpr h

theorem replacements_map_replaced (terms : List (String × Term)) :
    replacements (terms.map fun p => .replaced p.1 p.2) = terms := by
  rw [replacements, List.filterMap_map]
  exact List.filterMap_some

theorem mem_events_reach {stage : Stage} {x : Journal PassError Formula} {e : Event} :
    e ∈ (reach stage x).events ↔
      e ∈ x.events ∨ ∃ f, x.result = .ok f ∧ e = .reached stage f := by
  rw [reach, Journal.mem_events_bind]
  simp

/-- A step after a stage that was reached. -/
theorem events_reach_bind {α : Type} {stage : Stage} {x : Journal PassError Formula}
    {f : Formula} (hf : x.result = .ok f) (next : Formula → Journal PassError α) :
    (reach stage x >>= next).events = x.events ++ .reached stage f :: (next f).events := by
  have hresult : (reach stage x).result = .ok f := (result_reach stage x).trans hf
  rw [Journal.bind_of_ok hresult, reach, Journal.bind_of_ok hf]
  exact List.append_assoc ..

/-- The report of a later stage comes from what follows the stage at hand, which was reached. -/
theorem exists_of_reached_bind {α : Type} {stage stage' : Stage} {x : Journal PassError Formula}
    {next : Formula → Journal PassError α} {g : Formula} (hstage : stage ≠ stage')
    (hx : ∀ g, Event.reached stage g ∉ x.events)
    (h : Event.reached stage g ∈ (reach stage' x >>= next).events) :
    ∃ a, x.result = .ok a ∧ Event.reached stage g ∈ (next a).events ∧
      (reach stage' x >>= next).events = x.events ++ .reached stage' a :: (next a).events := by
  rw [Journal.mem_events_bind, mem_events_reach, result_reach] at h
  rcases h with (h | ⟨a, _, h⟩) | ⟨a, ha, h⟩
  · exact absurd h (hx g)
  · cases h
    exact absurd rfl hstage
  · exact ⟨a, ha, h, events_reach_bind ha next⟩

namespace Formula

theorem eq_renamed_of_mem_events_standardize {limits : Limits} {f : Formula} {e : Event}
    (he : e ∈ (f.standardize limits).events) : ∃ x y, e = .renamed x y := by
  obtain he | ⟨_, _, he⟩ := Journal.mem_events_bind.mp he
  · cases he
  · rw [Journal.events_bind_pure] at he
    exact eq_renamed_of_mem_events he

theorem eq_replaced_of_mem_events_skolemize {limits : Limits} {f : Formula} {e : Event}
    (he : e ∈ (f.skolemize limits).events) : ∃ x t, e = .replaced x t := by
  rw [skolemize, Journal.events_bind_pure] at he
  exact eq_replaced_of_mem_events he

/-- After the conjunctive form only the stages beside it and the number of clauses are reported. -/
theorem eq_of_mem_events_display {limits : Limits} {prenex : Formula}
    {k : Formula → Formula → Normalization} {e : Event}
    (he : e ∈ (do
      let a ← reach .cnfPrenex (.ofExcept (prenex.toConjunctivePrenex limits))
      let b ← reach .dnfPrenex (.ofExcept (prenex.toDisjunctivePrenex limits))
      .report (.counted (k a b).clauses.length ((k a b).horn.countP HornReport.isHorn))
      return k a b : Journal PassError Normalization).events) :
    (∃ g, e = .reached .cnfPrenex g) ∨ (∃ g, e = .reached .dnfPrenex g) ∨
      ∃ m n, e = .counted m n := by
  obtain he | ⟨a, _, he⟩ := Journal.mem_events_bind.mp he
  · obtain he | ⟨g, _, he⟩ := mem_events_reach.mp he
    · cases he
    · exact .inl ⟨g, he⟩
  obtain he | ⟨b, _, he⟩ := Journal.mem_events_bind.mp he
  · obtain he | ⟨g, _, he⟩ := mem_events_reach.mp he
    · cases he
    · exact .inr (.inl ⟨g, he⟩)
  rw [Journal.events_bind_pure] at he
  exact .inr (.inr ⟨_, _, List.mem_singleton.mp he⟩)

/-- Where the conjunctive form is reported, the passes before it have succeeded, and what is
reported of the terms comes from the pass that puts them in. -/
theorem exists_stages_of_reached_cnf {limits : Limits} {f cnf : Formula}
    (h : Event.reached .cnf cnf ∈ (f.normalize limits).events) :
    ∃ g standardized prenex skolemized : Formula,
      (g.standardize limits).result = .ok standardized ∧
      standardized.hoistQuantifiers limits = .ok prenex ∧
      (prenex.skolemize limits).result = .ok skolemized ∧
      skolemized.dropQuantifiers.distributeToCnf limits = .ok cnf ∧
      Event.reached .prenex prenex ∈ (f.normalize limits).events ∧
      replacements (f.normalize limits).events =
        replacements (prenex.skolemize limits).events ∧
      ∀ c, prenex.toConjunctivePrenex limits = .ok c →
        Event.reached .cnfPrenex c ∈ (f.normalize limits).events := by
  unfold normalize at h ⊢
  have hnil (r : Except PassError Formula) : ∀ g,
      Event.reached .cnf g ∉ (Journal.ofExcept r).events := fun _ => List.not_mem_nil
  obtain ⟨_, _, h, e₀⟩ := exists_of_reached_bind (by decide) (fun _ => List.not_mem_nil) h
  obtain ⟨_, _, h, e₁⟩ := exists_of_reached_bind (by decide) (hnil _) h
  obtain ⟨_, _, h, e₂⟩ := exists_of_reached_bind (by decide) (hnil _) h
  obtain ⟨g, _, h, e₃⟩ := exists_of_reached_bind (by decide) (hnil _) h
  obtain ⟨standardized, hstandardized, h, e₄⟩ := exists_of_reached_bind (by decide)
    (fun _ he => nomatch eq_renamed_of_mem_events_standardize he) h
  obtain ⟨prenex, hprenex, h, e₅⟩ := exists_of_reached_bind (by decide) (hnil _) h
  obtain ⟨skolemized, hskolemized, h, e₆⟩ := exists_of_reached_bind (by decide)
    (fun _ he => nomatch eq_replaced_of_mem_events_skolemize he) h
  obtain ⟨_, hfree, h, e₇⟩ := exists_of_reached_bind (by decide) (fun _ => List.not_mem_nil) h
  rcases Journal.mem_events_bind.mp h with h | ⟨_, _, h⟩
  · obtain h | ⟨_, hcnf, h⟩ := mem_events_reach.mp h
    · cases h
    cases h
    -- the events of the stages before, one stage after the other
    rw [e₀, e₁, e₂, e₃, e₄, e₅, e₆, e₇]
    refine ⟨g, standardized, prenex, skolemized, hstandardized, hprenex, hskolemized, ?_, ?_, ?_,
      fun c hc => ?_⟩
    · cases hfree
      exact hcnf
    · simp
    · have hrenamed : replacements (g.standardize limits).events = [] :=
        replacements_eq_nil fun e he => by
          obtain ⟨_, _, rfl⟩ := eq_renamed_of_mem_events_standardize he
          rfl
      simp only [replacements_append, replacements_cons_reached, Journal.events_pure,
        Journal.events_ofExcept, List.nil_append, hrenamed]
      -- after the terms only stages and the number of clauses are reported
      refine (congrArg _ (replacements_eq_nil fun e he => ?_)).trans (List.append_nil _)
      rcases Journal.mem_events_bind.mp he with he | ⟨_, _, he⟩
      · obtain he | ⟨_, _, rfl⟩ := mem_events_reach.mp he
        · cases he
        · rfl
      · rcases eq_of_mem_events_display he with ⟨_, rfl⟩ | ⟨_, rfl⟩ | ⟨_, _, rfl⟩ <;> rfl
    · -- the form beside it is reported next, after the events of the eight stages before
      iterate 8 refine List.mem_append_right _ (List.mem_cons_of_mem _ ?_)
      refine Journal.mem_events_bind.mpr (.inr ⟨_, (result_reach ..).trans hcnf, ?_⟩)
      exact Journal.mem_events_bind.mpr (.inl (mem_events_reach.mpr (.inr ⟨c, hc, rfl⟩)))
  · -- nothing after this stage reports it again
    rcases eq_of_mem_events_display h with ⟨_, h⟩ | ⟨_, h⟩ | ⟨_, _, h⟩ <;> cases h

/-! ### The two ways -/

theorem replacements_skolemize_quantify {limits : Limits} {bs : List Binder} {f g : Formula}
    (hf : f.isQuantifierFree) (hbs : (bs.map Binder.name).Nodup)
    (h : ((f.quantify bs).skolemize limits).result = .ok g) :
    replacements ((f.quantify bs).skolemize limits).events = skolemTerms {} [] bs := by
  simp only [skolemize, Journal.result_bind, bind_eq_ok_iff] at h
  obtain ⟨_, hwithin, _⟩ := h
  rw [skolemize, Journal.events_bind_pure, events_skolemizeWithin_quantify hf hbs hwithin,
    replacements_map_replaced]

/-- From a prefix and a matrix: where the way with terms succeeds the way without them does, and
what it comes to is the same but for the terms. -/
theorem exists_toConjunctivePrenex {limits : Limits} {bs : List Binder} {f skolemized cnf : Formula}
    (hf : f.isQuantifierFree) (hbs : (bs.map Binder.name).Nodup)
    (hskolemized : ((f.quantify bs).skolemize limits).result = .ok skolemized)
    (hcnf : skolemized.dropQuantifiers.distributeToCnf limits = .ok cnf) :
    ∃ cnfPrenex, (f.quantify bs).toConjunctivePrenex limits = .ok cnfPrenex ∧
      cnf = cnfPrenex.replace (termFor (skolemTerms {} [] bs)) := by
  -- the levels for discarding the quantifiers are there, as they are for the terms
  have hstrip : (f.quantify bs).stripQuantifiers limits = .ok f := by
    simp only [skolemize, Journal.result_bind, bind_eq_ok_iff] at hskolemized
    obtain ⟨_, hlevels, _⟩ := hskolemized
    rw [stripQuantifiers_eq, withLevels_eq_ok_iff, core_quantify, core_of_isQuantifierFree hf]
    exact ⟨height_le_of_skolemizeWithin hlevels, rfl⟩
  have hdrop : skolemized.dropQuantifiers = f.instantiate (skolemTerms {} [] bs) := by
    rw [skolemize_quantify_eq hf hbs hskolemized]
    exact dropQuantifiers_quantify (fun b hb => quantifier_of_mem_universals hb)
      (isQuantifierFree_instantiate hf _)
  -- the variables of the terms are universal, so no term is for one of them
  have hterms : ∀ p ∈ skolemTerms {} [] bs, ∀ y ∈ p.2.vars,
      y ∉ (skolemTerms {} [] bs).map Prod.fst := by
    intro p hp y hy hmem
    rw [map_fst_skolemTerms] at hmem
    obtain ⟨b, hb, rfl⟩ := List.mem_map.mp hmem
    obtain ⟨hb, hexistential⟩ := List.mem_filter.mp hb
    have huniversal := (mem_of_mem_vars_skolemTerms hp hy).resolve_left List.not_mem_nil
    rw [List.inj_on_of_nodup_map hbs hb huniversal rfl] at hexistential
    cases hexistential
  rw [hdrop, instantiate_eq_replace hf hterms, distributeToCnf, distributeWithin_replace] at hcnf
  obtain ⟨cnfPrenex, hprenex, rfl⟩ := exists_eq_ok_of_map hcnf
  refine ⟨cnfPrenex, ?_, rfl⟩
  rw [toConjunctivePrenex, hstrip]
  exact hprenex

/-- A normalization that gets as far as its conjunctive form also gets to the one that is not
skolemized. The two are the same but for the terms that were reported for the existential variables
of the prenex form, so they have as many clauses, with the same counts and of the same kinds. -/
theorem cnf_eq_replace_cnfPrenex {limits : Limits} {f cnf : Formula}
    (h : Event.reached .cnf cnf ∈ (f.normalize limits).events) :
    ∃ prenex cnfPrenex : Formula,
      Event.reached .prenex prenex ∈ (f.normalize limits).events ∧
      Event.reached .cnfPrenex cnfPrenex ∈ (f.normalize limits).events ∧
      replacements (f.normalize limits).events = skolemTerms {} [] prenex.quantifierPrefix ∧
      (replacements (f.normalize limits).events).map Prod.fst =
        (existentials prenex.quantifierPrefix).map Binder.name ∧
      cnf = cnfPrenex.replace (termFor (replacements (f.normalize limits).events)) ∧
      cnf.clauses.length = cnfPrenex.clauses.length ∧
      cnf.clauses.map (fun c => (HornReport.ofClause c).figures) =
        cnfPrenex.clauses.map fun c => (HornReport.ofClause c).figures := by
  obtain ⟨g, standardized, prenex, skolemized, hstandardized, hprenex, hskolemized, hcnf,
    hreached, hterms, hdisplay⟩ := exists_stages_of_reached_cnf h
  -- the prenex form is a prefix of apart binders before a matrix
  rw [hoistQuantifiers_eq, withLevels_eq_ok_iff] at hprenex
  obtain ⟨_, rfl⟩ := hprenex
  obtain ⟨_, _, _, _, _, hstd⟩ := standardizes_of_standardize hstandardized
  have hbs : (standardized.binders.map Binder.name).Nodup := hstd.names.1
  have hf := isQuantifierFree_core standardized
  rw [replacements_skolemize_quantify hf hbs hskolemized] at hterms
  obtain ⟨cnfPrenex, hcnfPrenex, rfl⟩ := exists_toConjunctivePrenex hf hbs hskolemized hcnf
  refine ⟨_, cnfPrenex, hreached, hdisplay _ hcnfPrenex, ?_, ?_, ?_, ?_, ?_⟩
  · rw [hterms, quantifierPrefix_quantify hf]
  · rw [hterms, map_fst_skolemTerms, quantifierPrefix_quantify hf]
  · rw [hterms]
  · rw [clauses, clauses, chain_replace, List.length_map]
  · exact map_figures_clauses_replace cnfPrenex

set_option maxRecDepth 10000 in
/-- Levels enough for the conjunctive forms, but not for the disjunctive one. -/
theorem cnf_eq_replace_cnfPrenex_without_dnfPrenex :
    let p := prop "P" [.var "x", .var "y"]
    let l := binary .disj (binary .disj (binary .disj p (var "y")) (var "x")) (neg p)
    let r := binary .disj (binary .disj (binary .disj (var "z") (var "x")) (neg p)) (neg (var "y"))
    let f := quant .universal "x" (quant .existential "y" (binary .conj l r))
    let cnf := (binary .conj l r).subst "y" (.app "f0" [.var "x"])
    (f.normalize ⟨6, 999⟩).result = .error (.recursionLimit 6) ∧
      Event.reached .cnf cnf ∈ (f.normalize ⟨6, 999⟩).events ∧
        ∃ cnfPrenex, Event.reached .cnfPrenex cnfPrenex ∈ (f.normalize ⟨6, 999⟩).events ∧
          cnf = cnfPrenex.replace (termFor [("y", .app "f0" [.var "x"])]) ∧
          cnf.clauses.map (fun c => (HornReport.ofClause c).figures) =
            cnfPrenex.clauses.map fun c => (HornReport.ofClause c).figures := by
  intro p l r f cnf
  have hcnf : Event.reached .cnf cnf ∈ (f.normalize ⟨6, 999⟩).events := by decide +kernel
  have hterms : replacements (f.normalize ⟨6, 999⟩).events = [("y", .app "f0" [.var "x"])] := by
    decide +kernel
  obtain ⟨_, cnfPrenex, _, hreached, _, _, heq, _, hfigures⟩ := cnf_eq_replace_cnfPrenex hcnf
  rw [hterms] at heq
  exact ⟨by decide +kernel, hcnf, cnfPrenex, hreached, heq, hfigures⟩

end Formula

end ClausalForm
