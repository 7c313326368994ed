import ClausalForm.Proofs.NormalForm.Distribution
import ClausalForm.Proofs.NormalForm.Instantiation
import ClausalForm.Proofs.Normalization.Equivalence

/-!
# Clauses of a run

Together the clauses say what the matrix of the prenex form says with the terms for the existential
variables in it. From there one can go back to the formula, whose witnesses are the values of the
terms, and one can come from it, where the names of the terms get a meaning.

## Main definitions

* `Normalization.terms`: the terms for the existential variables
* `Interpretation.reading`: propositions with the names of the terms read as these terms

## Main results

* `IsRun.forall_clauses_holds_iff`: what the clauses say
* `IsRun.holds_of_clauses`: from the clauses back to the formula
* `IsRun.exists_holds_clauses`: from the formula to its clauses
-/

namespace ClausalForm

universe u

variable {D : Type u}

open Classical in
/-- Propositions with the names of terms for existential variables, read as these terms. -/
noncomputable def Interpretation.reading (I : Interpretation D) : Interpretation D where
  function := I.function
  predicate s ds := if IsSkolemName s then I.truth (I.function s ds) else I.predicate s ds
  truth := I.truth

theorem Interpretation.reads_reading (I : Interpretation D) {s : String} (hs : IsSkolemName s) :
    I.reading.Reads s := by
  intro ds
  simp only [reading, if_pos hs]

theorem Interpretation.reading_agreesOn (I : Interpretation D) :
    I.reading.AgreesOn I fun s => ¬ IsSkolemName s := by
  refine ⟨rfl, fun s hs => ⟨rfl, ?_⟩⟩
  funext ds
  simp only [reading, if_neg hs]

namespace Normalization

/-- The terms for the existential variables of the prenex form. -/
def terms (r : Normalization) : List (String × Term) :=
  skolemTerms {} [] r.prenex.quantifierPrefix

namespace IsRun

variable {limits : Limits} {f : Formula} {r : Normalization}

theorem prenex_eq_quantify (h : r.IsRun limits f) :
    r.prenex = r.prenex.matrix.quantify r.prenex.quantifierPrefix := by
  rw [h.matrix_prenex, h.quantifierPrefix_prenex, h.prenex_eq]

theorem isQuantifierFree_matrix (h : r.IsRun limits f) : r.prenex.matrix.isQuantifierFree := by
  rw [h.matrix_prenex]
  exact Formula.isQuantifierFree_core _

theorem boundNames_matrix (h : r.IsRun limits f) : r.prenex.matrix.boundNames = [] :=
  Formula.boundNames_of_isQuantifierFree h.isQuantifierFree_matrix

theorem nodup_prefix (h : r.IsRun limits f) :
    (r.prenex.quantifierPrefix.map Binder.name).Nodup := by
  rw [h.quantifierPrefix_prenex]
  exact h.bindersApart.nodup

/-- The variables of the prefix are free nowhere in the formula. -/
theorem not_mem_free_of_mem_prefix (h : r.IsRun limits f) {x : String}
    (hx : x ∈ r.prenex.quantifierPrefix.map Binder.name) : x ∉ f.free := by
  rw [h.quantifierPrefix_prenex] at hx
  rw [← h.mem_free_standardized]
  exact h.bindersApart.not_free x hx

theorem mem_free_matrix (h : r.IsRun limits f) {x : String} (hx : x ∈ r.prenex.matrix.free) :
    x ∈ f.free ∨ x ∈ r.prenex.quantifierPrefix.map Binder.name := by
  rw [h.matrix_prenex] at hx
  rw [h.quantifierPrefix_prenex, ← h.mem_free_standardized]
  exact Formula.mem_free_core hx

theorem mem_symbols_matrix (h : r.IsRun limits f) {s : String}
    (hs : s ∈ r.prenex.matrix.symbols) : s ∈ f.symbols := by
  rw [h.matrix_prenex] at hs
  exact h.mem_symbols_core hs

/-- The Skolem form keeps the universal quantifiers of the prefix before the matrix with the terms
in it. -/
theorem skolemized_eq (h : r.IsRun limits f) :
    r.skolemized = (r.prenex.matrix.instantiate r.terms).quantify
      (Formula.universals r.prenex.quantifierPrefix) := by
  have hskolem := h.skolemized
  rw [h.prenex_eq_quantify] at hskolem
  exact Formula.skolemize_quantify_eq h.isQuantifierFree_matrix h.nodup_prefix hskolem

/-- Without quantifiers the formula is the matrix with the terms in it. -/
theorem quantifierFree_eq (h : r.IsRun limits f) :
    r.quantifierFree = r.prenex.matrix.instantiate r.terms := by
  -- what is left of the prefix is universal, and dropped
  rw [h.quantifierFree, h.skolemized_eq]
  exact Formula.dropQuantifiers_quantify (fun b hb => Formula.quantifier_of_mem_universals hb)
    (Formula.isQuantifierFree_instantiate h.isQuantifierFree_matrix _)

variable {I J : Interpretation D} {e : String → D}

/-- Together the clauses say what the matrix says with the terms in it. -/
theorem forall_clauses_holds_iff (h : r.IsRun limits f) :
    (∀ c ∈ r.clauses, c.Holds I e) ↔ (r.prenex.matrix.instantiate r.terms).Holds I e := by
  have hcnf := h.cnf
  rw [Formula.distributeToCnf] at hcnf
  rw [clauses, Formula.forall_clauses_holds_iff, Formula.holds_distributeWithin hcnf (.inl rfl),
    h.quantifierFree_eq]

/-- Other meanings for the names of the terms do not change the truth of a formula without them. -/
theorem holds_iff_of_agreesOn {f : Formula} (hf : ∀ s ∈ f.symbols, ¬ IsSkolemName s)
    (hJ : J.AgreesOn I fun s => ¬ IsSkolemName s) (e : String → D) :
    f.Holds J e ↔ f.Holds I e :=
  Formula.holds_congr_symbols (hJ.mono hf) e

/-- From the clauses back to a prefix before the matrix, whose terms are those of the run. -/
theorem holds_of_clauses (h : r.IsRun limits f) {bs : List Binder}
    (hbs : (bs.map Binder.name).Nodup) (hterms : skolemTerms {} [] bs = r.terms)
    (hreads : ∀ s, IsSkolemName s → J.Reads s)
    (hclauses : ∀ e', AgreeOff (fun x => ⟨.universal, x⟩ ∈ bs) e' e →
      ∀ c ∈ r.clauses, c.Holds J e') :
    (r.prenex.matrix.quantify bs).Holds J e := by
  refine Formula.holds_quantify_of_instantiate {} [] h.boundNames_matrix hbs
    (fun _ hx => absurd hx List.not_mem_nil) (fun s hs => hreads s hs.isSkolemName)
    fun e' he' => ?_
  rw [hterms]
  exact h.forall_clauses_holds_iff.mp (hclauses e' he')

/-- From a prefix before the matrix, whose terms are those of the run, to the clauses. -/
theorem exists_holds_clauses (h : r.IsRun limits f) (hf : ∀ s ∈ f.symbols, ¬ IsSkolemName s)
    {bs : List Binder} (hbs : (bs.map Binder.name).Nodup)
    (hterms : skolemTerms {} [] bs = r.terms) {Z : String → Prop}
    (hZ : ∀ x ∈ bs.map Binder.name, ¬ Z x)
    (hwitness : ∀ K : Interpretation D, r.prenex.matrix.UniformPrefix K Z bs)
    (hholds : ∀ e', AgreeOff Z e' e → (r.prenex.matrix.quantify bs).Holds I e') :
    ∃ J : Interpretation D, J.AgreesOn I (fun s => ¬ IsSkolemName s) ∧
      (∀ s, IsSkolemName s → J.Reads s) ∧
      ∀ e', AgreeOff (fun x => Z x ∨ x ∈ bs.map Binder.name) e' e →
        ∀ c ∈ r.clauses, c.Holds J e' := by
  have hsymbols : ∀ s ∈ r.prenex.matrix.symbols, ¬ IsSkolemName s := fun s hs =>
    hf s (h.mem_symbols_matrix hs)
  -- the names of the terms are read as terms first, which the matrix does not notice
  have hreading (e' : String → D) (he' : AgreeOff (fun x => Z x ∨ x ∈ ([] : List String)) e' e) :
      (r.prenex.matrix.quantify bs).Holds I.reading e' := by
    have hquantify : ∀ s ∈ (r.prenex.matrix.quantify bs).symbols, ¬ IsSkolemName s := by
      rw [Formula.symbols_quantify]
      exact hsymbols
    rw [holds_iff_of_agreesOn hquantify I.reading_agreesOn]
    exact hholds e' (he'.mono fun x hx => hx.resolve_right List.not_mem_nil)
  -- no term is given out before the prefix, and no name of one is in the matrix
  obtain ⟨J, hJ, hreads, hJholds⟩ := Formula.exists_holds_instantiate {} [] h.boundNames_matrix
    hbs hZ (fun _ hx => absurd hx List.not_mem_nil)
    (fun s hs hahead => hsymbols s hs hahead.isSkolemName) (hwitness I.reading) hreading
  refine ⟨J, ?_, fun s hs => hreads s (I.reads_reading hs), fun e' he' => ?_⟩
  · exact (hJ.mono fun s hs hahead => hs hahead.isSkolemName).trans I.reading_agreesOn
  · rw [h.forall_clauses_holds_iff, ← hterms]
    exact hJholds e' (he'.mono fun x hx => hx.imp id .inr)

end IsRun

end Normalization

end ClausalForm
