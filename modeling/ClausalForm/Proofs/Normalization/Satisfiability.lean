import ClausalForm.Proofs.Normalization.Clauses
import ClausalForm.Proofs.Program.RoundTrip

/-!
# Satisfiability of clauses

Where the free variables of a formula stand for fixed values, its clauses are satisfiable together
with it: the formula is true in a structure exactly if the names of the terms for existential
variables can be given a meaning there that makes all clauses true. The formula must not have these
names already, and no formula that is read from a text has.

## Main results

* `not_isSkolemName_of_isLexable`: the names of formulas that can be written
* `holds_iff_exists_clauses`: satisfiability with fixed free variables
-/

namespace ClausalForm

universe u

namespace Normalization.IsRun

variable {limits : Limits} {f : Formula} {r : Normalization}

/-- With fixed values for the free variables, a formula is true exactly where the names of the terms
can be given a meaning that makes all clauses true. -/
theorem holds_iff_exists_holds_clauses {D : Type u} [Nonempty D] (h : r.IsRun limits f)
    (hf : ∀ s ∈ f.symbols, ¬ IsSkolemName s) (I : Interpretation D) (e : String → D) :
    f.Holds I e ↔ ∃ J : Interpretation D, J.AgreesOn I (fun s => ¬ IsSkolemName s) ∧
      (∀ s, IsSkolemName s → J.Reads s) ∧
      ∀ e', AgreeOff (fun x => ⟨.universal, x⟩ ∈ r.prenex.quantifierPrefix) e' e →
        ∀ c ∈ r.clauses, c.Holds J e' := by
  constructor
  · intro hholds
    -- the assignment stays as it is, and so no variable outside the prefix has to be provided for
    obtain ⟨J, hJ, hreads, hclauses⟩ := h.exists_holds_clauses hf h.nodup_prefix rfl
      (Z := fun _ => False) (fun _ _ => not_false)
      (fun K => Formula.uniformPrefix_of_not_free _ fun _ _ => not_false) fun e' he' => by
        rwa [show e' = e from funext fun x => he' x not_false, ← h.prenex_eq_quantify,
          h.holds_prenex]
    refine ⟨J, hJ, hreads, fun e' he' => hclauses e' (he'.mono fun x hx => ?_)⟩
    exact .inr (List.mem_map_of_mem hx)
  · rintro ⟨J, hJ, hreads, hclauses⟩
    rw [← holds_iff_of_agreesOn hf hJ, ← h.holds_prenex, h.prenex_eq_quantify]
    exact h.holds_of_clauses h.nodup_prefix rfl hreads hclauses

end Normalization.IsRun

namespace Formula

/-- Names that the notation knows start with a capital letter where an interpretation is asked for
them. -/
theorem not_isSkolemName_of_isLexable {f : Formula} (hf : f.isLexable) :
    ∀ s ∈ f.symbols, ¬ IsSkolemName s := by
  induction f with
  | prop p args =>
    rw [isLexable, Bool.and_eq_true] at hf
    obtain ⟨c, cs, hc, _, rfl⟩ := isPropositionName_iff.mp hf.1
    rw [symbols, ← map_var_renderAll hf.2, Term.symbolsOf_map_var, List.forall_mem_singleton]
    -- the names of the terms start with a small letter
    apply IsSkolemName.not_of_head <;> rw [String.toList_ofList, List.head?_cons] <;> rintro ⟨⟩
    · exact absurd hc (by decide)
    · exact absurd hc (by decide)
  | var => exact List.forall_mem_nil _
  | neg f ih => exact ih hf
  | binary op l r ihl ihr =>
    rw [isLexable, Bool.and_eq_true] at hf
    rw [symbols, List.forall_mem_append]
    exact ⟨ihl hf.1, ihr hf.2⟩
  | quant q x f ih =>
    rw [isLexable, Bool.and_eq_true] at hf
    exact ih hf.2

/-- No formula that is read from a text has the name of a term for an existential variable, and
every formula without such names is true, with given values of its free variables, exactly where
these names can be given a meaning that makes all clauses true, whatever the values of the
universal variables. -/
theorem holds_iff_exists_clauses :
    (∀ (limit : Nat) (text : String) (p : Program), (Program.ofText limit text).result = .ok p →
      ∀ f ∈ p.statements, ∀ s ∈ f.symbols, ¬ IsSkolemName s) ∧
    ∀ (limits : Limits) (f : Formula) (r : Normalization), (∀ s ∈ f.symbols, ¬ IsSkolemName s) →
      (f.normalize limits).result = .ok r →
      ∀ (D : Type u) [Nonempty D] (I : Interpretation D) (e : String → D),
        f.Holds I e ↔ ∃ J : Interpretation D, J.AgreesOn I (fun s => ¬ IsSkolemName s) ∧
          (∀ s, IsSkolemName s → J.Reads s) ∧
          ∀ e', AgreeOff (fun x => ⟨.universal, x⟩ ∈ r.prenex.quantifierPrefix) e' e →
            ∀ c ∈ r.clauses, c.Holds J e' := by
  constructor
  · intro limit text p hp f hf
    exact not_isSkolemName_of_isLexable (Program.isLexable_of_mem_statements hp f hf)
  · intro limits f r hf h D _ I e
    exact (normalize_eq_ok_iff.mp h).holds_iff_exists_holds_clauses hf I e

set_option maxRecDepth 10000 in
/-- A formula that is read from its written form and true over two values, with a free variable
below an existential quantifier. -/
theorem holds_iff_exists_clauses_open :
    let f := quant .universal "x" (quant .existential "y"
      (binary .conj (prop "R" [.var "x", .var "y"]) (binary .disj (var "y") (prop "Q" [.var "z"]))))
    let I : Interpretation Bool :=
      ⟨fun _ _ => true, fun _ ds => ds.contains true, fun d => d = true⟩
    (∀ s ∈ f.symbols, ¬ IsSkolemName s) ∧ f.Holds I (fun _ => false) ∧
      ∃ r, (f.normalize {}).result = .ok r ∧
        ∃ J : Interpretation Bool, J.AgreesOn I (fun s => ¬ IsSkolemName s) ∧
          (∀ s, IsSkolemName s → J.Reads s) ∧
          ∀ e', AgreeOff (fun x => ⟨.universal, x⟩ ∈ r.prenex.quantifierPrefix) e'
              (fun _ => false) →
            ∀ c ∈ r.clauses, c.Holds J e' := by
  intro f I
  have hread : (Program.ofText 100 f.render).result = .ok ⟨[f], []⟩ :=
    (Program.ofText_render_eq_iff (by decide) 100).mpr (by decide)
  have hf : ∀ s ∈ f.symbols, ¬ IsSkolemName s :=
    holds_iff_exists_clauses.{0}.1 100 f.render _ hread f List.mem_cons_self
  have hholds : f.Holds I fun _ => false := by
    intro d
    refine ⟨true, ?_, .inl rfl⟩
    simp [Holds, I, Term.values, Term.value]
  have hprefix : (f.normalize {}).result.map (fun r => r.prenex.quantifierPrefix) =
      .ok [⟨.universal, "x"⟩, ⟨.existential, "y"⟩] := by
    decide +kernel
  obtain ⟨r, hr, -⟩ := exists_eq_ok_of_map hprefix
  exact ⟨hf, hholds, r, hr, (holds_iff_exists_clauses.2 {} f r hf hr Bool I _).mp hholds⟩

end Formula

end ClausalForm
