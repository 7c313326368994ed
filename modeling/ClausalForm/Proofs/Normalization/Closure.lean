import ClausalForm.Proofs.Normalization.Clauses
import Mathlib.Data.List.Dedup

/-!
# Free variables as universal ones

Clauses whose free variables are read as universal are satisfiable together with the formula in
which the free variables are quantified below all other quantifiers, since the terms for existential
variables depend on the universal variables of the prefix only. This implies that the closure of the
formula is satisfiable, and says no more than that unless an existential quantifier has a free
variable below it.

## Main definitions

* `Formula.closure`: a formula under universal quantifiers for its free variables
* `Formula.Satisfiable`: a formula is true in some structure
* `JointlySatisfiable`: the closures of formulas are true in one structure
* `Normalization.closedBelow`: the prenex form with the free variables quantified below its prefix

## Main results

* `holds_closure`: the closure is true where the formula is true under every assignment
* `jointlySatisfiable_clauses`: when the clauses are satisfiable
* `closure_satisfiable_clauses_not`: a satisfiable closure of a formula with unsatisfiable clauses
-/

namespace ClausalForm

universe u

namespace Formula

/-- A formula under universal quantifiers. -/
def quantifyAll (f : Formula) (xs : List String) : Formula :=
  f.quantify (xs.map (Binder.mk .universal))

/-- A formula under universal quantifiers for its free variables. -/
def closure (f : Formula) : Formula := f.quantifyAll f.free.dedup

/-- A formula is true in some structure over a domain of the universe. The domain is not empty, as
variables have values in it. -/
def Satisfiable (f : Formula) : Prop :=
  ∃ (D : Type u) (I : Interpretation D) (e : String → D), f.Holds I e

variable {D : Type u} {I : Interpretation D}

theorem holds_quantifyAll {f : Formula} {xs : List String} {e : String → D} :
    (f.quantifyAll xs).Holds I e ↔ ∀ e', AgreeOff (· ∈ xs) e' e → f.Holds I e' := by
  -- Induction on the variables, from the outermost quantifier inwards.
  induction xs generalizing e with
  | nil =>
    constructor
    · intro h e' he'
      rwa [show e' = e from funext fun x => he' x List.not_mem_nil]
    · intro h
      exact h e fun _ _ => rfl
  | cons x xs ih =>
    constructor
    · intro h e' he'
      -- the outermost variable is given the value that it has in the end
      refine ih.mp (h (e' x)) e' fun y hy => ?_
      by_cases hyx : y = x
      · rw [hyx, Function.update_self]
      · rw [Function.update_of_ne hyx]
        exact he' y (by simp [hyx, hy])
    · intro h d
      refine ih.mpr fun e' he' => h e' fun y hy => ?_
      simp only [List.mem_cons, not_or] at hy
      rw [he' y hy.2, Function.update_of_ne hy.1]

/-- The closure of a formula is true where the formula is true under every assignment. -/
theorem holds_closure {f : Formula} {e : String → D} :
    f.closure.Holds I e ↔ ∀ e', f.Holds I e' := by
  classical
  rw [closure, holds_quantifyAll]
  refine ⟨fun h e' => ?_, fun h e' _ => h e'⟩
  -- the assignment is changed back where it does not matter
  have he' : AgreeOff (· ∈ f.free.dedup) (fun x => if x ∈ f.free then e' x else e x) e :=
    fun x hx => if_neg (mt List.mem_dedup.mpr hx)
  exact (holds_congr fun x hx => if_pos hx).mp (h _ he')

end Formula

/-- The closures of formulas are true in one structure, in which propositions with the names of
terms for existential variables are read as these terms. -/
def JointlySatisfiable (fs : List Formula) : Prop :=
  ∃ (D : Type u) (I : Interpretation D) (e : String → D),
    (∀ s, IsSkolemName s → I.Reads s) ∧ ∀ f ∈ fs, f.closure.Holds I e

theorem jointlySatisfiable_iff_forall {fs : List Formula} : JointlySatisfiable.{u} fs ↔
    ∃ (D : Type u) (I : Interpretation D), Nonempty D ∧ (∀ s, IsSkolemName s → I.Reads s) ∧
      ∀ e, ∀ f ∈ fs, f.Holds I e := by
  constructor
  · rintro ⟨D, I, e, hreads, h⟩
    exact ⟨D, I, ⟨e ""⟩, hreads, fun e' f hf => Formula.holds_closure.mp (h f hf) e'⟩
  · rintro ⟨D, I, ⟨d⟩, hreads, h⟩
    exact ⟨D, I, fun _ => d, hreads, fun f hf => Formula.holds_closure.mpr fun e => h e f hf⟩

namespace Normalization

/-- The prefix of the prenex form, and below it universal quantifiers for the free variables of the
formula. -/
def closedPrefix (r : Normalization) : List Binder :=
  r.prenex.quantifierPrefix ++ r.given.free.dedup.map (Binder.mk .universal)

/-- The prenex form with the free variables of the formula under universal quantifiers below those
of its prefix. -/
def closedBelow (r : Normalization) : Formula :=
  (r.prenex.matrix.quantifyAll r.given.free.dedup).quantify r.prenex.quantifierPrefix

theorem closedBelow_eq (r : Normalization) :
    r.closedBelow = r.prenex.matrix.quantify r.closedPrefix :=
  (Formula.quantify_append ..).symm

/-- Universal quantifiers below all others have no part in the terms. -/
theorem skolemTerms_closedPrefix (r : Normalization) :
    skolemTerms {} [] r.closedPrefix = r.terms :=
  skolemTerms_append_universal ..

theorem names_closedPrefix (r : Normalization) :
    r.closedPrefix.map Binder.name =
      r.prenex.quantifierPrefix.map Binder.name ++ r.given.free.dedup := by
  rw [closedPrefix, List.map_append, List.map_map]
  exact congrArg _ (List.map_id _)

end Normalization

namespace Normalization.IsRun

variable {limits : Limits} {f : Formula} {r : Normalization}

theorem nodup_closedPrefix (h : r.IsRun limits f) : (r.closedPrefix.map Binder.name).Nodup := by
  rw [names_closedPrefix, h.given, List.nodup_append]
  refine ⟨h.nodup_prefix, List.nodup_dedup _, ?_⟩
  rintro x hx _ hy rfl
  exact h.not_mem_free_of_mem_prefix hx (List.mem_dedup.mp hy)

/-- The closed prefix binds every variable of the matrix. -/
theorem mem_closedPrefix_of_mem_free (h : r.IsRun limits f) {x : String}
    (hx : x ∈ r.prenex.matrix.free) : x ∈ r.closedPrefix.map Binder.name := by
  rw [names_closedPrefix, h.given, List.mem_append, List.mem_dedup]
  exact (h.mem_free_matrix hx).symm

/-- If the clauses are satisfiable with universal variables, so is the closure of the formula. -/
theorem satisfiable_closure (h : r.IsRun limits f) (hclauses : JointlySatisfiable.{u} r.clauses) :
    Formula.Satisfiable.{u} f.closure := by
  obtain ⟨D, I, hD, hreads, hholds⟩ := jointlySatisfiable_iff_forall.mp hclauses
  refine ⟨D, I, fun _ => hD.some, Formula.holds_closure.mpr fun e => ?_⟩
  rw [← h.holds_prenex, h.prenex_eq_quantify]
  exact h.holds_of_clauses h.nodup_prefix rfl hreads fun e' _ => hholds e'

/-- Where witnesses need not depend on variables outside a prefix, the clauses are satisfiable if
the matrix below the prefix is true whatever the values of these. -/
theorem jointlySatisfiable_of_prefix (h : r.IsRun limits f)
    (hf : ∀ s ∈ f.symbols, ¬ IsSkolemName s) {bs : List Binder}
    (hbs : (bs.map Binder.name).Nodup) (hterms : skolemTerms {} [] bs = r.terms)
    {D : Type u} [Nonempty D] {I : Interpretation D}
    (hwitness : ∀ K : Interpretation D,
      r.prenex.matrix.UniformPrefix K (· ∉ bs.map Binder.name) bs)
    (hholds : ∀ e, (r.prenex.matrix.quantify bs).Holds I e) :
    JointlySatisfiable.{u} r.clauses := by
  obtain ⟨d⟩ := ‹Nonempty D›
  have hbsZ : ∀ x ∈ bs.map Binder.name, ¬ x ∉ bs.map Binder.name := fun x hx hx' => hx' hx
  obtain ⟨J, hJ, hreads, hclauses⟩ := h.exists_holds_clauses (e := fun _ => d) hf hbs hterms hbsZ
    hwitness fun e _ => hholds e
  -- every variable is in the prefix or outside it
  refine jointlySatisfiable_iff_forall.mpr ⟨D, J, ⟨d⟩, hreads, fun e => hclauses e fun x hx => ?_⟩
  exact absurd (Classical.em _) (mt Or.symm hx)

/-- Where no existential quantifier has a free variable of the formula below it, its terms need not
depend on these, and if the closure of the formula is satisfiable, so are the clauses. -/
theorem jointlySatisfiable_of_closure (h : r.IsRun limits f)
    (hf : ∀ s ∈ f.symbols, ¬ IsSkolemName s)
    (hfree : ∀ x g, .quant .existential x g ∈ r.standardized.subformulas →
      ∀ y ∈ g.free, y ∉ f.free)
    (hclosure : Formula.Satisfiable.{u} f.closure) : JointlySatisfiable.{u} r.clauses := by
  obtain ⟨D, I, e, hholds⟩ := hclosure
  have : Nonempty D := ⟨e ""⟩
  refine h.jointlySatisfiable_of_prefix hf h.nodup_prefix rfl (I := I) (fun K => ?_) fun e' => ?_
  · have hnames : r.prenex.quantifierPrefix.map Binder.name = r.standardized.boundNames := by
      rw [h.quantifierPrefix_prenex]
      rfl
    rw [hnames, h.matrix_prenex, h.quantifierPrefix_prenex]
    refine Formula.uniformPrefix_core h.isImplicationFree_standardized
      h.isNegationNormal_standardized h.bindersApart fun x g hg y hy hyx hybound => ?_
    -- a variable below the quantifier is bound somewhere around it, or free in the formula
    have hquant : y ∈ (Formula.quant .existential x g).free := by
      simpa [Formula.free, hyx] using hy
    rcases Formula.mem_free_subformula hg hquant with hyfree | hy'
    · exact hfree x g hg y hy (h.mem_free_standardized.mp hyfree)
    · exact hybound hy'
  · rw [← h.prenex_eq_quantify, h.holds_prenex]
    exact Formula.holds_closure.mp hholds e'

/-- The clauses are satisfiable with universal variables exactly if the formula is, with its free
variables under universal quantifiers below all others. -/
theorem jointlySatisfiable_iff (h : r.IsRun limits f) (hf : ∀ s ∈ f.symbols, ¬ IsSkolemName s) :
    JointlySatisfiable.{u} r.clauses ↔ Formula.Satisfiable.{u} r.closedBelow := by
  rw [closedBelow_eq]
  constructor
  · intro hclauses
    obtain ⟨D, I, ⟨d⟩, hreads, hholds⟩ := jointlySatisfiable_iff_forall.mp hclauses
    refine ⟨D, I, fun _ => d, ?_⟩
    exact h.holds_of_clauses h.nodup_closedPrefix r.skolemTerms_closedPrefix hreads
      fun e' _ => hholds e'
  · rintro ⟨D, I, e, hholds⟩
    have : Nonempty D := ⟨e ""⟩
    refine h.jointlySatisfiable_of_prefix hf h.nodup_closedPrefix r.skolemTerms_closedPrefix
      (I := I) (fun K => ?_) fun e' => ?_
    · apply Formula.uniformPrefix_of_not_free
      intro x hx hx'
      exact hx' (h.mem_closedPrefix_of_mem_free hx)
    · -- no variable is free, and so the assignment does not matter
      refine (Formula.holds_congr fun x hx => ?_).mp hholds
      obtain ⟨hx, hx'⟩ := Formula.mem_free_quantify.mp hx
      exact absurd (h.mem_closedPrefix_of_mem_free hx) hx'

end Normalization.IsRun

namespace Formula

/-- The clauses are satisfiable exactly if the prenex form is with the free variables quantified
below its prefix. Then the closure of the formula is satisfiable, and the converse holds too if no
existential quantifier has a free variable of the formula below it. -/
theorem jointlySatisfiable_clauses {limits : Limits} {f : Formula} {r : Normalization}
    (h : (f.normalize limits).result = .ok r) (hf : ∀ s ∈ f.symbols, ¬ IsSkolemName s) :
    (JointlySatisfiable.{u} r.clauses ↔ Satisfiable.{u} r.closedBelow) ∧
      (JointlySatisfiable.{u} r.clauses → Satisfiable.{u} f.closure) ∧
      ((∀ x g, quant .existential x g ∈ r.standardized.subformulas →
          ∀ y ∈ g.free, y ∉ f.free) →
        Satisfiable.{u} f.closure → JointlySatisfiable.{u} r.clauses) := by
  have hrun := normalize_eq_ok_iff.mp h
  refine ⟨hrun.jointlySatisfiable_iff hf, hrun.satisfiable_closure, ?_⟩
  exact hrun.jointlySatisfiable_of_closure hf

set_option maxRecDepth 10000 in
/-- An open formula whose existential quantifier has no free variable below it. -/
theorem jointlySatisfiable_clauses_open :
    let f := binary .conj (prop "P" [.var "x"]) (quant .existential "y" (prop "Q" [.var "y"]))
    ∃ r, (f.normalize {}).result = .ok r ∧ (∀ s ∈ f.symbols, ¬ IsSkolemName s) ∧
      (JointlySatisfiable.{0} r.clauses ↔ Satisfiable.{0} r.closedBelow) ∧
      (JointlySatisfiable.{0} r.clauses ↔ Satisfiable.{0} f.closure) := by
  intro f
  have hstandardized : (f.normalize {}).result.map Normalization.standardized = .ok f := by
    decide +kernel
  obtain ⟨r, hr, hstd⟩ := exists_eq_ok_of_map hstandardized
  have hf : ∀ s ∈ f.symbols, ¬ IsSkolemName s := by
    intro s hs
    apply IsSkolemName.not_of_head <;> revert s <;> decide
  -- the only existential quantifier has its own variable below it
  obtain ⟨hbelow, hclosure, hconverse⟩ := jointlySatisfiable_clauses.{0} hr hf
  refine ⟨r, hr, hf, hbelow, hclosure, hconverse ?_⟩
  rw [hstd]
  intro x g hg
  obtain ⟨rfl, rfl⟩ : x = "y" ∧ g = prop "Q" [.var "y"] := by
    simpa [f, subformulas] using hg
  decide

set_option maxRecDepth 10000 in
/-- An existential quantifier with a free variable below it. The value of `y` has to differ from the
value of `x`, which the constant for `y` cannot do for all values of `x`. -/
theorem closure_satisfiable_clauses_not :
    let f := quant .existential "y"
      (binary .conj (binary .disj (prop "P" [.var "x"]) (prop "P" [.var "y"]))
        (binary .disj (neg (prop "P" [.var "x"])) (neg (prop "P" [.var "y"]))))
    ∃ r, (f.normalize {}).result = .ok r ∧ (∀ s ∈ f.symbols, ¬ IsSkolemName s) ∧
      Satisfiable.{0} f.closure ∧ ¬ JointlySatisfiable.{0} r.clauses := by
  intro f
  have hclauses : (f.normalize {}).result.map Normalization.clauses =
      .ok [binary .disj (prop "P" [.var "x"]) (prop "P" [.app "c1" []]),
        binary .disj (neg (prop "P" [.var "x"])) (neg (prop "P" [.app "c1" []]))] := by
    decide +kernel
  obtain ⟨r, hr, hclauses⟩ := exists_eq_ok_of_map hclauses
  refine ⟨r, hr, ?_, ?_, ?_⟩
  · intro s hs
    apply IsSkolemName.not_of_head <;> revert s <;> decide
  · -- over two values, `y` can be the one that `x` is not
    refine ⟨Bool, ⟨fun _ _ => true, fun _ ds => ds = [true], fun _ => True⟩, fun _ => true, ?_⟩
    refine holds_closure.mpr fun e => ⟨!e "x", ?_⟩
    cases hx : e "x" <;> simp [Holds, Connective.Joins, Term.values, Term.value, hx]
  · rintro hsat
    obtain ⟨D, I, -, -, hholds⟩ := jointlySatisfiable_iff_forall.mp hsat
    rw [hclauses] at hholds
    -- both clauses are about the constant alone where `x` has its value
    have hc := hholds fun _ => I.function "c1" []
    simp [Holds, Connective.Joins, Term.values, Term.value] at hc

end Formula

end ClausalForm
