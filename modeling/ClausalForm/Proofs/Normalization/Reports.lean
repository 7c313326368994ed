import ClausalForm.Proofs.NormalForm.Operands
import ClausalForm.Proofs.NormalForm.Replacement
import ClausalForm.Proofs.Normalization.Shape

/-!
# Reports on clauses

A report counts which literals of a clause are negations and which are not. The clauses of a run
are disjunctions of atoms and negated atoms, so that the reports count these, and there is always
at least one. How conjunctions and disjunctions are grouped does not matter to any report.

## Main definitions

* `Formula.isNegatedAtom`: whether a formula is the negation of an atom
* `HornReport.Counts`: a report counts the atoms and the negated atoms among the literals

## Main results

* `counts_ofClause`: the report on a disjunction of literals
* `map_figures_clauses_regroups`: grouping in another way changes no report
* `clauses_and_reports`: how a formula is taken apart, and what the reports of a run say
-/

namespace ClausalForm

universe u

/-- Whether a formula is the negation of an atom. -/
def Formula.isNegatedAtom : Formula → Bool
  | neg f => f.isAtom
  | _ => false

theorem HornKind.classify_eq_empty_iff {positive negative : Nat} :
    classify positive negative = empty ↔ positive + negative = 0 := by
  unfold classify
  split <;> simp_all

namespace HornReport

/-- The report counts the atoms and the negated atoms among the literals of its clause, of which
there are some, and its kind tells whether at most one of them is an atom. -/
structure Counts (r : HornReport) : Prop where
  positive_eq : r.positive = r.clause.literals.countP Formula.isAtom
  negative_eq : r.negative = r.clause.literals.countP Formula.isNegatedAtom
  add_eq : r.positive + r.negative = r.clause.literals.length
  one_le : 1 ≤ r.positive + r.negative
  kind_ne : r.kind ≠ .empty
  isHorn_iff : r.isHorn ↔ r.clause.literals.countP Formula.isAtom ≤ 1
  kind_isHorn : r.kind.isHorn = r.isHorn

/-- The report on a disjunction of literals counts them. -/
theorem counts_ofClause {c : Formula} (h : c.isClause) : (ofClause c).Counts := by
  have hliteral : ∀ l ∈ c.literals, l.isLiteral := Formula.forall_mem_chain (fun _ _ => rfl) h
  have hpositive : (ofClause c).positive = c.literals.countP Formula.isAtom := by
    refine List.countP_congr fun l hl => ?_
    have hl := hliteral l hl
    cases l <;> simp_all [Formula.isNegation, Formula.isLiteral, Formula.isAtom]
  have hnegative : (ofClause c).negative = c.literals.countP Formula.isNegatedAtom := by
    refine List.countP_congr fun l hl => ?_
    have hl := hliteral l hl
    cases l <;> simp_all [Formula.isNegation, Formula.isLiteral, Formula.isNegatedAtom]
  have hadd : (ofClause c).positive + (ofClause c).negative = c.literals.length := by
    rw [Nat.add_comm, List.length_eq_countP_add_countP Formula.isNegation]
    simp [ofClause]
  have hone : 1 ≤ (ofClause c).positive + (ofClause c).negative := by
    rw [hadd]
    exact List.length_pos_of_ne_nil (Formula.chain_ne_nil .disj c)
  refine ⟨hpositive, hnegative, hadd, hone, fun hempty => ?_, ?_, ?_⟩
  · have hzero : (ofClause c).positive + (ofClause c).negative = 0 :=
      HornKind.classify_eq_empty_iff.mp hempty
    omega
  · rw [isHorn, decide_eq_true_iff, hpositive]
    exact Iff.rfl
  · exact HornKind.isHorn_classify ..

end HornReport

namespace Formula

theorem Regroups.map_eq_of_forall₂ {α : Type} {φ : Formula → α} {fs gs : List Formula}
    (hφ : ∀ {f g : Formula}, f.Regroups g → φ f = φ g) (h : List.Forall₂ Regroups fs gs) :
    fs.map φ = gs.map φ := by
  induction h with
  | nil => rfl
  | cons hfg _ ih => rw [List.map_cons, List.map_cons, ih, hφ hfg]

/-- A clause keeps its counts and its kind, however its literals are grouped. -/
theorem Regroups.figures_ofClause {c d : Formula} (h : c.Regroups d) :
    (HornReport.ofClause c).figures = (HornReport.ofClause d).figures := by
  have hsigns : c.literals.map isNegation = d.literals.map isNegation :=
    map_eq_of_forall₂ isNegation_eq (h.forall₂_chain .disj)
  -- both counts are counts of signs
  have hcount (p : Bool → Bool) : c.literals.countP (fun l => p l.isNegation) =
      d.literals.countP fun l => p l.isNegation := by
    have hcount := congrArg (List.countP p) hsigns
    rwa [List.countP_map, List.countP_map] at hcount
  have hpositive := hcount (!·)
  have hnegative : c.literals.countP isNegation = d.literals.countP isNegation := hcount id
  simp only [HornReport.figures, HornReport.ofClause, hpositive, hnegative]

/-- Grouping in another way changes no report on a clause, nor their order. -/
theorem Regroups.map_figures_clauses {f g : Formula} (h : f.Regroups g) :
    f.clauses.map (fun c => (HornReport.ofClause c).figures) =
      g.clauses.map fun c => (HornReport.ofClause c).figures :=
  map_eq_of_forall₂ figures_ofClause (h.forall₂_chain .conj)

/-- How formulas are taken apart, and what the reports of a run say. The loop with the stack finds
the operands of a chain, which are listed by their places, of which there are some, and none of
which is an application of the connective. A formula says that all of its clauses hold, and that
some of its literals holds. The reports of a run stand for its clauses in their order and count the
atoms and the negated atoms among their literals, and grouping in another way, which is to keep the
operands of the chains in their order, changes no count and no kind. -/
theorem clauses_and_reports :
    (∀ (op : Connective) (f : Formula),
      takeApart op [f] [] = f.chain op ∧
        (∀ parts, f.ListsOperands op parts ↔ parts = f.chain op) ∧ f.chain op ≠ [] ∧
        ∀ c ∈ f.chain op, c.isApplicationOf op = false) ∧
      (∀ {D : Type u} (I : Interpretation D) (e : String → D) (f : Formula),
        (f.Holds I e ↔ ∀ c ∈ f.clauses, c.Holds I e) ∧
          (f.Holds I e ↔ ∃ l ∈ f.literals, l.Holds I e)) ∧
      (∀ limits f r, (normalize limits f).result = .ok r →
        r.horn.map HornReport.clause = r.clauses ∧ ∀ report ∈ r.horn, report.Counts) ∧
      ∀ f g : Formula,
        (∀ op, op = .conj ∨ op = .disj →
          (f.Regroups g ↔ List.Forall₂ Regroups (f.chain op) (g.chain op))) ∧
          (f.Regroups g → f.clauses.map (fun c => (HornReport.ofClause c).figures) =
            g.clauses.map fun c => (HornReport.ofClause c).figures) := by
  refine ⟨fun op f => ?_, fun I e f => ?_, fun limits f r h => ?_, fun f g => ?_⟩
  · exact ⟨takeApart_singleton op f, fun parts => listsOperands_iff, chain_ne_nil op f,
      fun c hc => isApplicationOf_of_mem_chain hc⟩
  · exact ⟨(forall_clauses_holds_iff f e).symm, (exists_literals_holds_iff f e).symm⟩
  · have hclauses := isClause_of_mem_clauses (normalize_eq_ok_iff.mp h).isCnf_cnf
    constructor
    · rw [Normalization.horn, List.map_map]
      exact List.map_id _
    · intro report hreport
      obtain ⟨c, hc, rfl⟩ := List.mem_map.mp hreport
      exact HornReport.counts_ofClause (hclauses c hc)
  · exact ⟨fun op hop => regroups_iff_forall₂_chain hop, fun h => h.map_figures_clauses⟩

/-- Three clauses, one of each of three kinds, and the same with the first two and the first two
literals of the last one grouped together. -/
theorem clauses_and_reports_three :
    let a := prop "A" []
    let b := prop "B" [.var "x"]
    let c := binary .disj (neg a) b
    let f := binary .conj c (binary .conj (neg b) (binary .disj a (binary .disj b (neg a))))
    let g := binary .conj (binary .conj c (neg b)) (binary .disj (binary .disj a b) (neg a))
    let figures := [(1, 1, HornKind.rule), (0, 1, .query), (2, 1, .nonHorn)]
    takeApart .conj [f] [] = [c, neg b, binary .disj a (binary .disj b (neg a))] ∧
      (∃ r, (f.normalize {}).result = .ok r ∧ r.horn.map HornReport.figures = figures ∧
        ∀ report ∈ r.horn, report.Counts) ∧
      g.clauses.map (fun c => (HornReport.ofClause c).figures) = figures := by
  intro a b c f g figures
  obtain ⟨hchain, -, hrun, hregroups⟩ := clauses_and_reports.{0}
  have hregroup : f.Regroups g :=
    (Regroups.assoc (.inl rfl) ..).symm.trans
      (.join (.inl rfl) (.refl _) (Regroups.assoc (.inr rfl) ..).symm)
  have hnormalize : (f.normalize {}).result.map (fun r => r.horn.map HornReport.figures) =
      .ok figures := by
    decide +kernel
  obtain ⟨r, hr, hfigures⟩ := exists_eq_ok_of_map hnormalize
  refine ⟨(hchain .conj f).1, ⟨r, hr, hfigures, (hrun {} f r hr).2⟩, ?_⟩
  rw [← (hregroups f g).2 hregroup]
  rfl

end Formula

end ClausalForm
