import ClausalForm.NormalForm.ImplicationFree
import ClausalForm.Proofs.Formula.Truth

/-!
# Elimination of implications

The rewriting of implications and biconditionals keeps the truth of a formula and leaves none of
them.

## Main definitions

* `Formula.expanded`: the rewriting as a function of the tree alone
* `Formula.isImplicationFree`: whether a formula has no implication and no biconditional

## Main results

* `eliminateImplicationWithin_eq`: the pass computes `expanded`
* `isImplicationFree_expanded`: what it leaves
* `eraseDups_free_expanded`, `mem_binders_expanded`, `mem_symbols_expanded`, `holds_expanded`:
  what it keeps
* `equivalent_eliminateImplication`: all of this for the pass
-/

namespace ClausalForm.Formula

universe u

/-- Every implication and biconditional rewritten. -/
def expanded : Formula → Formula
  | prop p args => prop p args
  | var x => var x
  | neg f => neg f.expanded
  | binary op l r => withoutImplication op l.expanded r.expanded
  | quant q x f => quant q x f.expanded

/-- Whether a formula has no implication and no biconditional. -/
def isImplicationFree : Formula → Bool
  | prop .. | var _ => true
  | neg f | quant _ _ f => f.isImplicationFree
  | binary op l r =>
    (op == .conj || op == .disj) && l.isImplicationFree && r.isImplicationFree

/-- A formula without implications and biconditionals has none of them at any depth. -/
theorem isImplicationFree_iff {f : Formula} :
    f.isImplicationFree ↔ ∀ g ∈ f.subformulas,
      g.isApplicationOf .implies = false ∧ g.isApplicationOf .iff = false := by
  induction f with
  | prop | var => simp [isImplicationFree, subformulas, isApplicationOf]
  | neg f ih | quant q x f ih =>
    rw [isImplicationFree, ih, subformulas, List.forall_mem_cons]
    exact (and_iff_right ⟨rfl, rfl⟩).symm
  | binary op l r ihl ihr =>
    rw [isImplicationFree, Bool.and_eq_true, Bool.and_eq_true, ihl, ihr, subformulas,
      List.forall_mem_cons, List.forall_mem_append, and_assoc]
    -- what is left is to compare the connective at the root
    refine and_congr_left fun _ => ?_
    simp only [isApplicationOf]
    cases op <;> decide

theorem eliminateImplicationWithin_eq (limit n : Nat) (f : Formula) :
    eliminateImplicationWithin limit n f = withLevels limit f.height n f.expanded := by
  induction f generalizing n with
  | prop | var => simp [eliminateImplicationWithin, height, expanded]
  | neg f ih | quant q x f ih =>
    cases n with
    | zero => simp [eliminateImplicationWithin, height]
    | succ n =>
      simp only [eliminateImplicationWithin, height, expanded, ih, withLevels_succ_succ]
      exact withLevels_bind_pure ..
  | binary op l r ihl ihr =>
    cases n with
    | zero => simp [eliminateImplicationWithin, height]
    | succ n =>
      simp only [eliminateImplicationWithin, height, expanded, ihl, ihr, withLevels_succ_succ]
      exact withLevels_bind (withLevels_bind_pure ..)

/-- No implication and no biconditional is left. -/
theorem isImplicationFree_expanded (f : Formula) : f.expanded.isImplicationFree := by
  induction f with
  | prop | var => rfl
  | neg f ih | quant q x f ih => exact ih
  | binary op l r ihl ihr =>
    cases op <;> simp [expanded, withoutImplication, isImplicationFree, ihl, ihr]

/-- Without implications and biconditionals there is nothing to rewrite. -/
theorem expanded_of_isImplicationFree {f : Formula} (h : f.isImplicationFree) :
    f.expanded = f := by
  induction f with
  | prop | var => rfl
  | neg f ih | quant q x f ih => rw [expanded, ih h]
  | binary op l r ihl ihr =>
    simp only [isImplicationFree, Bool.and_eq_true, Bool.or_eq_true, beq_iff_eq] at h
    obtain ⟨⟨hop, hl⟩, hr⟩ := h
    rw [expanded, ihl hl, ihr hr]
    rcases hop with rfl | rfl <;> rfl

/-! ### Names and truth -/

/-- The operands of a biconditional come a second time in the other order, so that each variable is
met for the first time where it was. -/
theorem eraseDups_free_expanded (f : Formula) : f.expanded.free.eraseDups = f.free.eraseDups := by
  induction f with
  | prop | var => rfl
  | neg f ih => exact ih
  | binary op l r ihl ihr =>
    rw [free, ← eraseDups_append_congr ihl ihr]
    cases op with
    | conj | disj | implies => rfl
    | iff =>
      refine eraseDups_append_of_subset fun x hx => ?_
      exact List.mem_append.mpr (List.mem_append.mp hx).symm
  | quant q x f ih => rw [expanded, free, free, eraseDups_filter, eraseDups_filter, ih]

theorem mem_free_expanded {f : Formula} {x : String} : x ∈ f.expanded.free ↔ x ∈ f.free := by
  rw [← List.mem_eraseDups, eraseDups_free_expanded, List.mem_eraseDups]

theorem mem_binders_withoutImplication {op : Connective} {l r : Formula} {b : Binder} :
    b ∈ (withoutImplication op l r).binders ↔ b ∈ l.binders ∨ b ∈ r.binders := by
  cases op with
  | conj | disj | implies => exact List.mem_append
  | iff =>
    simp only [withoutImplication, binders, List.mem_append]
    exact ⟨fun h => h.elim id Or.symm, Or.inl⟩

/-- Quantifiers are repeated with the operands that they are in, but there are no others. -/
theorem mem_binders_expanded {f : Formula} {b : Binder} :
    b ∈ f.expanded.binders ↔ b ∈ f.binders := by
  induction f with
  | prop | var => exact Iff.rfl
  | neg f ih => exact ih
  | binary op l r ihl ihr =>
    rw [expanded, mem_binders_withoutImplication, ihl, ihr, binders, List.mem_append]
  | quant q x f ih => rw [expanded, binders, binders, List.mem_cons, List.mem_cons, ih]

theorem mem_boundNames_expanded {f : Formula} {x : String} :
    x ∈ f.expanded.boundNames ↔ x ∈ f.boundNames := by
  simp only [boundNames, List.mem_map, mem_binders_expanded]

theorem mem_symbols_withoutImplication {op : Connective} {l r : Formula} {s : String} :
    s ∈ (withoutImplication op l r).symbols ↔ s ∈ l.symbols ∨ s ∈ r.symbols := by
  cases op with
  | conj | disj | implies => exact List.mem_append
  | iff =>
    simp only [withoutImplication, symbols, List.mem_append]
    exact ⟨fun h => h.elim id Or.symm, Or.inl⟩

theorem mem_symbols_expanded {f : Formula} {s : String} :
    s ∈ f.expanded.symbols ↔ s ∈ f.symbols := by
  induction f with
  | prop | var => exact Iff.rfl
  | neg f ih | quant q y f ih => exact ih
  | binary op l r ihl ihr =>
    rw [expanded, mem_symbols_withoutImplication, ihl, ihr, symbols, List.mem_append]

variable {D : Type u} {I : Interpretation D}

/-- One connective said without implication means what it meant. -/
theorem holds_withoutImplication (op : Connective) (l r : Formula) (e : String → D) :
    (withoutImplication op l r).Holds I e ↔ (binary op l r).Holds I e := by
  cases op with
  | conj | disj => exact Iff.rfl
  | implies => exact imp_iff_not_or.symm
  | iff =>
    -- two implications, each without its arrow
    refine Iff.trans ?_ iff_iff_implies_and_implies.symm
    exact and_congr imp_iff_not_or.symm imp_iff_not_or.symm

/-- The rewriting keeps the truth of a formula. -/
theorem holds_expanded (f : Formula) (e : String → D) : f.expanded.Holds I e ↔ f.Holds I e := by
  induction f generalizing e with
  | prop | var => exact Iff.rfl
  | neg f ih => exact not_congr (ih e)
  | binary op l r ihl ihr =>
    rw [expanded, holds_withoutImplication]
    exact op.joins_congr (ihl e) (ihr e)
  | quant q x f ih => exact q.ranges_congr fun d => ih _

/-! ### The pass -/

/-- Elimination of implications keeps the meaning and is complete. What it makes of a formula has no
implication and no biconditional at any depth and says the same. It has the same quantifiers, if
perhaps more often, and the same free variables in the order in which they are met first. Where
there is nothing to eliminate, the formula stays as it is. -/
theorem equivalent_eliminateImplication {limits : Limits} {f g : Formula}
    (h : f.eliminateImplication limits = .ok g) :
    (∀ s ∈ g.subformulas, s.isApplicationOf .implies = false ∧ s.isApplicationOf .iff = false) ∧
      (∀ {D : Type u} (I : Interpretation D) (e : String → D), g.Holds I e ↔ f.Holds I e) ∧
      ((∀ s ∈ f.subformulas, s.isApplicationOf .implies = false ∧ s.isApplicationOf .iff = false) →
        g = f) ∧
      (∀ b, b ∈ g.binders ↔ b ∈ f.binders) ∧
      ∃ xs, f.freeVariables limits = .ok xs ∧ ∀ ample : Limits,
        (g.height ≤ ample.depth → g.freeVariables ample = .ok xs) ∧
        ∀ ys, f.freeVariables ample = .ok ys ∨ g.freeVariables ample = .ok ys → ys = xs := by
  rw [eliminateImplication, eliminateImplicationWithin_eq, withLevels_eq_ok_iff] at h
  obtain ⟨hlevels, rfl⟩ := h
  refine ⟨isImplicationFree_iff.mp (isImplicationFree_expanded f), fun I e => holds_expanded f e,
    fun hfree => expanded_of_isImplicationFree (isImplicationFree_iff.mpr hfree),
    fun b => mem_binders_expanded, f.free.eraseDups, ?_, fun ample => ⟨fun hample => ?_, ?_⟩⟩
  · rw [freeVariables_eq, withLevels_eq_ok_iff]
    exact ⟨hlevels, rfl⟩
  · rw [freeVariables_eq, withLevels_eq_ok_iff]
    exact ⟨hample, eraseDups_free_expanded f⟩
  · rintro ys (hys | hys)
    · rw [freeVariables_eq, withLevels_eq_ok_iff] at hys
      exact hys.2.symm
    · rw [freeVariables_eq, withLevels_eq_ok_iff, eraseDups_free_expanded] at hys
      exact hys.2.symm

/-- A biconditional below a negation and inside another one. The quantifier in it comes out four
times, and the free variables of both in the order in which they went in. -/
theorem equivalent_eliminateImplication_nested :
    let inner := binary .iff (var "y") (quant .existential "x" (prop "Q" [.var "x", .var "z"]))
    let f := quant .universal "x" (binary .iff (prop "P" [.var "z", .var "x"]) (neg inner))
    ∃ g, f.eliminateImplication {} = .ok g ∧
      (∀ s ∈ g.subformulas,
        s.isApplicationOf .implies = false ∧ s.isApplicationOf .iff = false) ∧
      (∀ (I : Interpretation Bool) (e : String → Bool), g.Holds I e ↔ f.Holds I e) ∧
      g.binders = ⟨.universal, "x"⟩ :: List.replicate 4 ⟨.existential, "x"⟩ ∧
      f.binders = [⟨.universal, "x"⟩, ⟨.existential, "x"⟩] ∧
      (∀ b, b ∈ g.binders ↔ b ∈ f.binders) ∧
      f.freeVariables {} = .ok ["z", "y"] ∧ g.freeVariables {} = .ok ["z", "y"] := by
  intro inner f
  have hrun : f.eliminateImplication {} = .ok f.expanded := rfl
  obtain ⟨hnone, hholds, -, hbinders, xs, hf, hample⟩ := equivalent_eliminateImplication hrun
  have hxs : f.freeVariables {} = .ok ["z", "y"] := by decide +kernel
  obtain rfl : ["z", "y"] = xs := Except.ok.inj (hxs.symm.trans hf)
  exact ⟨f.expanded, hrun, hnone, hholds, rfl, rfl, hbinders, hxs, (hample {}).1 (by decide)⟩

end ClausalForm.Formula
