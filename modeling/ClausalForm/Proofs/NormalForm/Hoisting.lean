import ClausalForm.Proofs.NormalForm.Prenex

/-!
# Quantifiers in front

What hoisting makes of any formula, whatever connectives it has and wherever its quantifiers are:
all quantifiers come to the front, in pre-order, and the rest of the formula stays as it was.
Whether the formula still says the same is another question, to which the conditions belong.

## Main definitions

* `Formula.binder?`: the quantifier at the root of a formula

## Main results

* `binders_eq_filterMap`: the quantifiers are those of the subformulas
* `hoistQuantifiers_quantify`: a formula with its quantifiers in front stays as it is
* `quantifierPrefix_hoistQuantifiers`: all of this for the pass
-/

namespace ClausalForm.Formula

universe u

/-- The quantifier at the root of the formula, if there is one. -/
def binder? : Formula → Option Binder
  | quant q x _ => some ⟨q, x⟩
  | _ => none

/-- The quantifiers of a formula in pre-order are those of its subformulas. -/
theorem binders_eq_filterMap (f : Formula) : f.binders = f.subformulas.filterMap binder? := by
  induction f with
  | prop | var => rfl
  | neg f ih => exact ih
  | binary op l r ihl ihr =>
    have hroot : (binary op l r).binder? = none := rfl
    rw [subformulas, List.filterMap_cons_none hroot, List.filterMap_append, ← ihl, ← ihr, binders]
  | quant q x f ih =>
    have hroot : (quant q x f).binder? = some ⟨q, x⟩ := rfl
    rw [subformulas, List.filterMap_cons_some hroot, ← ih, binders]

/-- Hoisting leaves a formula with its quantifiers in front as it is, as far as it goes down. -/
theorem hoistQuantifiers_quantify {f : Formula} (hf : f.isQuantifierFree) (bs : List Binder)
    (limits : Limits) :
    (f.quantify bs).hoistQuantifiers limits =
      withLevels limits.depth (f.quantify bs).height limits.depth (f.quantify bs) := by
  rw [hoistQuantifiers_eq, binders_quantify, binders_of_isQuantifierFree hf, List.append_nil,
    core_quantify, core_of_isQuantifierFree hf]

/-- What hoisting makes of a formula: its quantifiers in pre-order in front of what it is without
them, which is left as it is by hoisting again. If there are no implications and biconditionals, no
quantifier lies below a negation, and every quantifier binds a name of its own, which is not free,
then it says the same, wherever there is something to quantify over. -/
theorem quantifierPrefix_hoistQuantifiers {limits : Limits} {f g : Formula}
    (h : f.hoistQuantifiers limits = .ok g) :
    g.quantifierPrefix = f.subformulas.filterMap binder? ∧
      g.matrix = f.core ∧ g.matrix.isQuantifierFree ∧
      (∀ limits', g.height ≤ limits'.depth → g.hoistQuantifiers limits' = .ok g) ∧
      (∀ limits' g', g.hoistQuantifiers limits' = .ok g' → g' = g) ∧
      (f.isImplicationFree → (∀ a, neg a ∈ f.subformulas → a.isQuantifierFree) → f.BindersApart →
        ∀ {D : Type u} [Nonempty D] (I : Interpretation D) (e : String → D),
          g.Holds I e ↔ f.Holds I e) := by
  rw [hoistQuantifiers_eq, withLevels_eq_ok_iff] at h
  obtain ⟨-, rfl⟩ := h
  have hcore := isQuantifierFree_core f
  have hagain := hoistQuantifiers_quantify hcore f.binders
  have hmatrix : (f.core.quantify f.binders).matrix = f.core := matrix_quantify hcore _
  refine ⟨?_, hmatrix, hmatrix.symm ▸ hcore, ?_, ?_, ?_⟩
  · rw [quantifierPrefix_quantify hcore, binders_eq_filterMap]
  · intro limits' hdepth
    rw [hagain, withLevels_eq_ok_iff]
    exact ⟨hdepth, rfl⟩
  · intro limits' g' hg'
    rw [hagain, withLevels_eq_ok_iff] at hg'
    exact hg'.2.symm
  · intro himp hneg happart D _ I e
    exact holds_quantify_core himp hneg happart e

/-- Quantifiers on both sides of a disjunction, below another quantifier, and beside a negated
conjunction. -/
theorem quantifierPrefix_hoistQuantifiers_both_sides :
    let p := prop "P" [.var "x", .var "y"]
    let q := prop "Q" [.var "w"]
    let f := binary .disj
      (quant .universal "x" (binary .conj (quant .existential "y" p)
        (neg (binary .conj (var "z") (prop "A" [])))))
      (quant .existential "w" (neg q))
    let m := binary .disj (binary .conj p (neg (binary .conj (var "z") (prop "A" [])))) (neg q)
    let g := quant .universal "x" (quant .existential "y" (quant .existential "w" m))
    f.hoistQuantifiers {} = .ok g ∧
      g.quantifierPrefix = [⟨.universal, "x"⟩, ⟨.existential, "y"⟩, ⟨.existential, "w"⟩] ∧
      g.matrix = m ∧ g.hoistQuantifiers { depth := 7 } = .ok g ∧
      ∀ (I : Interpretation Bool) (e : String → Bool), g.Holds I e ↔ f.Holds I e := by
  intro p q f m g
  have hrun : f.hoistQuantifiers {} = .ok g := rfl
  obtain ⟨hquantifiers, hmatrix, -, hagain, -, hholds⟩ := quantifierPrefix_hoistQuantifiers hrun
  refine ⟨hrun, hquantifiers, hmatrix, hagain _ (by decide), hholds rfl ?_ ⟨?_, ?_⟩⟩
  · intro a ha
    have hcases : a = binary .conj (var "z") (prop "A" []) ∨ a = q := by
      simpa [f, p, q, subformulas] using ha
    rcases hcases with rfl | rfl <;> rfl
  · decide
  · decide

end ClausalForm.Formula
