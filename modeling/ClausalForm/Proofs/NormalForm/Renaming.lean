import ClausalForm.Proofs.Formula.Nameless
import ClausalForm.Proofs.NormalForm.FreshNames

/-!
# Bound renaming

Standardizing apart renames bound variables and does nothing else: without the names of bound
variables, the formula is the same as before. A binder keeps its name if it is the first one of this
name and the name is not free. So a formula whose binders are apart already stays as it is, and to
standardize a second time changes nothing.

## Main definitions

* `Formula.RenamedApart`: one formula is the other with its bound variables renamed apart

## Main results

* `Standardizes.nameless_eq`: the renaming changes nothing but the names of bound variables
* `Standardizes.keepsName_iff`: the binders that keep their names
* `standardize_of_bindersApart`: a formula with binders apart stays as it is
* `renamedApart_of_standardize`: all of this for a whole formula
-/

namespace ClausalForm.Formula

open Reference (resolve resolve_cons_self resolve_cons_of_ne)

variable {limits : Limits} {reserved used used' : Names} {maxSuffix : Nat} {f g : Formula}

/-! ### What variables refer to -/

/-- Without the names of bound variables the formula stays as it is. -/
theorem Standardizes.nameless_eq (h : Standardizes reserved maxSuffix used f g used')
    (hf : Scoped reserved used f) (scope : List String) : g.nameless scope = f.nameless scope := by
  induction h generalizing scope with
  | prop | var => rfl
  | neg _ ih => rw [nameless, nameless, ih ⟨hf.bound, hf.free⟩]
  | binary op hl _ ihl ihr => rw [nameless, nameless, ihl hf.left, ihr (hf.right hl)]
  | @quant used used' x y f g q hy _ ih =>
    have hfresh := hf.isFreshFor hy
    rw [nameless, nameless, ih (hf.rename hy)]
    refine congrArg _ (nameless_subst_var (hfresh.imp_right And.left) fun z hz => ?_)
    by_cases hzx : z = x
    · -- under its new name the variable refers to the same quantifier
      subst hzx
      rw [if_pos rfl, resolve_cons_self, resolve_cons_self]
    · have hzy : z ≠ y := by
        rcases hfresh with rfl | ⟨_, hfree⟩
        · exact hzx
        · rintro rfl
          exact hfree hz
      rw [if_neg hzx, resolve_cons_of_ne hzy, resolve_cons_of_ne hzx]

/-! ### The names that are kept -/

/-- Of the reserved names, those of the old binders are used in addition afterwards. -/
theorem Standardizes.mem_used_iff (h : Standardizes reserved maxSuffix used f g used') {z : String}
    (hz : z ∈ reserved) : z ∈ used' ↔ z ∈ used ∨ z ∈ f.boundNames := by
  induction h with
  | prop | var => simp
  | neg _ ih => exact ih
  | binary op _ _ ihl ihr => rw [ihr, ihl, boundNames_binary, List.mem_append, or_assoc]
  | @quant used used' x y f g q hy _ ih =>
    rw [ih, Names.mem_insert, boundNames_subst, boundNames_quant, List.mem_cons]
    rcases freshName_cases hy with ⟨rfl, -⟩ | ⟨hx, -, hreserved⟩
    · rw [or_comm (a := z = y), or_assoc]
    · -- a new name is not reserved, and the old one was used before
      have hzy : z ≠ y := fun hzy => hreserved (hzy ▸ hz)
      constructor
      · rintro ((hzy' | hused) | hbound)
        · exact absurd hzy' hzy
        · exact .inl hused
        · exact .inr (.inr hbound)
      · rintro (hused | rfl | hbound)
        · exact .inl (.inr hused)
        · exact .inl (.inr hx)
        · exact .inr hbound

theorem Standardizes.length_boundNames (h : Standardizes reserved maxSuffix used f g used') :
    g.boundNames.length = f.boundNames.length := by
  induction h with
  | prop | var => rfl
  | neg _ ih => exact ih
  | binary op _ _ ihl ihr =>
    rw [boundNames_binary, boundNames_binary, List.length_append, List.length_append, ihl, ihr]
  | quant q _ _ ih =>
    rw [boundNames_quant, boundNames_quant, List.length_cons, List.length_cons, ih,
      boundNames_subst]

/-- A binder keeps its name exactly if no binder before it has the same one and it is not used. -/
theorem Standardizes.keepsName_iff (h : Standardizes reserved maxSuffix used f g used')
    (hbound : ∀ x ∈ f.boundNames, x ∈ reserved) {i : Nat} {z : String}
    (hz : f.boundNames[i]? = some z) :
    g.boundNames[i]? = some z ↔ z ∉ f.boundNames.take i ∧ z ∉ used := by
  induction h generalizing i with
  | prop | var => cases hz
  | neg _ ih => exact ih hbound hz
  | @binary used used₁ used₂ l l' r r' op hl hr ihl ihr =>
    rw [boundNames_binary, List.forall_mem_append] at hbound
    rw [boundNames_binary, List.getElem?_append] at hz
    rw [boundNames_binary, boundNames_binary, List.getElem?_append, hl.length_boundNames]
    split at hz
    · rename_i hi
      rw [if_pos hi, List.take_append_of_le_length (Nat.le_of_lt hi)]
      exact ihl hbound.1 hz
    · rename_i hi
      have hreserved := hbound.2 z (List.mem_of_getElem? hz)
      -- the binders of the left operand come before, and their names are used
      rw [if_neg hi, ihr hbound.2 hz, hl.mem_used_iff hreserved, List.take_append,
        List.take_of_length_le (Nat.le_of_not_lt hi), List.mem_append, not_or, not_or]
      constructor
      · rintro ⟨hright, hused, hleft⟩
        exact ⟨⟨hleft, hright⟩, hused⟩
      · rintro ⟨⟨hleft, hright⟩, hused⟩
        exact ⟨hright, hused, hleft⟩
  | @quant used used' x y f g q hy _ ih =>
    rw [boundNames_quant, List.forall_mem_cons] at hbound
    rw [boundNames_quant] at hz
    rw [boundNames_quant, boundNames_quant]
    have hcases := freshName_cases hy
    cases i with
    | zero =>
      obtain rfl := Option.some.inj hz
      rw [List.getElem?_cons_zero, Option.some.injEq, List.take_zero]
      rcases hcases with ⟨rfl, hx⟩ | ⟨hx, hyused, -⟩
      · exact iff_of_true rfl ⟨List.not_mem_nil, hx⟩
      · refine iff_of_false ?_ fun h => h.2 hx
        rintro rfl
        exact hyused hx
    | succ i =>
      rw [List.getElem?_cons_succ] at hz
      have hreserved := hbound.2 z (List.mem_of_getElem? hz)
      rw [List.getElem?_cons_succ, ih (by rw [boundNames_subst]; exact hbound.2)
        (by rw [boundNames_subst]; exact hz), boundNames_subst, Names.mem_insert,
        List.take_succ_cons, List.mem_cons, not_or, not_or]
      rcases hcases with ⟨rfl, hx⟩ | ⟨hx, -, hyreserved⟩
      · constructor
        · rintro ⟨hbefore, hzy, hused⟩
          exact ⟨⟨hzy, hbefore⟩, hused⟩
        · rintro ⟨⟨hzy, hbefore⟩, hused⟩
          exact ⟨hbefore, hzy, hused⟩
      · -- the binder got a name that is not reserved, as its old one was used
        constructor
        · rintro ⟨hbefore, -, hused⟩
          refine ⟨⟨?_, hbefore⟩, hused⟩
          rintro rfl
          exact hused hx
        · rintro ⟨⟨-, hbefore⟩, hused⟩
          refine ⟨hbefore, ?_, hused⟩
          rintro rfl
          exact hyreserved hreserved

/-! ### Binders that are apart already -/

theorem Standardizes.height_eq (h : Standardizes reserved maxSuffix used f g used') :
    g.height = f.height := by
  induction h with
  | prop | var => rfl
  | neg _ ih => rw [height, height, ih]
  | binary op _ _ ihl ihr => rw [height, height, ihl, ihr]
  | quant q _ _ ih => rw [height, height, ih, height_subst]

/-- Where no binder has another name than before, the formula is the same. -/
theorem Standardizes.eq_of_boundNames_eq (h : Standardizes reserved maxSuffix used f g used')
    (hsame : g.boundNames = f.boundNames) : g = f := by
  induction h with
  | prop | var => rfl
  | neg _ ih => rw [ih hsame]
  | binary op hl _ ihl ihr =>
    rw [boundNames_binary, boundNames_binary] at hsame
    obtain ⟨hleft, hright⟩ := List.append_inj hsame hl.length_boundNames
    rw [ihl hleft, ihr hright]
  | quant q _ _ ih =>
    rw [boundNames_quant, boundNames_quant] at hsame
    obtain ⟨rfl, hbody⟩ := List.cons.inj hsame
    rw [ih (by rwa [boundNames_subst]), subst_self]

/-- A formula whose binders are apart stays as it is. -/
theorem standardize_of_bindersApart (h : f.BindersApart) (hheight : f.height ≤ limits.depth) :
    (f.standardize limits).result = .ok f := by
  have hnew : ∀ x ∈ f.boundNames, x ∉ (Std.TreeSet.ofList f.free.eraseDups : Names) := by
    intro x hx hmem
    rw [Names.mem_ofList, List.mem_eraseDups] at hmem
    exact h.not_free x hx hmem
  obtain ⟨used', hnames⟩ : ∃ used', namesFor (.ofList f.variableNames) limits.suffix
      (.ofList f.free.eraseDups) f.boundNames = .ok (f.boundNames, used') :=
    namesFor_of_nodup h.nodup hnew
  have hrun := map_boundNames_standardize hheight
  rw [hnames] at hrun
  obtain ⟨g, hg, hsame⟩ := exists_eq_ok_of_map hrun
  obtain ⟨_, _, _, _, _, hstd⟩ := standardizes_of_standardize hg
  rw [hg, hstd.eq_of_boundNames_eq hsame]

theorem height_le_of_standardize (h : (f.standardize limits).result = .ok g) :
    f.height ≤ limits.depth := by
  simp only [standardize, Journal.result_bind, Journal.result_ofExcept, bind_eq_ok_iff,
    freeVariables_eq, withLevels_eq_ok_iff] at h
  obtain ⟨_, ⟨hheight, -⟩, -⟩ := h
  exact hheight

/-! ### The whole formula -/

/-- The formula `g` is `f` with its bound variables renamed, so that every quantifier binds a name
of its own, which is free nowhere. -/
structure RenamedApart (f g : Formula) : Prop where
  /-- Trees, connectives, quantifiers, propositions and functions are the same, and every variable
  belongs to the quantifier at the same position, or is free with the same name. -/
  nameless_eq : g.nameless [] = f.nameless []
  bindersApart : g.BindersApart
  /-- A binder keeps its name exactly if it is the first one of this name and the name is not
  free. -/
  keepsName_iff : ∀ i x, f.boundNames[i]? = some x →
    (g.boundNames[i]? = some x ↔ x ∉ f.boundNames.take i ∧ x ∉ f.free)

/-- Standardizing apart is a bound renaming. A formula whose binders are apart stays as it is, and
so what is standardized once stays as it is a second time. -/
theorem renamedApart_of_standardize (h : (f.standardize limits).result = .ok g) :
    f.RenamedApart g ∧ (f.BindersApart → g = f) ∧ (g.standardize limits).result = .ok g := by
  obtain ⟨reserved, used, used', hscoped, hused, hstd⟩ := standardizes_of_standardize h
  have hapart := bindersApart_of_standardize h
  have hheight := height_le_of_standardize h
  refine ⟨⟨hstd.nameless_eq hscoped [], hapart, fun i x hx => ?_⟩, fun hf => ?_, ?_⟩
  · rw [hstd.keepsName_iff hscoped.bound hx, hused]
  · have hsame := standardize_of_bindersApart hf hheight
    exact Except.ok.inj (h.symm.trans hsame)
  · rw [← hstd.height_eq] at hheight
    exact standardize_of_bindersApart hapart hheight

/-- A name is shadowed, and bound again beside its first binder, above a binder of the first
numbered name, which would capture it. -/
theorem renamedApart_of_standardize_shadowed :
    let f := binary .conj (quant .universal "x" (quant .existential "x" (prop "P" [.var "x"])))
      (quant .existential "x" (quant .universal "x1"
        (prop "Q" [.var "x", .app "f" [.var "x1", .var "y"]])))
    let g := binary .conj (quant .universal "x" (quant .existential "x2" (prop "P" [.var "x2"])))
      (quant .existential "x3" (quant .universal "x1"
        (prop "Q" [.var "x3", .app "f" [.var "x1", .var "y"]])))
    (f.standardize {}).result = .ok g ∧ f.RenamedApart g ∧ (g.standardize {}).result = .ok g := by
  intro f g
  have h : (f.standardize {}).result = .ok g := by decide +kernel
  obtain ⟨hrenamed, -, hagain⟩ := renamedApart_of_standardize h
  exact ⟨h, hrenamed, hagain⟩

end ClausalForm.Formula
