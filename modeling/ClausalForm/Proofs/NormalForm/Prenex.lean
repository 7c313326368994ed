import ClausalForm.Proofs.NormalForm.Negation

/-!
# Prenex form

Where no quantifier lies below a negation and binders are apart, the quantifiers of a formula can be
moved to its front: each of them passes a conjunction or disjunction whose other operand does not
have its variable. The domain must not be empty for that.

## Main results

* `holds_quantify_binary_left`, `holds_quantify_binary_right`: a prefix passes a connective
* `holds_quantify_core`: a formula means what its quantifiers mean before the rest of it
-/

namespace ClausalForm

universe u

variable {D : Type u}

/-- A quantifier passes a conjunction or disjunction with a constant. -/
theorem Quantifier.ranges_joins [Nonempty D] (q : Quantifier) {op : Connective}
    (hop : op = .conj ∨ op = .disj) (p : D → Prop) (c : Prop) :
    (q.Ranges fun d => op.Joins (p d) c) ↔ op.Joins (q.Ranges p) c := by
  rcases hop with rfl | rfl
  · cases q with
    | universal => exact forall_and_right p c
    | existential => exact exists_and_right
  · cases q with
    | universal => exact forall_or_right
    | existential => exact exists_or.trans (or_congr Iff.rfl (exists_const D))

theorem Connective.joins_comm {op : Connective} (hop : op = .conj ∨ op = .disj) (p q : Prop) :
    op.Joins p q ↔ op.Joins q p := by
  rcases hop with rfl | rfl
  · exact and_comm
  · exact or_comm

namespace Formula

@[simp] theorem quantify_nil (f : Formula) : f.quantify [] = f := rfl

@[simp] theorem quantify_cons (b : Binder) (bs : List Binder) (f : Formula) :
    f.quantify (b :: bs) = quant b.quantifier b.name (f.quantify bs) := rfl

theorem quantify_append (bs cs : List Binder) (f : Formula) :
    f.quantify (bs ++ cs) = (f.quantify cs).quantify bs := List.foldr_append

theorem free_quantify (bs : List Binder) (f : Formula) :
    (f.quantify bs).free = f.free.filter fun x => x ∉ bs.map Binder.name := by
  induction bs with
  | nil => exact (List.filter_eq_self.mpr fun _ _ => rfl).symm
  | cons b bs ih =>
    rw [quantify_cons, free, ih, List.filter_filter]
    refine List.filter_congr fun x _ => ?_
    simp

theorem mem_free_quantify {x : String} {bs : List Binder} {f : Formula} :
    x ∈ (f.quantify bs).free ↔ x ∈ f.free ∧ x ∉ bs.map Binder.name := by
  rw [free_quantify, List.mem_filter, decide_eq_true_eq]

theorem symbols_quantify (bs : List Binder) (f : Formula) :
    (f.quantify bs).symbols = f.symbols := by
  induction bs with
  | nil => rfl
  | cons b bs ih => exact ih

theorem core_quantify (bs : List Binder) (f : Formula) : (f.quantify bs).core = f.core := by
  induction bs with
  | nil => rfl
  | cons b bs ih => exact ih

theorem binders_quantify (bs : List Binder) (f : Formula) :
    (f.quantify bs).binders = bs ++ f.binders := by
  induction bs with
  | nil => rfl
  | cons b bs ih => rw [quantify_cons, binders, ih, List.cons_append]

theorem quantifierPrefix_quantify {f : Formula} (h : f.isQuantifierFree) (bs : List Binder) :
    (f.quantify bs).quantifierPrefix = bs := by
  induction bs with
  | nil =>
    cases f with
    | quant => cases h
    | prop | var | neg | binary => rfl
  | cons b bs ih => rw [quantify_cons, quantifierPrefix, ih]

theorem matrix_quantify {f : Formula} (h : f.isQuantifierFree) (bs : List Binder) :
    (f.quantify bs).matrix = f := by
  induction bs with
  | nil =>
    cases f with
    | quant => cases h
    | prop | var | neg | binary => rfl
  | cons b bs ih => exact ih

/-! ### Shape -/

theorem isImplicationFree_core (f : Formula) : f.core.isImplicationFree = f.isImplicationFree := by
  induction f with
  | prop | var => rfl
  | neg f ih | quant q x f ih => exact ih
  | binary op l r ihl ihr => rw [core, isImplicationFree, isImplicationFree, ihl, ihr]

theorem isNegationNormal_core {f : Formula} (h : f.isNegationNormal) :
    f.core.isNegationNormal := by
  induction f with
  | prop | var => rfl
  | neg f =>
    -- the operand is an atom, which has no quantifier to lose
    cases f with
    | prop | var => rfl
    | neg | binary | quant => cases h
  | binary op l r ihl ihr =>
    rw [isNegationNormal, Bool.and_eq_true] at h
    rw [core, isNegationNormal, ihl h.1, ihr h.2]
    rfl
  | quant q x f ih => exact ih h

theorem isImplicationFree_quantify (bs : List Binder) (f : Formula) :
    (f.quantify bs).isImplicationFree = f.isImplicationFree := by
  induction bs with
  | nil => rfl
  | cons b bs ih => exact ih

theorem isNegationNormal_quantify (bs : List Binder) (f : Formula) :
    (f.quantify bs).isNegationNormal = f.isNegationNormal := by
  induction bs with
  | nil => rfl
  | cons b bs ih => exact ih

/-- With its quantifiers in front a formula has the free occurrences that it had, if its binders are
apart. -/
theorem BindersApart.free_quantify_core {f : Formula} (h : f.BindersApart) :
    (f.core.quantify f.binders).free = f.free :=
  (free_quantify f.binders f.core).trans h.filter_free_core

/-! ### Truth -/

variable {I : Interpretation D}

/-- Equivalent formulas are equivalent under equal quantifiers. -/
theorem holds_quantify_congr {f g : Formula} (h : ∀ e, f.Holds I e ↔ g.Holds I e)
    (bs : List Binder) (e : String → D) :
    (f.quantify bs).Holds I e ↔ (g.quantify bs).Holds I e := by
  induction bs generalizing e with
  | nil => exact h e
  | cons b bs ih => exact b.quantifier.ranges_congr fun d => ih _

variable [Nonempty D] {op : Connective}

/-- A prefix passes a connective whose right operand does not have its variables. -/
theorem holds_quantify_binary_left (hop : op = .conj ∨ op = .disj) {bs : List Binder}
    {f g : Formula} (h : ∀ x ∈ bs.map Binder.name, x ∉ g.free) (e : String → D) :
    ((binary op f g).quantify bs).Holds I e ↔
      op.Joins ((f.quantify bs).Holds I e) (g.Holds I e) := by
  induction bs generalizing e with
  | nil => exact Iff.rfl
  | cons b bs ih =>
    simp only [List.map_cons, List.mem_cons, forall_eq_or_imp] at h
    rw [quantify_cons, quantify_cons, Holds, Holds, ← b.quantifier.ranges_joins hop]
    refine b.quantifier.ranges_congr fun d => ?_
    rw [ih h.2]
    exact op.joins_congr Iff.rfl (holds_update h.1 e d)

/-- A prefix passes a connective whose left operand does not have its variables. -/
theorem holds_quantify_binary_right (hop : op = .conj ∨ op = .disj) {bs : List Binder}
    {f g : Formula} (h : ∀ x ∈ bs.map Binder.name, x ∉ f.free) (e : String → D) :
    ((binary op f g).quantify bs).Holds I e ↔
      op.Joins (f.Holds I e) ((g.quantify bs).Holds I e) := by
  have hswap (e : String → D) : (binary op f g).Holds I e ↔ (binary op g f).Holds I e :=
    Connective.joins_comm hop (f.Holds I e) (g.Holds I e)
  rw [holds_quantify_congr hswap, holds_quantify_binary_left hop h, Connective.joins_comm hop]

/-- In negation normal form no quantifier lies below a negation. -/
theorem isQuantifierFree_of_isNegationNormal {f a : Formula} (h : f.isNegationNormal)
    (ha : neg a ∈ f.subformulas) : a.isQuantifierFree := by
  have hatom := isAtom_of_isNegationNormal h ha
  cases a with
  | prop | var => rfl
  | neg | binary | quant => cases hatom

/-- A formula means what its quantifiers mean before the rest of it. -/
theorem holds_quantify_core {f : Formula} (himp : f.isImplicationFree)
    (hneg : ∀ a, neg a ∈ f.subformulas → a.isQuantifierFree) (happart : f.BindersApart)
    (e : String → D) : (f.core.quantify f.binders).Holds I e ↔ f.Holds I e := by
  induction f generalizing e with
  | prop | var => exact Iff.rfl
  | neg f =>
    -- there is nothing to move
    have hfree : f.isQuantifierFree := hneg f (neg_mem_subformulas_neg.mpr (.inl rfl))
    rw [core, binders, core_of_isQuantifierFree hfree, binders_of_isQuantifierFree hfree,
      quantify_nil]
  | binary op l r ihl ihr =>
    simp only [isImplicationFree, Bool.and_eq_true, Bool.or_eq_true, beq_iff_eq] at himp
    obtain ⟨⟨hop, himpl⟩, himpr⟩ := himp
    have hnegl (a : Formula) (ha : neg a ∈ l.subformulas) : a.isQuantifierFree :=
      hneg a (neg_mem_subformulas_binary.mpr (.inl ha))
    have hnegr (a : Formula) (ha : neg a ∈ r.subformulas) : a.isQuantifierFree :=
      hneg a (neg_mem_subformulas_binary.mpr (.inr ha))
    -- binders apart: the variables of each side are not free on the other one
    have hleft : ∀ x ∈ l.binders.map Binder.name, x ∉ (r.core.quantify r.binders).free :=
      fun x hx hfree => (happart.left_not_mem hx).1 (happart.right.free_quantify_core ▸ hfree)
    have hright : ∀ x ∈ r.binders.map Binder.name, x ∉ l.core.free := fun x hx hfree =>
      (mem_free_core hfree).elim (happart.right_not_mem hx).1 (happart.right_not_mem hx).2
    calc ((binary op l.core r.core).quantify (l.binders ++ r.binders)).Holds I e
        ↔ (((binary op l.core r.core).quantify r.binders).quantify l.binders).Holds I e := by
          rw [quantify_append]
      _ ↔ ((binary op l.core (r.core.quantify r.binders)).quantify l.binders).Holds I e :=
          holds_quantify_congr (holds_quantify_binary_right hop hright) _ e
      _ ↔ op.Joins ((l.core.quantify l.binders).Holds I e)
            ((r.core.quantify r.binders).Holds I e) :=
          holds_quantify_binary_left hop hleft e
      _ ↔ (binary op l r).Holds I e :=
          op.joins_congr (ihl himpl hnegl happart.left e) (ihr himpr hnegr happart.right e)
  | quant q x f ih =>
    have hbody (a : Formula) (ha : neg a ∈ f.subformulas) : a.isQuantifierFree :=
      hneg a (neg_mem_subformulas_quant.mpr ha)
    exact q.ranges_congr fun d => ih himp hbody happart.body _

end Formula

end ClausalForm
