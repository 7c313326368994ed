import ClausalForm.Proofs.NormalForm.Prenex

/-!
# Witnesses for existential variables

A witness for an existential variable may depend on the variables around its quantifier. Where it
need not depend on some of them, one can be chosen without regard to these, and the same holds for
all quantifiers of a prefix at once.

## Main definitions

* `AgreeOff`: assignments that differ on certain variables only
* `UniformWitness`, `UniformPrefix`: witnesses that do not depend on certain variables

## Main results

* `uniformPrefix_of_not_free`: nothing is asked for where the matrix has none of these variables
* `uniformPrefix_core`: nor where the operands of existential quantifiers have none of them
* `exists_function_of_uniform`: a choice of witnesses as a function of some values
-/

namespace ClausalForm

universe u

variable {D : Type u}

/-! ### Witnesses that do not depend on certain variables -/

/-- Two assignments that agree on all variables but those with the property `Z`. -/
def AgreeOff (Z : String → Prop) (e e' : String → D) : Prop :=
  ∀ x, ¬ Z x → e x = e' x

theorem AgreeOff.mono {Z Z' : String → Prop} {e e' : String → D} (h : AgreeOff Z e e')
    (hZ : ∀ x, Z x → Z' x) : AgreeOff Z' e e' :=
  fun x hx => h x fun hz => hx (hZ x hz)

/-- An assignment that is put back at `x` differs there no longer. -/
theorem AgreeOff.put_back {Z : String → Prop} {e e' : String → D} {x : String}
    (h : AgreeOff (fun z => Z z ∨ z = x) e' e) : AgreeOff Z (Function.update e' x (e x)) e := by
  intro z hz
  by_cases hzx : z = x
  · rw [hzx, Function.update_self]
  · rw [Function.update_of_ne hzx]
    exact h z (not_or.mpr ⟨hz, hzx⟩)

namespace Formula

/-- Where there is a value for `x` that makes `f` true, one can be chosen without regard to the
variables with the property `Z`. -/
def UniformWitness (I : Interpretation D) (Z : String → Prop) (x : String) (f : Formula) : Prop :=
  ∃ w : (String → D) → D, (∀ e e', AgreeOff Z e e' → w e = w e') ∧
    ∀ e, (quant .existential x f).Holds I e → f.Holds I (Function.update e x (w e))

/-- For each existential quantifier of a prefix before `f` there are witnesses that do not depend
on the variables with the property `Z`. -/
def UniformPrefix (I : Interpretation D) (Z : String → Prop) : List Binder → Formula → Prop
  | [], _ => True
  | b :: bs, f =>
    (b.quantifier = .existential → UniformWitness I Z b.name (f.quantify bs)) ∧
      UniformPrefix I Z bs f

variable {I : Interpretation D} {Z : String → Prop}

/-- The truth of a formula without variables of the property `Z` gives such witnesses. -/
theorem uniformWitness_of_not_free [Nonempty D] {x : String} {f g : Formula}
    (hiff : ∀ e, f.Holds I e ↔ g.Holds I e) (hZ : ∀ y ∈ g.free, y ≠ x → ¬ Z y) :
    UniformWitness I Z x f := by
  refine ⟨fun e => Classical.epsilon fun d => g.Holds I (Function.update e x d),
    fun e e' he => ?_, fun e h => ?_⟩
  · -- assignments that agree off `Z` leave the same choice
    have hsame (d : D) :
        g.Holds I (Function.update e x d) ↔ g.Holds I (Function.update e' x d) := by
      refine holds_congr fun y hy => ?_
      by_cases hyx : y = x
      · rw [hyx, Function.update_self, Function.update_self]
      · rw [Function.update_of_ne hyx, Function.update_of_ne hyx]
        exact he y (hZ y hy hyx)
    exact congrArg Classical.epsilon (funext fun d => propext (hsame d))
  · obtain ⟨d, hd⟩ := h
    have hex : ∃ d, g.Holds I (Function.update e x d) := ⟨d, (hiff _).mp hd⟩
    exact (hiff _).mpr (Classical.epsilon_spec hex)

/-- Before a matrix without variables of the property `Z` nothing is asked for. -/
theorem uniformPrefix_of_not_free [Nonempty D] (bs : List Binder) {f : Formula}
    (hZ : ∀ y ∈ f.free, ¬ Z y) : UniformPrefix I Z bs f := by
  induction bs with
  | nil => trivial
  | cons b bs ih =>
    refine ⟨fun _ => uniformWitness_of_not_free (fun e => Iff.rfl) fun y hy _ => ?_, ih⟩
    exact hZ y (mem_free_quantify.mp hy).1

/-- A choice that depends on the variables `us` only is a function of their values. -/
theorem exists_function_of_uniform {w : (String → D) → D}
    (hw : ∀ e e', AgreeOff Z e e' → w e = w e') (us : List String) (e : String → D) :
    ∃ φ : List D → D, ∀ e', AgreeOff (fun z => Z z ∨ z ∈ us) e' e → φ (us.map e') = w e' := by
  classical
  -- the value for some assignment with these values at `us`; any other one has the same choice
  refine ⟨fun ds =>
    if h : ∃ e', AgreeOff (fun z => Z z ∨ z ∈ us) e' e ∧ us.map e' = ds then w h.choose else e "",
    fun e' he' => ?_⟩
  have hex : ∃ e'', AgreeOff (fun z => Z z ∨ z ∈ us) e'' e ∧ us.map e'' = us.map e' :=
    ⟨e', he', rfl⟩
  obtain ⟨hoff, hon⟩ := hex.choose_spec
  refine (dif_pos hex).trans (hw _ _ fun z hz => ?_)
  by_cases hzus : z ∈ us
  · exact List.map_inj_left.mp hon z hzus
  · have hz' : ¬ (Z z ∨ z ∈ us) := not_or.mpr ⟨hz, hzus⟩
    rw [hoff z hz', he' z hz']

/-! ### Witnesses before a matrix -/

section Core

variable [Nonempty D] {op : Connective}

/-- Witnesses for one operand are witnesses for the whole where the other does not have the
variable. -/
theorem UniformWitness.joins (hop : op = .conj ∨ op = .disj) {x : String} {f g h : Formula}
    (hf : UniformWitness I Z x f) (hx : x ∉ g.free)
    (hiff : ∀ e, h.Holds I e ↔ op.Joins (f.Holds I e) (g.Holds I e)) : UniformWitness I Z x h := by
  obtain ⟨w, hw, hspec⟩ := hf
  refine ⟨w, hw, fun e hex => ?_⟩
  have hjoin : op.Joins ((quant .existential x f).Holds I e) (g.Holds I e) := by
    rw [Holds, ← Quantifier.ranges_joins _ hop]
    obtain ⟨d, hd⟩ := hex
    refine ⟨d, ?_⟩
    show op.Joins (f.Holds I (Function.update e x d)) (g.Holds I e)
    rwa [← holds_update hx e d, ← hiff]
  rw [hiff, holds_update hx]
  -- only the left operand has the variable, and there the witness is as good as any value
  rcases hop with rfl | rfl
  · exact ⟨hspec e hjoin.1, hjoin.2⟩
  · exact hjoin.imp (hspec e) id

theorem UniformPrefix.joins (hop : op = .conj ∨ op = .disj) {bl br : List Binder} {f g : Formula}
    (hf : UniformPrefix I Z bl f) (hg : UniformPrefix I Z br g)
    (hbl : ∀ x ∈ bl.map Binder.name, x ∉ (g.quantify br).free)
    (hbr : ∀ x ∈ br.map Binder.name, x ∉ f.free) :
    UniformPrefix I Z (bl ++ br) (binary op f g) := by
  induction bl with
  | nil =>
    induction br with
    | nil => trivial
    | cons b br ih =>
      simp only [List.map_cons, List.mem_cons, forall_eq_or_imp] at hbr
      refine ⟨fun hb => (hg.1 hb).joins hop hbr.1 fun e => ?_, ih hg.2 hbr.2 (by simp)⟩
      rw [holds_quantify_binary_right hop hbr.2, Connective.joins_comm hop]
  | cons b bl ih =>
    -- a witness for the left operand, in front of which the right prefix does not matter
    simp only [List.map_cons, List.mem_cons, forall_eq_or_imp] at hbl
    refine ⟨fun hb => (hf.1 hb).joins hop hbl.1 fun e => ?_, ih hf.2 hbl.2⟩
    calc ((binary op f g).quantify (bl ++ br)).Holds I e
        ↔ (((binary op f g).quantify br).quantify bl).Holds I e := by rw [quantify_append]
      _ ↔ ((binary op f (g.quantify br)).quantify bl).Holds I e :=
          holds_quantify_congr (holds_quantify_binary_right hop hbr) _ e
      _ ↔ op.Joins ((f.quantify bl).Holds I e) ((g.quantify br).Holds I e) :=
          holds_quantify_binary_left hop hbl.2 e

/-- Where the operands of existential quantifiers have no variables of the property `Z`, their
witnesses do not depend on these, also with all quantifiers in front. -/
theorem uniformPrefix_core {f : Formula} (himp : f.isImplicationFree) (hneg : f.isNegationNormal)
    (happart : f.BindersApart)
    (hZ : ∀ x g, quant .existential x g ∈ f.subformulas → ∀ y ∈ g.free, y ≠ x → ¬ Z y) :
    UniformPrefix I Z f.binders f.core := by
  induction f with
  | prop | var => trivial
  | neg f => cases f <;> trivial
  | binary op l r ihl ihr =>
    simp only [isImplicationFree, isNegationNormal, Bool.and_eq_true, Bool.or_eq_true,
      beq_iff_eq] at himp hneg
    obtain ⟨⟨hop, himpl⟩, himpr⟩ := himp
    obtain ⟨hnegl, hnegr⟩ := hneg
    have hleft := ihl himpl hnegl happart.left fun x g hg =>
      hZ x g (List.mem_cons_of_mem _ (List.mem_append_left _ hg))
    have hright := ihr himpr hnegr happart.right fun x g hg =>
      hZ x g (List.mem_cons_of_mem _ (List.mem_append_right _ hg))
    refine hleft.joins hop hright (fun x hx hfree => ?_) fun x hx hfree => ?_
    · exact (happart.left_not_mem hx).1 (happart.right.free_quantify_core ▸ hfree)
    · exact (mem_free_core hfree).elim (happart.right_not_mem hx).1 (happart.right_not_mem hx).2
  | quant q x f ih =>
    have hbody := ih himp hneg happart.body fun y g hg => hZ y g (List.mem_cons_of_mem _ hg)
    refine ⟨fun hq => ?_, hbody⟩
    -- with its own quantifiers in front the operand still means what it meant
    obtain rfl : q = .existential := hq
    have hfree (a : Formula) : neg a ∈ f.subformulas → a.isQuantifierFree :=
      isQuantifierFree_of_isNegationNormal hneg
    exact uniformWitness_of_not_free (holds_quantify_core himp hfree happart.body)
      (hZ x f List.mem_cons_self)

end Core

end Formula

end ClausalForm
