import ClausalForm.Formula.FreeVariables
import ClausalForm.NormalForm.Prenex
import ClausalForm.Proofs.Levels

/-!
# Free and bound variables

The free occurrences of a formula, its quantifiers, and what is left of it without them, as
functions of the tree alone.

## Main definitions

* `Formula.free`: the free occurrences of variables, from left to right
* `Formula.binders`, `Formula.boundNames`: the quantifiers in pre-order, and the names they bind
* `Formula.core`: the formula without its quantifiers
* `Formula.BindersApart`: every quantifier binds a name of its own, which is free nowhere

## Main results

* `mem_variableNames`: every name of a variable is free or bound
* `BindersApart.filter_free_core`: without binders that are apart, their names are all that is new
* `freeOccurrences_eq`, `separate_eq`: the passes compute these with as many levels as the height
-/

namespace ClausalForm.Formula

/-! ### First occurrences -/

/-- Names can be left out before the first occurrences are taken or after that. -/
theorem eraseDups_filter (p : String → Bool) (xs : List String) :
    (xs.filter p).eraseDups = xs.eraseDups.filter p := by
  -- by induction on the length, as each name takes its repetitions out of the names behind it
  induction hn : xs.length using Nat.strongRecOn generalizing xs with
  | ind n ih =>
    cases xs with
    | nil => rfl
    | cons x xs =>
      have hlt : (xs.filter fun y => !y == x).length < n :=
        hn ▸ Nat.lt_succ_of_le (List.length_filter_le ..)
      have hrest := ih _ hlt _ rfl
      rw [List.eraseDups_cons]
      cases hx : p x with
      | true =>
        rw [List.filter_cons_of_pos hx, List.filter_cons_of_pos hx, List.eraseDups_cons, ← hrest,
          List.filter_filter, List.filter_filter]
        simp only [Bool.and_comm]
      | false =>
        -- the repetitions of `x` are left out like `x` itself
        have hkeep : (xs.filter fun y => !y == x).filter p = xs.filter p := by
          rw [List.filter_filter]
          refine List.filter_congr fun y _ => ?_
          by_cases hy : y = x <;> simp [hy, hx]
        rw [List.filter_cons_of_neg (by simp [hx]), List.filter_cons_of_neg (by simp [hx]), ← hrest,
          hkeep]

/-- Names that have occurred before have no first occurrences. -/
theorem eraseDups_append_of_subset {xs ys : List String} (h : ∀ y ∈ ys, y ∈ xs) :
    (xs ++ ys).eraseDups = xs.eraseDups := by
  have hnone : ys.removeAll xs = [] := List.filter_eq_nil_iff.mpr fun y hy => by simp [h y hy]
  rw [List.eraseDups_append, hnone]
  exact List.append_nil _

theorem eraseDups_append_congr {xs xs' ys ys' : List String} (hx : xs.eraseDups = xs'.eraseDups)
    (hy : ys.eraseDups = ys'.eraseDups) : (xs ++ ys).eraseDups = (xs' ++ ys').eraseDups := by
  -- what is left out of the second list depends only on which names the first one has
  have hmem (y : String) : xs.elem y = xs'.elem y := by
    rw [Bool.eq_iff_iff, List.elem_iff, List.elem_iff, ← List.mem_eraseDups, hx, List.mem_eraseDups]
  rw [List.eraseDups_append, List.eraseDups_append, hx, List.removeAll, List.removeAll,
    eraseDups_filter, eraseDups_filter, hy]
  simp only [hmem]

/-! ### Occurrences and binders -/

/-- The free occurrences of variables, from left to right, one entry for each. -/
def free : Formula → List String
  | prop _ args => Term.varsOf args
  | var x => [x]
  | neg f => f.free
  | binary _ l r => l.free ++ r.free
  | quant _ x f => f.free.filter fun y => y ≠ x

/-- The quantifiers of a formula in pre-order. -/
def binders : Formula → List Binder
  | prop .. | var _ => []
  | neg f => f.binders
  | binary _ l r => l.binders ++ r.binders
  | quant q x f => ⟨q, x⟩ :: f.binders

/-- The names that the quantifiers of a formula bind, in pre-order. -/
def boundNames (f : Formula) : List String := f.binders.map Binder.name

/-- The formula without its quantifiers. -/
def core : Formula → Formula
  | prop p args => prop p args
  | var x => var x
  | neg f => neg f.core
  | binary op l r => binary op l.core r.core
  | quant _ _ f => f.core

@[simp] theorem boundNames_prop (p : String) (args : List Term) :
    (prop p args).boundNames = [] := rfl

@[simp] theorem boundNames_var (x : String) : (var x).boundNames = [] := rfl

@[simp] theorem boundNames_neg (f : Formula) : (neg f).boundNames = f.boundNames := rfl

@[simp] theorem boundNames_binary (op : Connective) (l r : Formula) :
    (binary op l r).boundNames = l.boundNames ++ r.boundNames := List.map_append

@[simp] theorem boundNames_quant (q : Quantifier) (x : String) (f : Formula) :
    (quant q x f).boundNames = x :: f.boundNames := rfl

theorem isQuantifierFree_core (f : Formula) : f.core.isQuantifierFree := by
  induction f with
  | prop | var => rfl
  | neg f ih | quant q x f ih => exact ih
  | binary op l r ihl ihr => simp [core, isQuantifierFree, ihl, ihr]

theorem core_of_isQuantifierFree {f : Formula} (h : f.isQuantifierFree) : f.core = f := by
  induction f with
  | prop | var => rfl
  | neg f ih => rw [core, ih h]
  | binary op l r ihl ihr =>
    rw [isQuantifierFree, Bool.and_eq_true] at h
    rw [core, ihl h.1, ihr h.2]
  | quant => cases h

theorem binders_of_isQuantifierFree {f : Formula} (h : f.isQuantifierFree) : f.binders = [] := by
  induction f with
  | prop | var => rfl
  | neg f ih => exact ih h
  | binary op l r ihl ihr =>
    rw [isQuantifierFree, Bool.and_eq_true] at h
    rw [binders, ihl h.1, ihr h.2, List.append_nil]
  | quant => cases h

/-- Without its quantifiers a formula has their variables free as well, and no others. -/
theorem mem_free_core {x : String} {f : Formula} :
    x ∈ f.core.free → x ∈ f.free ∨ x ∈ f.boundNames := by
  induction f with
  | prop | var => exact Or.inl
  | neg f ih => exact ih
  | binary op l r ihl ihr =>
    simp only [core, free, boundNames_binary, List.mem_append]
    rintro (h | h)
    · exact (ihl h).imp .inl .inl
    · exact (ihr h).imp .inr .inr
  | quant q y f ih =>
    intro h
    by_cases hxy : x = y
    · -- the variable of the quantifier is bound there
      simp [hxy]
    · simpa [free, hxy] using ih h

/-- A variable that is free in a subformula is free or bound in the formula. -/
theorem mem_free_subformula {x : String} {f g : Formula} (hg : g ∈ f.subformulas)
    (hx : x ∈ g.free) : x ∈ f.free ∨ x ∈ f.boundNames := by
  induction f with
  | prop | var =>
    rw [List.mem_singleton.mp hg] at hx
    exact .inl hx
  | neg f ih =>
    rcases List.mem_cons.mp hg with rfl | hg
    · exact .inl hx
    · exact ih hg
  | binary op l r ihl ihr =>
    rcases List.mem_cons.mp hg with rfl | hg
    · exact .inl hx
    · rw [free, boundNames_binary, List.mem_append, List.mem_append]
      rcases List.mem_append.mp hg with hg | hg
      · exact (ihl hg).imp .inl .inl
      · exact (ihr hg).imp .inr .inr
  | quant q y f ih =>
    rcases List.mem_cons.mp hg with rfl | hg
    · exact .inl hx
    · by_cases hxy : x = y
      · simp [hxy]
      · simpa [free, hxy] using ih hg

/-- The names of variables are those that occur free and those that are bound. -/
theorem mem_variableNames {x : String} {f : Formula} :
    x ∈ f.variableNames ↔ x ∈ f.free ∨ x ∈ f.boundNames := by
  induction f with
  | prop | var => simp [variableNames, free]
  | neg f ih => exact ih
  | binary op l r ihl ihr =>
    rw [variableNames, free, boundNames_binary, List.mem_append, List.mem_append, List.mem_append,
      ihl, ihr]
    exact or_or_or_comm
  | quant q y f ih =>
    rw [variableNames, List.mem_cons, ih]
    by_cases hxy : x = y
    · simp [hxy]
    · simp [free, hxy]

/-! ### Binders apart -/

/-- Every quantifier binds a name of its own, which is free nowhere in the formula. -/
structure BindersApart (f : Formula) : Prop where
  nodup : f.boundNames.Nodup
  not_free : ∀ x ∈ f.boundNames, x ∉ f.free

namespace BindersApart

variable {op : Connective} {l r f : Formula} {q : Quantifier} {x : String}

theorem left (h : (binary op l r).BindersApart) : l.BindersApart := by
  obtain ⟨hnodup, hfree⟩ := h
  simp only [boundNames_binary, free, List.mem_append, not_or] at hnodup hfree
  exact ⟨(List.nodup_append.mp hnodup).1, fun y hy => (hfree y (.inl hy)).1⟩

theorem right (h : (binary op l r).BindersApart) : r.BindersApart := by
  obtain ⟨hnodup, hfree⟩ := h
  simp only [boundNames_binary, free, List.mem_append, not_or] at hnodup hfree
  exact ⟨(List.nodup_append.mp hnodup).2.1, fun y hy => (hfree y (.inr hy)).2⟩

theorem body (h : (quant q x f).BindersApart) : f.BindersApart := by
  obtain ⟨hnodup, hfree⟩ := h
  rw [boundNames_quant, List.nodup_cons] at hnodup
  refine ⟨hnodup.2, fun y hy hyfree => hfree y (List.mem_cons_of_mem x hy) ?_⟩
  -- what the body binds is another name, and free in the body means free in the whole
  have hyx : y ≠ x := fun hyx => hnodup.1 (hyx ▸ hy)
  simpa [free, hyx] using hyfree

/-- A binder of the left operand is free nowhere in the right one, nor is it bound there. -/
theorem left_not_mem (h : (binary op l r).BindersApart) {y : String} (hy : y ∈ l.boundNames) :
    y ∉ r.free ∧ y ∉ r.boundNames := by
  obtain ⟨hnodup, hfree⟩ := h
  simp only [boundNames_binary, free, List.mem_append, not_or] at hnodup hfree
  exact ⟨(hfree y (.inl hy)).2, fun hyr => (List.nodup_append.mp hnodup).2.2 y hy y hyr rfl⟩

/-- A binder of the right operand is free nowhere in the left one, nor is it bound there. -/
theorem right_not_mem (h : (binary op l r).BindersApart) {y : String} (hy : y ∈ r.boundNames) :
    y ∉ l.free ∧ y ∉ l.boundNames := by
  obtain ⟨hnodup, hfree⟩ := h
  simp only [boundNames_binary, free, List.mem_append, not_or] at hnodup hfree
  exact ⟨(hfree y (.inr hy)).1, fun hyl => (List.nodup_append.mp hnodup).2.2 y hyl y hy rfl⟩

/-- Without the quantifiers their variables become free, and are all that becomes free. -/
theorem filter_free_core (h : f.BindersApart) :
    (f.core.free.filter fun y => y ∉ f.boundNames) = f.free := by
  induction f with
  | prop | var => simp [core]
  | neg f ih => exact ih ⟨h.nodup, h.not_free⟩
  | binary op l r ihl ihr =>
    -- the binders of one operand leave the free occurrences of the other one alone
    have hl : (l.free.filter fun y => y ∉ r.boundNames) = l.free :=
      List.filter_eq_self.mpr fun y hy => by simpa using fun hyr => (h.right_not_mem hyr).1 hy
    have hr : (r.free.filter fun y => y ∉ l.boundNames) = r.free :=
      List.filter_eq_self.mpr fun y hy => by simpa using fun hyl => (h.left_not_mem hyl).1 hy
    rw [core, free, List.filter_append, free, ← hl, ← hr, ← ihl h.left, ← ihr h.right,
      List.filter_filter, List.filter_filter]
    congr 1 <;> refine List.filter_congr fun y _ => ?_ <;> simp [Bool.and_comm]
  | quant q x f ih =>
    rw [free, ← ih h.body, List.filter_filter, core]
    refine List.filter_congr fun y _ => ?_
    simp

end BindersApart

/-! ### The passes that collect them -/

/-- Names are left out for a quantifier and for those around it, or for all of them at once. -/
theorem filter_not_mem_cons (x : String) (bound zs : List String) :
    ((zs.filter fun z => z ≠ x).filter fun z => z ∉ bound) = zs.filter fun z => z ∉ x :: bound := by
  rw [List.filter_filter]
  refine List.filter_congr fun z _ => ?_
  simp [Bool.and_comm]

/-- Below quantifiers that bind `bound`, the free occurrences of these names are left out. -/
theorem freeOccurrences_eq (limit n : Nat) (bound : List String) (f : Formula) :
    freeOccurrences limit n bound f =
      withLevels limit f.height n (f.free.filter fun x => x ∉ bound) := by
  induction f generalizing n bound with
  | prop p args => simp [freeOccurrences, height, free]
  | var x => by_cases h : x ∈ bound <;> simp [freeOccurrences, height, free, h]
  | neg f ih =>
    cases n with
    | zero => simp [freeOccurrences, height]
    | succ n => simp [freeOccurrences, height, free, ih]
  | binary op l r ihl ihr =>
    cases n with
    | zero => simp [freeOccurrences, height]
    | succ n =>
      simp only [freeOccurrences, height, free, ihl, ihr, withLevels_succ_succ, List.filter_append]
      exact withLevels_bind (withLevels_bind_pure ..)
  | quant q x f ih =>
    cases n with
    | zero => simp [freeOccurrences, height]
    | succ n =>
      rw [freeOccurrences, ih, height, withLevels_succ_succ, free, filter_not_mem_cons]

theorem freeVariables_eq (limits : Limits) (f : Formula) :
    f.freeVariables limits = withLevels limits.depth f.height limits.depth f.free.eraseDups := by
  have hfree : (f.free.filter fun x => x ∉ ([] : List String)) = f.free :=
    List.filter_eq_self.mpr (by simp)
  rw [freeVariables, freeOccurrences_eq, withLevels_bind_pure, hfree]

theorem separate_eq (limit n : Nat) (f : Formula) :
    separate limit n f = withLevels limit f.height n (f.binders, f.core) := by
  induction f generalizing n with
  | prop | var => simp [separate, height, binders, core]
  | neg f ih | quant q x f ih =>
    cases n with
    | zero => simp [separate, height]
    | succ n =>
      simp only [separate, height, ih, withLevels_succ_succ]
      exact withLevels_bind_pure ..
  | binary op l r ihl ihr =>
    cases n with
    | zero => simp [separate, height]
    | succ n =>
      simp only [separate, height, ihl, ihr, withLevels_succ_succ]
      exact withLevels_bind (withLevels_bind_pure ..)

theorem hoistQuantifiers_eq (limits : Limits) (f : Formula) :
    f.hoistQuantifiers limits =
      withLevels limits.depth f.height limits.depth (f.core.quantify f.binders) := by
  rw [hoistQuantifiers, separate_eq]
  exact withLevels_bind_pure ..

theorem stripQuantifiers_eq (limits : Limits) (f : Formula) :
    f.stripQuantifiers limits = withLevels limits.depth f.height limits.depth f.core := by
  rw [stripQuantifiers, separate_eq]
  exact withLevels_bind_pure ..

end ClausalForm.Formula
