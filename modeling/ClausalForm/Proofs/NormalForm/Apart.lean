import ClausalForm.NormalForm.Apart
import ClausalForm.Proofs.Formula.Substitution
import ClausalForm.Proofs.NormalForm.Negation
import Mathlib.Order.Bounds.Defs

/-!
# Formulas with binders apart

Standardizing apart changes the names of bound variables and nothing else. Two sets of names carry
the argument: every binder that is still to be visited has a reserved name, and every variable that
is free at the place reached has a used one. A fresh name is neither, so it is captured nowhere
below and captures nothing itself.

## Main definitions

* `Formula.Standardizes`: one renaming, as a derivation over the formula
* `Formula.Scoped`: the two sets hold the names that they have to hold

## Main results

* `freshName_eq_some_iff`: the name for one binder, with the least number
* `standardizes_of_standardizeWithin`: a run that succeeds is such a derivation
* `Standardizes.names`: the new binders are apart, from each other and from the used names
* `Standardizes.exists_mem_boundNames`: a new binder has an old name, perhaps with a number
* `Standardizes.free_eq`, `Standardizes.holds_iff`: what the renaming keeps
-/

namespace ClausalForm

universe u

theorem Names.mem_insert {names : Names} {x y : String} :
    y ∈ Std.TreeSet.insert names x ↔ y = x ∨ y ∈ names := by
  rw [Std.TreeSet.mem_insert, Std.compare_eq_iff_eq, eq_comm]

theorem Names.mem_ofList {xs : List String} {x : String} :
    x ∈ (Std.TreeSet.ofList xs : Names) ↔ x ∈ xs := by
  rw [Std.TreeSet.mem_ofList, List.contains_iff_mem]

/-! ### The name for one binder -/

/-- The search goes through the numbers in order. -/
theorem firstNumbered_eq (taken : String → Bool) (stem : String) (tries k : Nat) :
    firstNumbered taken stem tries k =
      ((List.range' k tries).find? fun j => !taken (stem ++ toString j)).map
        fun j => stem ++ toString j := by
  induction tries generalizing k with
  | zero => rfl
  | succ tries ih =>
    rw [firstNumbered, List.range'_succ, List.find?_cons]
    cases taken (stem ++ toString k) with
    | true => simp [ih]
    | false => simp

section FreshName

variable {reserved used : Names} {maxSuffix : Nat} {x y : String}

/-- The numbers that can be appended to `x`. -/
def freeNumbers (reserved used : Names) (x : String) : Set Nat :=
  {k | 1 ≤ k ∧ x ++ toString k ∉ reserved ∧ x ++ toString k ∉ used}

/-- The name for a binder is the old one unless that is used, and otherwise the old one with the
least number that can be appended. -/
theorem freshName_eq_some_iff :
    freshName reserved used maxSuffix x = some y ↔
      x ∉ used ∧ y = x ∨
        x ∈ used ∧ ∃ k ≤ maxSuffix, IsLeast (freeNumbers reserved used x) k ∧
          y = x ++ toString k := by
  by_cases hx : x ∈ used
  · simp only [freshName, hx, not_true_eq_false, if_false, false_and, true_and, false_or,
      firstNumbered_eq, Option.map_eq_some_iff, List.find?_range'_eq_some, List.mem_range'_1,
      Bool.not_eq_true', Bool.not_not, Bool.or_eq_false_iff, Bool.or_eq_true,
      decide_eq_false_iff_not, decide_eq_true_eq]
    constructor
    · rintro ⟨k, ⟨hfree, hk, hbefore⟩, rfl⟩
      refine ⟨k, by omega, ⟨⟨hk.1, hfree⟩, ?_⟩, rfl⟩
      rintro j ⟨hj, hreserved, hused⟩
      by_contra hlt
      exact (hbefore j hj (by omega)).elim hreserved hused
    · rintro ⟨k, hk, ⟨⟨hpos, hfree⟩, hleast⟩, rfl⟩
      refine ⟨k, ⟨hfree, by omega, fun j hj hlt => ?_⟩, rfl⟩
      by_contra htaken
      rw [not_or] at htaken
      exact absurd (hleast ⟨hj, htaken⟩) (by omega)
  · simp [freshName, hx, eq_comm]

theorem freshName_eq_none_iff :
    freshName reserved used maxSuffix x = none ↔
      x ∈ used ∧ ∀ k ≤ maxSuffix, k ∉ freeNumbers reserved used x := by
  by_cases hx : x ∈ used
  · simp only [freshName, hx, not_true_eq_false, if_false, true_and, firstNumbered_eq,
      Option.map_eq_none_iff, List.find?_range'_eq_none, Bool.not_not, Bool.or_eq_true,
      decide_eq_true_eq]
    constructor
    · rintro h k hk ⟨hpos, hreserved, hused⟩
      exact (h k hpos (by omega)).elim hreserved hused
    · intro h k hpos hk
      by_contra htaken
      rw [not_or] at htaken
      exact h k (by omega) ⟨hpos, htaken⟩
  · simp [freshName, hx]

/-- A binder keeps its name if this is not used, and otherwise gets one that is neither used nor
reserved. -/
theorem freshName_cases (h : freshName reserved used maxSuffix x = some y) :
    y = x ∧ x ∉ used ∨ x ∈ used ∧ y ∉ used ∧ y ∉ reserved := by
  rcases freshName_eq_some_iff.mp h with ⟨hx, hyx⟩ | ⟨hx, k, -, ⟨⟨-, hreserved, hused⟩, -⟩, rfl⟩
  · exact .inl ⟨hyx, hx⟩
  · exact .inr ⟨hx, hused, hreserved⟩

/-- The name for a binder is the old one, or the old one with a number. -/
theorem eq_or_exists_of_freshName (h : freshName reserved used maxSuffix x = some y) :
    y = x ∨ ∃ k : Nat, y = x ++ toString k := by
  rcases freshName_eq_some_iff.mp h with ⟨-, hyx⟩ | ⟨-, k, -, -, hy⟩
  · exact .inl hyx
  · exact .inr ⟨k, hy⟩

/-- The name for a binder was not used, and unless it is the old one it was not reserved. -/
theorem freshName_spec (h : freshName reserved used maxSuffix x = some y) :
    y ∉ used ∧ (y = x ∨ y ∉ reserved) := by
  rcases freshName_cases h with ⟨rfl, hx⟩ | ⟨-, hused, hreserved⟩
  · exact ⟨hx, .inl rfl⟩
  · exact ⟨hused, .inr hreserved⟩

end FreshName

namespace Formula

/-! ### Renaming one variable -/

/-- A name that may take the place of the bound variable `x` of a quantifier over `f`. -/
def IsFreshFor (x y : String) (f : Formula) : Prop :=
  y = x ∨ y ∉ f.boundNames ∧ y ∉ f.free

theorem not_bound_of_mem_vars {f : Formula} {y : String} (h : y ∉ f.boundNames) :
    ∀ z ∈ (Term.var y).vars, z ∉ f.boundNames := by
  simpa [Term.vars] using h

/-- Under its quantifier a renamed variable leaves the free occurrences as they were. -/
theorem free_quant_rename {x y : String} {f : Formula} (h : IsFreshFor x y f) (q : Quantifier) :
    (quant q y (f.subst x (.var y))).free = (quant q x f).free := by
  rcases h with rfl | ⟨hbound, hfree⟩
  · rw [subst_self]
  · rw [free, free_subst (not_bound_of_mem_vars hbound),
      filter_flatMap_occurrence_of_forall (by simp [Term.vars]), free]
    -- the new name is not there to be left out
    refine List.filter_congr fun z hz => ?_
    have hzy : z ≠ y := fun hzy => hfree (hzy ▸ hz)
    simp [hzy]

/-- Under its quantifier a renamed variable means what the old one meant. -/
theorem holds_rename {x y : String} {f : Formula} (h : IsFreshFor x y f) {D : Type u}
    (I : Interpretation D) (e : String → D) (d : D) :
    (f.subst x (.var y)).Holds I (Function.update e y d) ↔
      f.Holds I (Function.update e x d) := by
  rcases h with rfl | ⟨hbound, hfree⟩
  · rw [subst_self]
  · rw [holds_subst (by nofun) (not_bound_of_mem_vars hbound), Term.value,
      Function.update_self]
    -- the value at `y` is left over, and does not matter as `y` is not free
    by_cases hyx : y = x
    · rw [hyx, Function.update_idem]
    · rw [Function.update_comm hyx, holds_update hfree]

/-! ### The renaming as a derivation -/

/-- Standardizing `f` apart gives `g`, and changes the used names from `used` to `used'`. -/
inductive Standardizes (reserved : Names) (maxSuffix : Nat) :
    (used : Names) → (f g : Formula) → (used' : Names) → Prop
  | prop (used : Names) (p : String) (args : List Term) :
    Standardizes reserved maxSuffix used (prop p args) (prop p args) used
  | var (used : Names) (x : String) :
    Standardizes reserved maxSuffix used (var x) (var x) used
  | neg {used used' : Names} {f g : Formula} :
    Standardizes reserved maxSuffix used f g used' →
      Standardizes reserved maxSuffix used (neg f) (neg g) used'
  | binary {used used₁ used₂ : Names} {l l' r r' : Formula} (op : Connective) :
    Standardizes reserved maxSuffix used l l' used₁ →
      Standardizes reserved maxSuffix used₁ r r' used₂ →
        Standardizes reserved maxSuffix used (binary op l r) (binary op l' r') used₂
  | quant {used used' : Names} {x y : String} {f g : Formula} (q : Quantifier) :
    freshName reserved used maxSuffix x = some y →
      Standardizes reserved maxSuffix (used.insert y) (f.subst x (.var y)) g used' →
        Standardizes reserved maxSuffix used (quant q x f) (quant q y g) used'

/-- Below a quantifier with the fresh name `y` the body is visited with `y` for the old name,
whether the two differ or not. -/
theorem standardizeWithin_quant {limits : Limits} {reserved used used' : Names} {n : Nat}
    {q : Quantifier} {x y : String} {f g : Formula}
    (hy : freshName reserved used limits.suffix x = some y)
    (h : (standardizeWithin limits reserved (n + 1) used (quant q x f)).result = .ok (g, used')) :
    ∃ g', (standardizeWithin limits reserved n (used.insert y) (f.subst x (.var y))).result =
      .ok (g', used') ∧ quant q y g' = g := by
  simp only [standardizeWithin, hy] at h
  split at h
  · -- the name is kept, and the body is visited as it is
    rename_i hyx
    simp only [Journal.result_bind, bind_eq_ok_iff] at h
    obtain ⟨f', hf', ⟨g', used₁⟩, hg', h⟩ := h
    cases hf'
    cases h
    rw [← hyx, subst_self]
    exact ⟨g', hg', rfl⟩
  · -- the name is changed in the body first
    simp only [Journal.result_bind, bind_eq_ok_iff, Journal.result_ofExcept,
      substitute_eq, withLevels_eq_ok_iff] at h
    obtain ⟨_, _, f', ⟨_, rfl⟩, ⟨g', used₁⟩, hg', h⟩ := h
    cases h
    exact ⟨g', hg', rfl⟩

/-- A run that succeeds renames. -/
theorem standardizes_of_standardizeWithin {limits : Limits} {reserved : Names} {n : Nat}
    {used used' : Names} {f g : Formula}
    (h : (standardizeWithin limits reserved n used f).result = .ok (g, used')) :
    Standardizes reserved limits.suffix used f g used' := by
  -- Induction on the levels, as the body of a quantifier is no part of it once it is renamed.
  induction n generalizing used f g used' with
  | zero =>
    cases f with
    | prop p args =>
      cases h
      exact .prop used p args
    | var x =>
      cases h
      exact .var used x
    | neg | binary | quant => cases h
  | succ n ih =>
    cases f with
    | prop p args =>
      cases h
      exact .prop used p args
    | var x =>
      cases h
      exact .var used x
    | neg f =>
      simp only [standardizeWithin, Journal.result_bind, bind_eq_ok_iff] at h
      obtain ⟨⟨f', used₁⟩, hf, h⟩ := h
      cases h
      exact .neg (ih hf)
    | binary op l r =>
      simp only [standardizeWithin, Journal.result_bind, bind_eq_ok_iff] at h
      obtain ⟨⟨l', used₁⟩, hl, ⟨r', used₂⟩, hr, h⟩ := h
      cases h
      exact .binary op (ih hl) (ih hr)
    | quant q x f =>
      cases hy : freshName reserved used limits.suffix x with
      | none =>
        simp only [standardizeWithin, hy] at h
        cases h
      | some y =>
        obtain ⟨g', hg', rfl⟩ := standardizeWithin_quant hy h
        exact .quant q hy (ih hg')

/-- Nothing is reported but new names. -/
theorem eq_renamed_of_mem_events {limits : Limits} {reserved : Names} {n : Nat} {used : Names}
    {f : Formula} {e : Event} (he : e ∈ (standardizeWithin limits reserved n used f).events) :
    ∃ x y, e = .renamed x y := by
  induction n generalizing used f with
  | zero => cases f <;> cases he
  | succ n ih =>
    cases f with
    | prop | var => cases he
    | neg f =>
      rw [standardizeWithin, Journal.events_bind_pure] at he
      exact ih he
    | binary op l r =>
      rw [standardizeWithin, Journal.mem_events_bind] at he
      obtain he | ⟨_, _, he⟩ := he
      · exact ih he
      · rw [Journal.events_bind_pure] at he
        exact ih he
    | quant q x f =>
      cases hy : freshName reserved used limits.suffix x with
      | none =>
        simp only [standardizeWithin, hy] at he
        cases he
      | some y =>
        simp only [standardizeWithin, hy] at he
        split at he
        · -- the name is kept, and nothing is reported here
          obtain he | ⟨_, _, he⟩ := Journal.mem_events_bind.mp he
          · cases he
          · rw [Journal.events_bind_pure] at he
            exact ih he
        · obtain he | ⟨_, _, he⟩ := Journal.mem_events_bind.mp he
          · exact ⟨x, y, List.mem_singleton.mp he⟩
          · obtain he | ⟨_, _, he⟩ := Journal.mem_events_bind.mp he
            · cases he
            · rw [Journal.events_bind_pure] at he
              exact ih he

/-! ### What is kept, and what is new -/

variable {reserved used used' : Names} {maxSuffix : Nat} {f g : Formula}

/-- The new binders are apart from each other and from the names used before, and they are the
names used in addition afterwards. -/
theorem Standardizes.names (h : Standardizes reserved maxSuffix used f g used') :
    g.boundNames.Nodup ∧ (∀ x ∈ g.boundNames, x ∉ used) ∧
      ∀ x, x ∈ used' ↔ x ∈ used ∨ x ∈ g.boundNames := by
  induction h with
  | prop | var => simp
  | neg _ ih => exact ih
  | binary op _ _ ihl ihr =>
    obtain ⟨hl, hlnew, hl'⟩ := ihl
    obtain ⟨hr, hrnew, hr'⟩ := ihr
    simp only [boundNames_binary, List.mem_append]
    refine ⟨List.nodup_append.mpr ⟨hl, hr, ?_⟩, ?_, ?_⟩
    · -- the names on the left are used when the right operand is visited
      rintro x hx _ hy rfl
      exact hrnew x hy ((hl' x).mpr (.inr hx))
    · rintro x (hx | hx)
      · exact hlnew x hx
      · exact fun hused => hrnew x hx ((hl' x).mpr (.inl hused))
    · intro x
      rw [hr', hl', or_assoc]
  | @quant used used' x y f g q hy _ ih =>
    obtain ⟨hg, hgnew, hg'⟩ := ih
    simp only [Names.mem_insert, not_or] at hgnew
    simp only [boundNames_quant, List.mem_cons]
    refine ⟨List.nodup_cons.mpr ⟨fun hmem => (hgnew y hmem).1 rfl, hg⟩, ?_, ?_⟩
    · rintro z (rfl | hz)
      · exact (freshName_spec hy).1
      · exact (hgnew z hz).2
    · intro z
      rw [hg', Names.mem_insert, or_comm (a := z = y), or_assoc]

/-- A new binder has the name of an old one, perhaps with a number. -/
theorem Standardizes.exists_mem_boundNames
    (h : Standardizes reserved maxSuffix used f g used') {y : String} (hy : y ∈ g.boundNames) :
    ∃ x ∈ f.boundNames, y = x ∨ ∃ k : Nat, y = x ++ toString k := by
  induction h with
  | prop | var => cases hy
  | neg _ ih => exact ih hy
  | binary op _ _ ihl ihr =>
    rw [boundNames_binary, List.mem_append] at hy
    rcases hy with hy | hy
    · obtain ⟨x, hx, hyx⟩ := ihl hy
      exact ⟨x, by simp [hx], hyx⟩
    · obtain ⟨x, hx, hyx⟩ := ihr hy
      exact ⟨x, by simp [hx], hyx⟩
  | quant q hfresh _ ih =>
    rw [boundNames_quant, List.mem_cons] at hy
    rcases hy with rfl | hy
    · exact ⟨_, List.mem_cons_self, eq_or_exists_of_freshName hfresh⟩
    · -- the body binds what it bound before its variable was renamed
      obtain ⟨x, hx, hyx⟩ := ih hy
      rw [boundNames_subst] at hx
      exact ⟨x, List.mem_cons_of_mem _ hx, hyx⟩

/-- Binders that are to be visited have reserved names, and free variables used ones. -/
structure Scoped (reserved used : Names) (f : Formula) : Prop where
  bound : ∀ x ∈ f.boundNames, x ∈ reserved
  free : ∀ x ∈ f.free, x ∈ used

theorem Scoped.isFreshFor {x y : String} {q : Quantifier}
    (hf : Scoped reserved used (Formula.quant q x f))
    (hy : freshName reserved used maxSuffix x = some y) : IsFreshFor x y f := by
  obtain ⟨hused, hyx | hreserved⟩ := freshName_spec hy
  · exact .inl hyx
  · by_cases hyx : y = x
    · exact .inl hyx
    · -- bound names are reserved, free ones are used, and `y` is neither
      refine .inr ⟨fun hb => hreserved (hf.bound y ?_), fun hfree => hused (hf.free y ?_)⟩
      · exact List.mem_cons_of_mem x hb
      · simpa [Formula.free, hyx] using hfree

/-- Below a visited quantifier both sets still hold what they have to hold. -/
theorem Scoped.rename {x y : String} {q : Quantifier}
    (hf : Scoped reserved used (Formula.quant q x f))
    (hy : freshName reserved used maxSuffix x = some y) :
    Scoped reserved (used.insert y) (f.subst x (.var y)) where
  bound z hz := by
    rw [boundNames_subst] at hz
    exact hf.bound z (List.mem_cons_of_mem x hz)
  free z hz := by
    rw [Names.mem_insert]
    by_cases hzy : z = y
    · exact .inl hzy
    · -- any other variable is free in the quantified formula as well
      refine .inr (hf.free z ?_)
      rw [← free_quant_rename (hf.isFreshFor hy) q]
      simpa [Formula.free, hzy] using hz

theorem Scoped.left {op : Connective} {l r : Formula}
    (h : Scoped reserved used (Formula.binary op l r)) : Scoped reserved used l where
  bound x hx := h.bound x (by simp [hx])
  free x hx := h.free x (by simp [Formula.free, hx])

/-- The right operand is visited with the names that the left one has used in addition. -/
theorem Scoped.right {op : Connective} {l l' r : Formula}
    (h : Scoped reserved used (Formula.binary op l r))
    (hl : Standardizes reserved maxSuffix used l l' used') : Scoped reserved used' r where
  bound x hx := h.bound x (by simp [hx])
  free x hx := (hl.names.2.2 x).mpr (.inl (h.free x (by simp [Formula.free, hx])))

/-- The free occurrences stay as they are. -/
theorem Standardizes.free_eq (h : Standardizes reserved maxSuffix used f g used')
    (hf : Scoped reserved used f) : g.free = f.free := by
  induction h with
  | prop | var => rfl
  | neg _ ih => exact ih ⟨hf.bound, hf.free⟩
  | binary op hl _ ihl ihr =>
    rw [Formula.free, Formula.free, ihl hf.left, ihr (hf.right hl)]
  | quant q hy _ ih =>
    rw [← free_quant_rename (hf.isFreshFor hy) q, Formula.free, ih (hf.rename hy), Formula.free]

/-- No symbol is added. -/
theorem Standardizes.mem_symbols (h : Standardizes reserved maxSuffix used f g used') {s : String}
    (hs : s ∈ g.symbols) : s ∈ f.symbols := by
  induction h with
  | prop | var => exact hs
  | neg _ ih => exact ih hs
  | binary op _ _ ihl ihr =>
    rw [symbols, List.mem_append] at hs ⊢
    exact hs.imp ihl ihr
  | quant q _ _ ih => exact (mem_symbols_subst (ih hs)).resolve_right (by simp [Term.symbols])

/-- The truth stays as it is. -/
theorem Standardizes.holds_iff (h : Standardizes reserved maxSuffix used f g used')
    (hf : Scoped reserved used f) {D : Type u} (I : Interpretation D) (e : String → D) :
    g.Holds I e ↔ f.Holds I e := by
  induction h generalizing e with
  | prop | var => exact Iff.rfl
  | neg _ ih => exact not_congr (ih ⟨hf.bound, hf.free⟩ e)
  | binary op hl _ ihl ihr => exact op.joins_congr (ihl hf.left e) (ihr (hf.right hl) e)
  | quant q hy _ ih =>
    refine q.ranges_congr fun d => ?_
    rw [ih (hf.rename hy), holds_rename (hf.isFreshFor hy)]

theorem isImplicationFree_subst (x : String) (r : Term) (f : Formula) :
    (f.subst x r).isImplicationFree = f.isImplicationFree := by
  induction f with
  | prop => rfl
  | var y => by_cases h : y = x <;> cases r <;> simp [subst, h, ofTerm, isImplicationFree]
  | neg f ih => exact ih
  | binary op l r ihl ihr => simp [subst, isImplicationFree, ihl, ihr]
  | quant q y f ih => by_cases h : y = x <;> simp [subst, h, isImplicationFree, ih]

theorem isAtom_subst (x : String) (r : Term) (f : Formula) : (f.subst x r).isAtom = f.isAtom := by
  cases f with
  | var y => by_cases h : y = x <;> cases r <;> simp [subst, h, ofTerm, isAtom]
  | quant q y f => by_cases h : y = x <;> simp [subst, h, isAtom]
  | prop | neg | binary => rfl

theorem isNegationNormal_subst (x : String) (r : Term) (f : Formula) :
    (f.subst x r).isNegationNormal = f.isNegationNormal := by
  induction f with
  | prop => rfl
  | var y => by_cases h : y = x <;> cases r <;> simp [subst, h, ofTerm, isNegationNormal]
  | neg f => exact isAtom_subst x r f
  | binary op l r ihl ihr => simp [subst, isNegationNormal, ihl, ihr]
  | quant q y f ih => by_cases h : y = x <;> simp [subst, h, isNegationNormal, ih]

theorem Standardizes.isImplicationFree_eq (h : Standardizes reserved maxSuffix used f g used') :
    g.isImplicationFree = f.isImplicationFree := by
  induction h with
  | prop | var => rfl
  | neg _ ih => exact ih
  | binary op _ _ ihl ihr => simp only [isImplicationFree, ihl, ihr]
  | quant q _ _ ih => exact ih.trans (isImplicationFree_subst ..)

theorem Standardizes.isAtom_eq (h : Standardizes reserved maxSuffix used f g used') :
    g.isAtom = f.isAtom := by
  cases h <;> rfl

theorem Standardizes.isNegationNormal_eq (h : Standardizes reserved maxSuffix used f g used') :
    g.isNegationNormal = f.isNegationNormal := by
  induction h with
  | prop | var => rfl
  | neg h _ => exact h.isAtom_eq
  | binary op _ _ ihl ihr => simp only [isNegationNormal, ihl, ihr]
  | quant q _ _ ih => exact ih.trans (isNegationNormal_subst ..)

/-! ### The whole formula -/

/-- A formula that is standardized apart is renamed from its free variables as the used names and
all its variables as the reserved ones. -/
theorem standardizes_of_standardize {limits : Limits}
    (h : (f.standardize limits).result = .ok g) :
    ∃ reserved used used' : Names, Scoped reserved used f ∧ (∀ x, x ∈ used ↔ x ∈ f.free) ∧
      Standardizes reserved limits.suffix used f g used' := by
  simp only [standardize, Journal.result_bind, Journal.result_ofExcept, bind_eq_ok_iff,
    freeVariables_eq, withLevels_eq_ok_iff] at h
  obtain ⟨_, ⟨_, rfl⟩, ⟨g', used'⟩, hg, h⟩ := h
  cases h
  have hused (x : String) : x ∈ (Std.TreeSet.ofList f.free.eraseDups : Names) ↔ x ∈ f.free := by
    rw [Names.mem_ofList, List.mem_eraseDups]
  refine ⟨_, _, used', ⟨fun x hx => ?_, fun x hx => (hused x).mpr hx⟩, hused,
    standardizes_of_standardizeWithin hg⟩
  exact Names.mem_ofList.mpr (mem_variableNames.mpr (.inr hx))

/-- Afterwards every quantifier binds a name of its own, which is free nowhere. -/
theorem bindersApart_of_standardize {limits : Limits}
    (h : (f.standardize limits).result = .ok g) : g.BindersApart := by
  obtain ⟨_, _, _, hscoped, hused, hstd⟩ := standardizes_of_standardize h
  obtain ⟨hnodup, hnew, _⟩ := hstd.names
  refine ⟨hnodup, fun x hx hfree => hnew x hx ((hused x).mpr ?_)⟩
  rwa [hstd.free_eq hscoped] at hfree

end Formula

end ClausalForm
