import ClausalForm.Formula.Substitution
import ClausalForm.Proofs.Formula.Truth

/-!
# Substitution

What substitution does to the free variables, the quantifiers, the symbols and the truth of a
formula. No variable of the term may be bound in the formula; nothing else is asked for, since
below a quantifier that binds the variable itself nothing changes.

## Main definitions

* `Formula.subst`: substitution as a function of the tree alone
* `Formula.skeleton`: what is left of the tree if all atoms are made the same
* `Interpretation.Reads`: a name that stands for a formula as it stands for a term

## Main results

* `substitute_eq`: the pass computes `subst`
* `free_subst`: each free occurrence gives way to the variables of the term
* `skeleton_subst`, `subst_of_not_free`: what stays as it is
* `holds_subst`: truth after substitution is truth where the variable has the value of the term
* `holds_substitute`: all of this for the pass
-/

namespace ClausalForm

universe u

variable {x : String} {r : Term}

namespace Term

/-- The variables that stand for an occurrence of `z` when `r` is put for `x`. -/
def occurrence (x : String) (r : Term) (z : String) : List String :=
  if z = x then r.vars else [z]

mutual

theorem vars_substitute (t : Term) : (t.substitute x r).vars = t.vars.flatMap (occurrence x r) := by
  match t with
  | var y => by_cases h : y = x <;> simp [substitute, vars, occurrence, h]
  | app f args => simpa only [substitute, vars] using varsOf_substituteAll args

theorem varsOf_substituteAll (ts : List Term) :
    varsOf (substituteAll ts x r) = (varsOf ts).flatMap (occurrence x r) := by
  match ts with
  | [] => rfl
  | t :: ts =>
    simp only [substituteAll, varsOf, List.flatMap_append]
    rw [vars_substitute t, varsOf_substituteAll ts]

end

mutual

theorem substitute_self (t : Term) : t.substitute x (.var x) = t := by
  match t with
  | var y => by_cases h : y = x <;> simp [substitute, h]
  | app f args => simp only [substitute, substituteAll_self args]

theorem substituteAll_self (ts : List Term) : substituteAll ts x (.var x) = ts := by
  match ts with
  | [] => rfl
  | t :: ts => simp only [substituteAll, substitute_self t, substituteAll_self ts]

end

mutual

theorem substitute_of_not_mem_vars (t : Term) (h : x ∉ t.vars) : t.substitute x r = t := by
  match t with
  | var y =>
    rw [vars, List.mem_singleton] at h
    rw [substitute, if_neg (Ne.symm h)]
  | app f args => rw [substitute, substituteAll_of_not_mem_varsOf args h]

theorem substituteAll_of_not_mem_varsOf (ts : List Term) (h : x ∉ varsOf ts) :
    substituteAll ts x r = ts := by
  match ts with
  | [] => rfl
  | t :: ts =>
    rw [varsOf, List.mem_append, not_or] at h
    rw [substituteAll, substitute_of_not_mem_vars t h.1, substituteAll_of_not_mem_varsOf ts h.2]

end

mutual

theorem symbols_substitute {s : String} (t : Term) (h : s ∈ (t.substitute x r).symbols) :
    s ∈ t.symbols ∨ s ∈ r.symbols := by
  match t with
  | var y =>
    by_cases hy : y = x
    · exact .inr (by simpa [substitute, hy] using h)
    · simp [substitute, hy, symbols] at h
  | app f args =>
    simp only [substitute, symbols, List.mem_cons] at h ⊢
    rcases h with h | h
    · exact .inl (.inl h)
    · exact (symbols_substituteAll args h).imp .inr id

theorem symbols_substituteAll {s : String} (ts : List Term)
    (h : s ∈ symbolsOf (substituteAll ts x r)) : s ∈ symbolsOf ts ∨ s ∈ r.symbols := by
  match ts with
  | [] => exact .inl h
  | t :: ts =>
    simp only [substituteAll, symbolsOf, List.mem_append] at h ⊢
    rcases h with h | h
    · exact (symbols_substitute t h).imp .inl id
    · exact (symbols_substituteAll ts h).imp .inr id

end

variable {D : Type u} {I : Interpretation D} {e : String → D}

mutual

theorem value_substitute (t : Term) :
    (t.substitute x r).value I e = t.value I (Function.update e x (r.value I e)) := by
  match t with
  | var y => by_cases h : y = x <;> simp [substitute, value, h]
  | app f args => simp only [substitute, value, values_substituteAll args]

theorem values_substituteAll (ts : List Term) :
    values I e (substituteAll ts x r) = values I (Function.update e x (r.value I e)) ts := by
  match ts with
  | [] => rfl
  | t :: ts => simp only [substituteAll, values, value_substitute t, values_substituteAll ts]

end

end Term

open Term (occurrence)

/-- An interpretation that reads propositions named `s` as the truth of the terms named `s`. -/
def Interpretation.Reads {D : Type u} (I : Interpretation D) (s : String) : Prop :=
  ∀ ds, I.predicate s ds ↔ I.truth (I.function s ds)

namespace Formula

/-- Every free occurrence of the variable `x` replaced by the term `r`. -/
def subst (x : String) (r : Term) : Formula → Formula
  | prop p args => prop p (Term.substituteAll args x r)
  | var y => if y = x then ofTerm r else var y
  | neg f => neg (f.subst x r)
  | binary op f g => binary op (f.subst x r) (g.subst x r)
  | quant q y f => if y = x then quant q y f else quant q y (f.subst x r)

/-- The tree of a formula with its connectives, its quantifiers and their variables, and the same
atom in the place of every atom. -/
def skeleton : Formula → Formula
  | prop .. | var _ => prop "" []
  | neg f => neg f.skeleton
  | binary op f g => binary op f.skeleton g.skeleton
  | quant q y f => quant q y f.skeleton

/-- The number of levels that substitution for `x` descends: none below a quantifier that
binds `x`. -/
def substLevels (x : String) : Formula → Nat
  | prop .. | var _ => 0
  | neg f => f.substLevels x + 1
  | binary _ f g => max (f.substLevels x) (g.substLevels x) + 1
  | quant _ y f => if y = x then 0 else f.substLevels x + 1

theorem substitute_eq (limit n : Nat) (f : Formula) :
    substitute limit x r n f = withLevels limit (f.substLevels x) n (f.subst x r) := by
  induction f generalizing n with
  | prop | var => simp [substitute, substLevels, subst]
  | neg f ih =>
    cases n with
    | zero => simp [substitute, substLevels]
    | succ n =>
      simp only [substitute, substLevels, subst, ih, withLevels_succ_succ]
      exact withLevels_bind_pure ..
  | binary op f g ihf ihg =>
    cases n with
    | zero => simp [substitute, substLevels]
    | succ n =>
      simp only [substitute, substLevels, subst, ihf, ihg, withLevels_succ_succ]
      exact withLevels_bind (withLevels_bind_pure ..)
  | quant q y f ih =>
    by_cases hy : y = x
    · cases n <;> simp [substitute, substLevels, subst, hy]
    · cases n with
      | zero => simp [substitute, substLevels, hy]
      | succ n =>
        simp only [substitute, substLevels, subst, hy, if_false, ih, withLevels_succ_succ]
        exact withLevels_bind_pure ..

theorem substLevels_le_height (x : String) (f : Formula) : f.substLevels x ≤ f.height := by
  induction f with
  | prop | var => exact Nat.le_refl 0
  | neg f ih => exact Nat.succ_le_succ ih
  | binary op l r ihl ihr =>
    rw [substLevels, height]
    omega
  | quant q y f ih =>
    rw [substLevels, height]
    split
    · exact Nat.zero_le _
    · exact Nat.succ_le_succ ih

/-- A term puts an atom where an atom was. -/
theorem height_subst (f : Formula) : (f.subst x r).height = f.height := by
  induction f with
  | prop => rfl
  | var y => by_cases h : y = x <;> cases r <;> simp [subst, h, ofTerm, height]
  | neg f ih => rw [subst, height, height, ih]
  | binary op f g ihf ihg => rw [subst, height, height, ihf, ihg]
  | quant q y f ih => by_cases h : y = x <;> simp [subst, h, height, ih]

/-- A variable put for itself changes nothing. -/
theorem subst_self (f : Formula) : f.subst x (.var x) = f := by
  induction f with
  | prop p args => simp only [subst, Term.substituteAll_self]
  | var y => by_cases h : y = x <;> simp [subst, h, ofTerm]
  | neg f ih => simp only [subst, ih]
  | binary op f g ihf ihg => simp only [subst, ihf, ihg]
  | quant q y f ih => simp only [subst, ih, ite_self]

/-- A variable that is not free is nowhere to be replaced. -/
theorem subst_of_not_free {f : Formula} (h : x ∉ f.free) : f.subst x r = f := by
  induction f with
  | prop p args => rw [subst, Term.substituteAll_of_not_mem_varsOf args h]
  | var y =>
    rw [free, List.mem_singleton] at h
    rw [subst, if_neg (Ne.symm h)]
  | neg f ih => rw [subst, ih h]
  | binary op f g ihf ihg =>
    rw [free, List.mem_append, not_or] at h
    rw [subst, ihf h.1, ihg h.2]
  | quant q y f ih =>
    by_cases hy : y = x
    · rw [subst, if_pos hy]
    · -- another quantifier leaves a free occurrence of `x` below it free
      have hfree : x ∉ f.free := fun hx => h (by simpa [free, hx] using Ne.symm hy)
      rw [subst, if_neg hy, ih hfree]

/-- A term takes the place of an atom, and the rest of the tree stays. -/
theorem skeleton_subst (f : Formula) : (f.subst x r).skeleton = f.skeleton := by
  induction f with
  | prop => rfl
  | var y => by_cases h : y = x <;> cases r <;> simp [subst, h, ofTerm, skeleton]
  | neg f ih => rw [subst, skeleton, skeleton, ih]
  | binary op f g ihf ihg => rw [subst, skeleton, skeleton, ihf, ihg]
  | quant q y f ih => by_cases h : y = x <;> simp [subst, h, skeleton, ih]

/-! ### Names -/

theorem free_ofTerm (t : Term) : (ofTerm t).free = t.vars := by
  cases t <;> rfl

theorem symbols_ofTerm (t : Term) : (ofTerm t).symbols = t.symbols := by
  cases t <;> rfl

theorem binders_ofTerm (t : Term) : (ofTerm t).binders = [] := by
  cases t <;> rfl

@[simp] theorem binders_subst (f : Formula) : (f.subst x r).binders = f.binders := by
  induction f with
  | prop => rfl
  | var y => by_cases h : y = x <;> simp [subst, h, binders_ofTerm, binders]
  | neg f ih => exact ih
  | binary op f g ihf ihg => simp [subst, binders, ihf, ihg]
  | quant q y f ih => by_cases h : y = x <;> simp [subst, h, binders, ih]

@[simp] theorem boundNames_subst (f : Formula) : (f.subst x r).boundNames = f.boundNames := by
  rw [boundNames, binders_subst, boundNames]

/-- Leaving out a name that neither the variable replaced nor the term has. -/
theorem filter_flatMap_occurrence {y : String} (hy : y ≠ x) (hr : y ∉ r.vars) (zs : List String) :
    (zs.flatMap (occurrence x r)).filter (fun z => z ≠ y) =
      (zs.filter fun z => z ≠ y).flatMap (occurrence x r) := by
  induction zs with
  | nil => rfl
  | cons z zs ih =>
    rw [List.flatMap_cons, List.filter_append, ih]
    by_cases hzy : z = y
    · -- the name left out is no variable replaced
      subst hzy
      simp [occurrence, hy]
    · rw [List.filter_cons_of_pos (by simpa using hzy), List.flatMap_cons]
      congr 1
      -- neither a variable of the term nor `z` itself is left out
      refine List.filter_eq_self.mpr fun w hw => ?_
      by_cases hzx : z = x
      · rw [occurrence, if_pos hzx] at hw
        simpa using fun hwy : w = y => hr (hwy ▸ hw)
      · rw [occurrence, if_neg hzx, List.mem_singleton] at hw
        simpa [hw] using hzy

/-- Leaving out names among which are those that the term has. -/
theorem filter_flatMap_occurrence_of_forall {p : String → Bool} (h : ∀ y ∈ r.vars, p y = false)
    (zs : List String) :
    (zs.flatMap (occurrence x r)).filter p = zs.filter fun z => p z && z ≠ x := by
  induction zs with
  | nil => rfl
  | cons z zs ih =>
    rw [List.flatMap_cons, List.filter_append, ih]
    by_cases hzx : z = x
    · -- of what comes for the variable nothing is kept
      have hnone : r.vars.filter p = [] := List.filter_eq_nil_iff.mpr fun y hy => by simp [h y hy]
      simp [occurrence, hzx, hnone]
    · cases hz : p z <;> simp [occurrence, hzx, hz]

theorem flatMap_occurrence_of_not_mem {zs : List String} (h : x ∉ zs) :
    zs.flatMap (occurrence x r) = zs := by
  induction zs with
  | nil => rfl
  | cons z zs ih =>
    rw [List.mem_cons, not_or] at h
    rw [List.flatMap_cons, ih h.2, occurrence, if_neg (Ne.symm h.1)]
    rfl

/-- Each free occurrence of the variable gives way to the variables of the term. -/
theorem free_subst {f : Formula} (h : ∀ y ∈ r.vars, y ∉ f.boundNames) :
    (f.subst x r).free = f.free.flatMap (occurrence x r) := by
  induction f with
  | prop p args => exact Term.varsOf_substituteAll args
  | var y => by_cases hy : y = x <;> simp [subst, hy, free, free_ofTerm, occurrence]
  | neg f ih => exact ih h
  | binary op f g ihf ihg =>
    simp only [boundNames_binary, List.mem_append, not_or] at h
    simp only [subst, free, List.flatMap_append]
    rw [ihf fun y hy => (h y hy).1, ihg fun y hy => (h y hy).2]
  | quant q y f ih =>
    simp only [boundNames_quant, List.mem_cons, not_or] at h
    by_cases hy : y = x
    · -- below a quantifier for `x` nothing is replaced, and `x` is not free
      rw [subst, if_pos hy, free, flatMap_occurrence_of_not_mem]
      simp [hy]
    · rw [subst, if_neg hy, free, free, ih fun z hz => (h z hz).2]
      exact filter_flatMap_occurrence hy (fun hyr => (h y hyr).1 rfl) _

/-- The variables of the term become free if the variable that it replaces was. -/
theorem mem_free_subst {f : Formula} (h : ∀ y ∈ r.vars, y ∉ f.boundNames) {y : String} :
    y ∈ (f.subst x r).free ↔ (y ∈ f.free ∧ y ≠ x) ∨ (x ∈ f.free ∧ y ∈ r.vars) := by
  rw [free_subst h, List.mem_flatMap]
  constructor
  · rintro ⟨z, hz, hy⟩
    by_cases hzx : z = x
    · rw [occurrence, if_pos hzx] at hy
      exact .inr ⟨hzx ▸ hz, hy⟩
    · rw [occurrence, if_neg hzx, List.mem_singleton] at hy
      rw [hy]
      exact .inl ⟨hz, hzx⟩
  · rintro (⟨hy, hyx⟩ | ⟨hx, hy⟩)
    · exact ⟨y, hy, by simp [occurrence, hyx]⟩
    · exact ⟨x, hx, by simpa [occurrence] using hy⟩

/-- A symbol after substitution was there before or is one of the term. -/
theorem mem_symbols_subst {f : Formula} {s : String} (h : s ∈ (f.subst x r).symbols) :
    s ∈ f.symbols ∨ s ∈ r.symbols := by
  induction f with
  | prop p args =>
    simp only [subst, symbols, List.mem_cons] at h ⊢
    rcases h with h | h
    · exact .inl (.inl h)
    · exact (Term.symbols_substituteAll args h).imp .inr id
  | var y =>
    by_cases hy : y = x
    · rw [subst, if_pos hy, symbols_ofTerm] at h
      exact .inr h
    · rw [subst, if_neg hy] at h
      exact .inl h
  | neg f ih => exact ih h
  | binary op f g ihf ihg =>
    simp only [subst, symbols, List.mem_append] at h ⊢
    rcases h with h | h
    · exact (ihf h).imp .inl id
    · exact (ihg h).imp .inr id
  | quant q y f ih =>
    by_cases hy : y = x
    · rw [subst, if_pos hy] at h
      exact .inl h
    · rw [subst, if_neg hy] at h
      exact ih h

/-! ### Truth -/

variable {D : Type u} {I : Interpretation D}

/-- A term that stands as a formula says that its value is true, if its outermost name is read so.
The names inside it stand in terms before and after. -/
theorem holds_ofTerm {t : Term} (h : ∀ s args, t = .app s args → I.Reads s) (e : String → D) :
    (ofTerm t).Holds I e ↔ I.truth (t.value I e) := by
  cases t with
  | var x => rfl
  | app f args => exact h f args rfl _

/-- Truth after substitution is truth where the variable has the value of the term. -/
theorem holds_subst {f : Formula} (hr : ∀ s args, r = .app s args → I.Reads s)
    (h : ∀ y ∈ r.vars, y ∉ f.boundNames) (e : String → D) :
    (f.subst x r).Holds I e ↔ f.Holds I (Function.update e x (r.value I e)) := by
  induction f generalizing e with
  | prop p args => simp only [subst, Holds, Term.values_substituteAll]
  | var y =>
    by_cases hy : y = x
    · rw [subst, if_pos hy, holds_ofTerm hr, Holds, hy, Function.update_self]
    · rw [subst, if_neg hy, Holds, Holds, Function.update_of_ne hy]
  | neg f ih => exact not_congr (ih h e)
  | binary op f g ihf ihg =>
    simp only [boundNames_binary, List.mem_append, not_or] at h
    exact op.joins_congr (ihf (fun y hy => (h y hy).1) e) (ihg (fun y hy => (h y hy).2) e)
  | quant q y f ih =>
    simp only [boundNames_quant, List.mem_cons, not_or] at h
    by_cases hy : y = x
    · -- the quantifier overrides the value of `x`
      subst hy
      rw [subst, if_pos rfl]
      refine q.ranges_congr fun d => ?_
      rw [Function.update_idem]
    · rw [subst, if_neg hy]
      refine q.ranges_congr fun d => ?_
      -- the quantifier binds no variable of the term, whose value is therefore the same below it
      have hvalue : r.value I (Function.update e y d) = r.value I e := by
        refine r.value_congr fun z hz => Function.update_of_ne ?_ d e
        rintro rfl
        exact (h z hz).1 rfl
      rw [ih (fun z hz => (h z hz).2), hvalue, Function.update_comm hy]

/-! ### The pass -/

/-- The substitution lemma. If no quantifier binds a variable of the term, then what comes of it is
true exactly where the formula is true with the value of the term for the variable. Where the term
comes to stand as a formula, its outermost name is read as a proposition, and none of its other
names is. The variables of the term are free afterwards if the variable was, which itself is gone
unless it is one of them. The tree and its quantifiers stay, and the whole formula stays if the
variable is not free in it. -/
theorem holds_substitute {limit n : Nat} {f g : Formula} (h : substitute limit x r n f = .ok g)
    (hbound : ∀ y ∈ r.vars, y ∉ f.boundNames) :
    (∀ {D : Type u} (I : Interpretation D), (∀ s args, r = .app s args → I.Reads s) →
        ∀ e : String → D, g.Holds I e ↔ f.Holds I (Function.update e x (r.value I e))) ∧
      (∀ y, y ∈ g.free ↔ (y ∈ f.free ∧ y ≠ x) ∨ (x ∈ f.free ∧ y ∈ r.vars)) ∧
      g.skeleton = f.skeleton ∧ g.binders = f.binders ∧ (x ∉ f.free → g = f) := by
  rw [substitute_eq, withLevels_eq_ok_iff] at h
  obtain ⟨-, rfl⟩ := h
  refine ⟨fun I hreads e => holds_subst hreads hbound e, fun y => mem_free_subst hbound, ?_, ?_, ?_⟩
  · exact skeleton_subst f
  · exact binders_subst f
  · intro hx
    exact subst_of_not_free hx

/-- An application with a constant in it, put for a variable that stands as a formula, in a nested
term and below a quantifier that binds it. The constant is not read as a proposition. -/
theorem holds_substitute_application :
    let t := Term.app "f0" [.var "x", .app "c1" []]
    let f := binary .conj (quant .universal "y" (prop "P" [.var "y"]))
      (quant .existential "z" (binary .disj (var "y") (prop "Q" [.app "f1" [.var "y"], .var "z"])))
    let g := binary .conj (quant .universal "y" (prop "P" [.var "y"]))
      (quant .existential "z"
        (binary .disj (prop "f0" [.var "x", .app "c1" []]) (prop "Q" [.app "f1" [t], .var "z"])))
    let I : Interpretation Bool :=
      ⟨fun _ ds => ds.headD false, fun s ds => s = "f0" ∧ ds.headD false, (· = true)⟩
    substitute 3 "y" t 3 f = .ok g ∧ (∀ y ∈ t.vars, y ∉ f.boundNames) ∧ I.Reads "f0" ∧
      ¬ I.Reads "c1" ∧
      (∀ e, g.Holds I e ↔ f.Holds I (Function.update e "y" (e "x"))) ∧
      "y" ∉ g.free ∧ "x" ∈ g.free ∧ g.skeleton = f.skeleton ∧ g.binders = f.binders := by
  intro t f g I
  have hrun : substitute 3 "y" t 3 f = .ok g := rfl
  have hbound : ∀ y ∈ t.vars, y ∉ f.boundNames := by decide
  have hreads : I.Reads "f0" := fun ds => by simp [I]
  have hconstant : ¬ I.Reads "c1" := fun h => absurd (h [true]) (by simp [I])
  obtain ⟨hholds, hfree, hskeleton, hbinders, -⟩ := holds_substitute hrun hbound
  refine ⟨hrun, hbound, hreads, hconstant, fun e => ?_, ?_, ?_, hskeleton, hbinders⟩
  · refine hholds I (fun s args ht => ?_) e
    exact (Term.app.inj ht).1 ▸ hreads
  · rw [hfree]
    decide
  · rw [hfree]
    decide

end Formula

end ClausalForm
