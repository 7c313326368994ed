import ClausalForm.Proofs.NormalForm.Distribution
import ClausalForm.Proofs.NormalForm.Skolem

/-!
# Replacing all variables at once

Distribution, clauses and the counts of literals look at the connectives of a formula and never at
its atoms. They therefore commute with a replacement of variables by terms, which puts an atom where
an atom was. Terms for existential variables, put in one after the other, are such a replacement.

## Main definitions

* `Term.replace`, `Formula.replace`: terms put for all variables at once
* `termFor`: the replacement that a list of variables with their terms describes
* `HornReport.figures`: what a report says of its clause

## Main results

* `distributeWithin_replace`, `chain_replace`: replacement passes distribution and clauses
* `figures_ofClause_replace`: clauses keep their counts and their kind
* `instantiate_eq_replace`: terms put in one after the other are put in all at once
-/

namespace ClausalForm

/-! ### Terms -/

namespace Term

mutual

/-- Every variable of a term replaced by the term that `σ` has for it. -/
def replace (σ : String → Term) : Term → Term
  | var x => σ x
  | app f args => app f (replaceAll σ args)

/-- Replacement in every term of a list. -/
def replaceAll (σ : String → Term) : List Term → List Term
  | [] => []
  | t :: ts => replace σ t :: replaceAll σ ts

end

variable {σ τ : String → Term} {x : String} {r : Term}

mutual

/-- Where every variable of a term stands for itself, the term stays as it is. -/
theorem replace_of_forall_mem_vars (t : Term) (h : ∀ y ∈ t.vars, σ y = var y) :
    t.replace σ = t := by
  match t with
  | var y => exact h y (List.mem_singleton_self y)
  | app f args => rw [replace, replaceAll_of_forall_mem_varsOf args h]

theorem replaceAll_of_forall_mem_varsOf (ts : List Term) (h : ∀ y ∈ varsOf ts, σ y = var y) :
    replaceAll σ ts = ts := by
  match ts with
  | [] => rfl
  | t :: ts =>
    rw [varsOf, List.forall_mem_append] at h
    rw [replaceAll, replace_of_forall_mem_vars t h.1, replaceAll_of_forall_mem_varsOf ts h.2]

end

mutual

/-- Substitution and a replacement after it are one replacement. -/
theorem replace_substitute (hx : r.replace σ = τ x) (h : ∀ y, y ≠ x → σ y = τ y) (t : Term) :
    (t.substitute x r).replace σ = t.replace τ := by
  match t with
  | var y =>
    rw [substitute]
    split
    · rename_i hy
      rw [hy, hx, replace]
    · rename_i hy
      exact h y hy
  | app f args => rw [substitute, replace, replace, replaceAll_substituteAll hx h args]

theorem replaceAll_substituteAll (hx : r.replace σ = τ x) (h : ∀ y, y ≠ x → σ y = τ y)
    (ts : List Term) : replaceAll σ (substituteAll ts x r) = replaceAll τ ts := by
  match ts with
  | [] => rfl
  | t :: ts =>
    rw [substituteAll, replaceAll, replaceAll, replace_substitute hx h t,
      replaceAll_substituteAll hx h ts]

end

end Term

/-- The term for a variable: the one that the list has for it, or else the variable itself. -/
def termFor (terms : List (String × Term)) (x : String) : Term :=
  (terms.lookup x).getD (.var x)

theorem termFor_cons_self (x : String) (t : Term) (terms : List (String × Term)) :
    termFor ((x, t) :: terms) x = t := by
  simp [termFor]

theorem termFor_cons_of_ne {x y : String} (h : y ≠ x) (t : Term) (terms : List (String × Term)) :
    termFor ((x, t) :: terms) y = termFor terms y := by
  simp [termFor, List.lookup_cons, beq_eq_false_iff_ne.mpr h]

theorem termFor_of_not_mem {x : String} {terms : List (String × Term)}
    (h : x ∉ terms.map Prod.fst) : termFor terms x = .var x := by
  induction terms with
  | nil => rfl
  | cons p terms ih =>
    obtain ⟨y, t⟩ := p
    rw [List.map_cons, List.mem_cons, not_or] at h
    rw [termFor_cons_of_ne h.1, ih h.2]

/-- What a report says of its clause: the numbers of literals and the kind. -/
def HornReport.figures (r : HornReport) : Nat × Nat × HornKind :=
  (r.positive, r.negative, r.kind)

namespace Formula

/-! ### Formulas -/

/-- Every variable of a formula replaced by the term that `σ` has for it. What quantifiers bind
stays as it is. -/
def replace (σ : String → Term) : Formula → Formula
  | prop p args => prop p (Term.replaceAll σ args)
  | var x => ofTerm (σ x)
  | neg f => neg (f.replace σ)
  | binary op l r => binary op (l.replace σ) (r.replace σ)
  | quant q x f => quant q x (f.replace σ)

variable {σ τ : String → Term} {op outer : Connective} {f : Formula}

theorem operands?_ofTerm (t : Term) : (ofTerm t).operands? op = none := by
  cases t <;> rfl

theorem operands?_replace (f : Formula) :
    (f.replace σ).operands? op =
      (f.operands? op).map fun p => (p.1.replace σ, p.2.replace σ) := by
  cases f with
  | var x => exact operands?_ofTerm _
  | binary op' l r =>
    rw [replace, operands?, operands?]
    split <;> rfl
  | prop | neg | quant => rfl

theorem operands?_replace_eq_none (h : f.operands? op = none) :
    (f.replace σ).operands? op = none := by
  rw [operands?_replace, h]
  rfl

/-- Replacement passes two chains that are joined. -/
theorem combined_replace (l r : Formula) :
    (l.replace σ).combined outer (r.replace σ) = (l.combined outer r).replace σ := by
  induction l, r using combined_induction outer with
  | single l r hl hr =>
    rw [combined_single hl hr,
      combined_single (operands?_replace_eq_none hl) (operands?_replace_eq_none hr), replace]
  | left a b r hr iha ihb =>
    rw [combined_left hr, replace, replace, combined_left (operands?_replace_eq_none hr), iha, ihb]
  | right l a b iha ihb => rw [combined_right, replace, replace, combined_right, iha, ihb]

theorem distributed_ofTerm (t : Term) : (ofTerm t).distributed outer = ofTerm t := by
  cases t <;> rfl

theorem distributed_replace (f : Formula) :
    (f.replace σ).distributed outer = (f.distributed outer).replace σ := by
  induction f with
  | prop => rfl
  | var x => exact distributed_ofTerm _
  | neg f ih | quant q x f ih => rw [replace, distributed, distributed, ih, replace]
  | binary op l r ihl ihr =>
    rw [replace, distributed, distributed, ihl, ihr]
    split
    · exact combined_replace ..
    · rfl

theorem chainHeight_replace (f : Formula) :
    (f.replace σ).chainHeight op = f.chainHeight op := by
  induction f using chain_induction op with
  | single f h =>
    rw [chainHeight_of_operands?_eq_none h,
      chainHeight_of_operands?_eq_none (operands?_replace_eq_none h)]
  | join l r ihl ihr => rw [replace, chainHeight_binary_self, chainHeight_binary_self, ihl, ihr]

theorem distributionLevels_replace (f : Formula) :
    (f.replace σ).distributionLevels outer = f.distributionLevels outer := by
  induction f with
  | prop => rfl
  | var x =>
    rw [replace]
    cases σ x <;> rfl
  | neg f ih | quant q x f ih => rw [replace, distributionLevels, distributionLevels, ih]
  | binary op l r ihl ihr =>
    simp only [replace, distributionLevels, distributed_replace, chainHeight_replace, ihl, ihr]

/-- Replacement passes distribution, also where distribution fails. -/
theorem distributeWithin_replace (limit n : Nat) (f : Formula) :
    distributeWithin limit outer n (f.replace σ) =
      (distributeWithin limit outer n f).map (replace σ) := by
  rw [distributeWithin_eq, distributeWithin_eq, withLevels_map, distributionLevels_replace,
    distributed_replace]

/-! ### Clauses -/

theorem chain_ofTerm (t : Term) : (ofTerm t).chain op = [ofTerm t] := by
  cases t <;> rfl

/-- Replacement passes the operands of a chain. -/
theorem chain_replace (f : Formula) :
    (f.replace σ).chain op = (f.chain op).map (replace σ) := by
  induction f with
  | var x => exact chain_ofTerm (σ x)
  | binary op' l r ihl ihr =>
    rw [replace, chain, chain]
    split
    · rw [ihl, ihr, List.map_append]
    · rfl
  | prop | neg | quant => rfl

theorem isNegation_replace (f : Formula) : (f.replace σ).isNegation = f.isNegation := by
  cases f with
  | var x =>
    rw [replace]
    cases σ x <;> rfl
  | prop | neg | binary | quant => rfl

/-- A clause keeps its counts and its kind, whatever its variables are replaced by. -/
theorem figures_ofClause_replace (c : Formula) :
    (HornReport.ofClause (c.replace σ)).figures = (HornReport.ofClause c).figures := by
  simp only [HornReport.figures, HornReport.ofClause, literals, chain_replace, List.countP_map,
    Function.comp_def, isNegation_replace]

/-- As many clauses, with the same counts and of the same kinds. -/
theorem map_figures_clauses_replace (f : Formula) :
    (f.replace σ).clauses.map (fun c => (HornReport.ofClause c).figures) =
      f.clauses.map fun c => (HornReport.ofClause c).figures := by
  rw [clauses, clauses, chain_replace, List.map_map]
  exact List.map_congr_left fun c _ => figures_ofClause_replace c

/-! ### One after the other -/

/-- A replacement of all variables by themselves changes nothing. -/
theorem replace_var (f : Formula) : f.replace .var = f := by
  induction f with
  | prop p args => rw [replace, Term.replaceAll_of_forall_mem_varsOf args fun _ _ => rfl]
  | var x => rfl
  | neg f ih | quant q x f ih => rw [replace, ih]
  | binary op l r ihl ihr => rw [replace, ihl, ihr]

theorem replace_ofTerm (t : Term) : (ofTerm t).replace σ = ofTerm (t.replace σ) := by
  cases t <;> rfl

/-- Substitution and a replacement after it are one replacement, where nothing is shadowed. -/
theorem replace_subst {x : String} {r : Term} {f : Formula} (hf : f.isQuantifierFree)
    (hx : r.replace σ = τ x) (h : ∀ y, y ≠ x → σ y = τ y) :
    (f.subst x r).replace σ = f.replace τ := by
  induction f with
  | prop p args => rw [subst, replace, replace, Term.replaceAll_substituteAll hx h]
  | var y =>
    rw [subst]
    split
    · rename_i hy
      rw [replace_ofTerm, hx, hy, replace]
    · rename_i hy
      rw [replace, replace, h y hy]
  | neg f ih => rw [subst, replace, replace, ih hf]
  | binary op l r ihl ihr =>
    rw [isQuantifierFree, Bool.and_eq_true] at hf
    rw [subst, replace, replace, ihl hf.1, ihr hf.2]
  | quant => cases hf

/-- Terms put in one after the other are put in all at once, if no term has a variable that another
one is for. -/
theorem instantiate_eq_replace {f : Formula} {terms : List (String × Term)}
    (hf : f.isQuantifierFree)
    (h : ∀ p ∈ terms, ∀ y ∈ p.2.vars, y ∉ terms.map Prod.fst) :
    f.instantiate terms = f.replace (termFor terms) := by
  induction terms generalizing f with
  | nil => exact (replace_var f).symm
  | cons p terms ih =>
    obtain ⟨x, t⟩ := p
    rw [List.forall_mem_cons] at h
    simp only [List.map_cons, List.mem_cons, not_or] at h
    rw [instantiate_cons, ih (by rwa [isQuantifierFree_subst]) fun p hp y hy => (h.2 p hp y hy).2]
    refine replace_subst hf ?_ fun y hy => (termFor_cons_of_ne hy t terms).symm
    -- the variables of the term stand for themselves from here on
    rw [termFor_cons_self]
    exact t.replace_of_forall_mem_vars fun y hy => termFor_of_not_mem (h.1 y hy).2

end Formula

end ClausalForm
