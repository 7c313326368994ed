import ClausalForm.Proofs.Formula.Substitution

/-!
# Formulas without the names of bound variables

A bound variable is a place: the quantifier that it belongs to, which is the nearest around it that
binds its name. With a place for each bound variable and the name for each free one, the names that
quantifiers bind say nothing any more. Two formulas with the same form without these names are the
same up to bound renaming: their trees, connectives, quantifiers, propositions and functions are the
same, and every variable belongs to the quantifier at the same position, or is free with the same
name.

## Main definitions

* `Reference`: what a variable refers to
* `Formula.nameless`: a formula with references in place of names

## Main results

* `Formula.nameless_subst_var`: a variable that is renamed refers to what it referred to, if the
  places around it are renamed along
-/

namespace ClausalForm

/-- What a variable refers to. -/
inductive Reference where
  /-- A quantifier around it, with so many others between. -/
  | bound (between : Nat)
  /-- Nothing: the variable is free, with this name. -/
  | free (name : String)
deriving DecidableEq, Repr

namespace Reference

/-- The reference from below one more quantifier. -/
def under : Reference → Reference
  | bound k => bound (k + 1)
  | free x => free x

/-- What a name refers to below quantifiers that bind the names `scope`, the innermost first. -/
def resolve : (scope : List String) → (name : String) → Reference
  | [], x => free x
  | y :: scope, x => if x = y then bound 0 else (resolve scope x).under

theorem resolve_cons_self (x : String) (scope : List String) :
    resolve (x :: scope) x = bound 0 :=
  if_pos rfl

theorem resolve_cons_of_ne {x y : String} (h : x ≠ y) (scope : List String) :
    resolve (y :: scope) x = (resolve scope x).under :=
  if_neg h

end Reference

open Reference (resolve resolve_cons_self resolve_cons_of_ne)

/-- A term with references in place of the names of its variables. -/
inductive NamelessTerm where
  | var (ref : Reference)
  | app (name : String) (args : List NamelessTerm)
deriving Repr

/-- A formula with references in place of the names of its variables, whose quantifiers bind no
names. -/
inductive NamelessFormula where
  | prop (name : String) (args : List NamelessTerm)
  | var (ref : Reference)
  | neg (operand : NamelessFormula)
  | binary (op : Connective) (left right : NamelessFormula)
  | quant (q : Quantifier) (body : NamelessFormula)
deriving Repr

/-! ### Terms -/

namespace Term

mutual

/-- The term below quantifiers that bind the names `scope`, with references in place of names. -/
def nameless (scope : List String) : Term → NamelessTerm
  | var x => .var (resolve scope x)
  | app f args => .app f (namelessAll scope args)

/-- The terms of a list with references in place of names. -/
def namelessAll (scope : List String) : List Term → List NamelessTerm
  | [] => []
  | t :: ts => nameless scope t :: namelessAll scope ts

end

variable {scope scope' : List String} {x y : String}

mutual

theorem nameless_substitute_var (t : Term)
    (h : ∀ z ∈ t.vars, resolve scope' (if z = x then y else z) = resolve scope z) :
    (t.substitute x (.var y)).nameless scope' = t.nameless scope := by
  match t with
  | var z =>
    have hz := h z (List.mem_singleton_self z)
    rw [substitute, nameless, ← hz]
    split <;> rfl
  | app f args => rw [substitute, nameless, nameless, namelessAll_substituteAll_var args h]

theorem namelessAll_substituteAll_var (ts : List Term)
    (h : ∀ z ∈ varsOf ts, resolve scope' (if z = x then y else z) = resolve scope z) :
    namelessAll scope' (substituteAll ts x (.var y)) = namelessAll scope ts := by
  match ts with
  | [] => rfl
  | t :: ts =>
    rw [varsOf, List.forall_mem_append] at h
    rw [substituteAll, namelessAll, namelessAll, nameless_substitute_var t h.1,
      namelessAll_substituteAll_var ts h.2]

end

end Term

/-! ### Formulas -/

namespace Formula

/-- The formula below quantifiers that bind the names `scope`, the innermost first, with references
in place of names. -/
def nameless : (scope : List String) → Formula → NamelessFormula
  | scope, prop p args => .prop p (Term.namelessAll scope args)
  | scope, var x => .var (resolve scope x)
  | scope, neg f => .neg (f.nameless scope)
  | scope, binary op l r => .binary op (l.nameless scope) (r.nameless scope)
  | scope, quant q x f => .quant q (f.nameless (x :: scope))

/-- When `x` is renamed to `y`, all variables refer to what they referred to if they do so where
they are free. No quantifier may capture the new name. -/
theorem nameless_subst_var {f : Formula} {x y : String} {scope scope' : List String}
    (hy : y = x ∨ y ∉ f.boundNames)
    (h : ∀ z ∈ f.free, resolve scope' (if z = x then y else z) = resolve scope z) :
    (f.subst x (.var y)).nameless scope' = f.nameless scope := by
  induction f generalizing x y scope scope' with
  | prop p args => rw [subst, nameless, nameless, Term.namelessAll_substituteAll_var args h]
  | var z =>
    have hz := h z (List.mem_singleton_self z)
    rw [nameless, ← hz, subst]
    split <;> rfl
  | neg f ih => rw [subst, nameless, nameless, ih hy h]
  | binary op l r ihl ihr =>
    rw [boundNames_binary, List.mem_append, not_or] at hy
    rw [free, List.forall_mem_append] at h
    rw [subst, nameless, nameless, ihl (hy.imp_right And.left) h.1,
      ihr (hy.imp_right And.right) h.2]
  | quant q z f ih =>
    rw [boundNames_quant, List.mem_cons, not_or] at hy
    simp only [free, List.mem_filter, decide_eq_true_eq, ne_eq, and_imp] at h
    by_cases hzx : z = x
    · -- below a quantifier for `x` nothing is renamed, and `x` itself refers to that quantifier
      subst hzx
      have hbody : (f.subst z (.var z)).nameless (z :: scope') = f.nameless (z :: scope) := by
        refine ih (.inl rfl) fun w hw => ?_
        rw [ite_eq_right_iff.mpr Eq.symm]
        by_cases hwz : w = z
        · rw [hwz, resolve_cons_self, resolve_cons_self]
        · have hw' := h w hw hwz
          rw [if_neg hwz] at hw'
          rw [resolve_cons_of_ne hwz, resolve_cons_of_ne hwz, hw']
      rw [subst_self] at hbody
      rw [subst, if_pos rfl, nameless, nameless, hbody]
    · have hbody : (f.subst x (.var y)).nameless (z :: scope') = f.nameless (z :: scope) := by
        refine ih (hy.imp_right And.right) fun w hw => ?_
        by_cases hwz : w = z
        · subst hwz
          rw [if_neg hzx, resolve_cons_self, resolve_cons_self]
        · -- the new name is not the one that the quantifier binds
          have hne : (if w = x then y else w) ≠ z := by
            split
            · rcases hy with rfl | hy
              · exact Ne.symm hzx
              · exact hy.1
            · exact hwz
          rw [resolve_cons_of_ne hne, resolve_cons_of_ne hwz, h w hw hwz]
      rw [subst, if_neg hzx, nameless, nameless, hbody]

end Formula

end ClausalForm
