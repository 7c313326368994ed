import ClausalForm.Proofs.Formula.Variables
import Mathlib.Logic.Function.Basic

/-!
# Truth of formulas

The usual meaning of first-order formulas. Function names and proposition names are interpreted on
lists of values, and a variable that stands as a formula is true if its value belongs to the truth
predicate.

## Main definitions

* `Interpretation`: what names mean over a domain
* `Term.value`, `Formula.Holds`: the value of a term and the truth of a formula
* `Formula.symbols`: the names that an interpretation is asked for

## Main results

* `holds_congr`: truth depends on the values of the free variables only
* `holds_congr_symbols`: truth depends on the meaning of the symbols only
-/

namespace ClausalForm

universe u

/-- What names mean over the domain `D`. -/
structure Interpretation (D : Type u) where
  /-- The value of a function name on a list of values. -/
  function : String → List D → D
  /-- The truth of a proposition name on a list of values. -/
  predicate : String → List D → Prop
  /-- The truth of a value that stands as a formula. -/
  truth : D → Prop

variable {D : Type u}

/-- Two interpretations that agree on the truth of values and on the names with a property. -/
def Interpretation.AgreesOn (I J : Interpretation D) (names : String → Prop) : Prop :=
  I.truth = J.truth ∧ ∀ s, names s → I.function s = J.function s ∧ I.predicate s = J.predicate s

namespace Interpretation

variable {I J : Interpretation D}

theorem AgreesOn.mono {p q : String → Prop} (h : I.AgreesOn J p) (hpq : ∀ s, q s → p s) :
    I.AgreesOn J q :=
  ⟨h.1, fun s hs => h.2 s (hpq s hs)⟩

theorem AgreesOn.trans {K : Interpretation D} {p : String → Prop} (h : I.AgreesOn J p)
    (h' : J.AgreesOn K p) : I.AgreesOn K p := by
  refine ⟨h.1.trans h'.1, fun s hs => ?_⟩
  exact ⟨(h.2 s hs).1.trans (h'.2 s hs).1, (h.2 s hs).2.trans (h'.2 s hs).2⟩

end Interpretation

namespace Term

mutual

/-- The value of a term. -/
def value (I : Interpretation D) (e : String → D) : Term → D
  | var x => e x
  | app f args => I.function f (values I e args)

/-- The values of a list of terms. -/
def values (I : Interpretation D) (e : String → D) : List Term → List D
  | [] => []
  | t :: ts => value I e t :: values I e ts

end

mutual

/-- The function names in a term, from left to right. -/
def symbols : Term → List String
  | var _ => []
  | app f args => f :: symbolsOf args

/-- The function names in a list of terms, from left to right. -/
def symbolsOf : List Term → List String
  | [] => []
  | t :: ts => symbols t ++ symbolsOf ts

end

theorem values_map_var (I : Interpretation D) (e : String → D) (xs : List String) :
    values I e (xs.map var) = xs.map e := by
  induction xs with
  | nil => rfl
  | cons x xs ih => simp [values, value, ih]

theorem symbolsOf_map_var (xs : List String) : symbolsOf (xs.map var) = [] := by
  induction xs with
  | nil => rfl
  | cons x xs ih => exact ih

variable {I J : Interpretation D} {e e' : String → D}

mutual

/-- The value of a term depends on the values of its variables only. -/
theorem value_congr (t : Term) (h : ∀ x ∈ t.vars, e x = e' x) : t.value I e = t.value I e' := by
  match t with
  | var x => exact h x (by simp [vars])
  | app f args => simp only [value, values_congr args fun x hx => h x (by simpa [vars] using hx)]

/-- The values of terms depend on the values of their variables only. -/
theorem values_congr (ts : List Term) (h : ∀ x ∈ varsOf ts, e x = e' x) :
    values I e ts = values I e' ts := by
  match ts with
  | [] => rfl
  | t :: ts =>
    simp only [varsOf, List.mem_append] at h
    simp only [values]
    rw [value_congr t fun x hx => h x (.inl hx), values_congr ts fun x hx => h x (.inr hx)]

end

mutual

/-- The value of a term depends on the meaning of its function names only. -/
theorem value_congr_symbols (t : Term) (h : ∀ f ∈ t.symbols, I.function f = J.function f) :
    t.value I e = t.value J e := by
  match t with
  | var x => rfl
  | app f args =>
    simp only [symbols, List.mem_cons] at h
    simp only [value]
    rw [h f (.inl rfl), values_congr_symbols args fun g hg => h g (.inr hg)]

/-- The values of terms depend on the meaning of their function names only. -/
theorem values_congr_symbols (ts : List Term)
    (h : ∀ f ∈ symbolsOf ts, I.function f = J.function f) : values I e ts = values J e ts := by
  match ts with
  | [] => rfl
  | t :: ts =>
    simp only [symbolsOf, List.mem_append] at h
    simp only [values]
    rw [value_congr_symbols t fun f hf => h f (.inl hf),
      values_congr_symbols ts fun f hf => h f (.inr hf)]

end

end Term

/-- The truth of two propositions joined by a connective. -/
def Connective.Joins : Connective → Prop → Prop → Prop
  | conj, p, q => p ∧ q
  | disj, p, q => p ∨ q
  | implies, p, q => p → q
  | iff, p, q => p ↔ q

theorem Connective.joins_congr (op : Connective) {p p' q q' : Prop} (hp : p ↔ p') (hq : q ↔ q') :
    op.Joins p q ↔ op.Joins p' q' := by
  rw [propext hp, propext hq]

/-- Whether a property holds of all values, or of some. -/
def Quantifier.Ranges : Quantifier → (D → Prop) → Prop
  | universal, p => ∀ d, p d
  | existential, p => ∃ d, p d

theorem Quantifier.ranges_congr (q : Quantifier) {p p' : D → Prop} (h : ∀ d, p d ↔ p' d) :
    q.Ranges p ↔ q.Ranges p' := by
  rw [show p = p' from funext fun d => propext (h d)]

/-- What fails of all values is what the dual quantifier says of the opposite. -/
theorem Quantifier.ranges_dual (q : Quantifier) (p : D → Prop) :
    q.dual.Ranges (fun d => ¬ p d) ↔ ¬ q.Ranges p := by
  cases q with
  | universal => exact not_forall.symm
  | existential => exact not_exists.symm

namespace Formula

/-- The truth of a formula where variables have the values that `e` gives them. -/
def Holds (I : Interpretation D) : Formula → (e : String → D) → Prop
  | prop p args, e => I.predicate p (Term.values I e args)
  | var x, e => I.truth (e x)
  | neg f, e => ¬ f.Holds I e
  | binary op l r, e => op.Joins (l.Holds I e) (r.Holds I e)
  | quant q x f, e => q.Ranges fun d => f.Holds I (Function.update e x d)

/-- The proposition names and function names in a formula, from left to right. -/
def symbols : Formula → List String
  | prop p args => p :: Term.symbolsOf args
  | var _ => []
  | neg f | quant _ _ f => f.symbols
  | binary _ l r => l.symbols ++ r.symbols

theorem symbols_core (f : Formula) : f.core.symbols = f.symbols := by
  induction f with
  | prop | var => rfl
  | neg f ih | quant q x f ih => exact ih
  | binary op l r ihl ihr => rw [core, symbols, symbols, ihl, ihr]

variable {I J : Interpretation D}

/-- The truth of a formula depends on the values of its free variables only. -/
theorem holds_congr {f : Formula} {e e' : String → D} (h : ∀ x ∈ f.free, e x = e' x) :
    f.Holds I e ↔ f.Holds I e' := by
  induction f generalizing e e' with
  | prop p args =>
    simp only [Holds]
    rw [Term.values_congr args h]
  | var x =>
    simp only [Holds]
    rw [h x (by simp [free])]
  | neg f ih => exact not_congr (ih h)
  | binary op l r ihl ihr =>
    simp only [free, List.mem_append] at h
    exact op.joins_congr (ihl fun x hx => h x (.inl hx)) (ihr fun x hx => h x (.inr hx))
  | quant q x f ih =>
    -- below the quantifier both assignments have the value `d` at its variable
    refine q.ranges_congr fun d => ih fun y hy => ?_
    by_cases hyx : y = x
    · simp [hyx]
    · rw [Function.update_of_ne hyx, Function.update_of_ne hyx]
      exact h y (by simp [free, hy, hyx])

/-- A variable that is not free may have any value. -/
theorem holds_update {f : Formula} {x : String} (h : x ∉ f.free) (e : String → D) (d : D) :
    f.Holds I (Function.update e x d) ↔ f.Holds I e := by
  refine holds_congr fun y hy => Function.update_of_ne ?_ d e
  rintro rfl
  exact h hy

/-- The truth of a formula depends on the meaning of its symbols only. -/
theorem holds_congr_symbols {f : Formula} (h : I.AgreesOn J (· ∈ f.symbols)) (e : String → D) :
    f.Holds I e ↔ f.Holds J e := by
  obtain ⟨htruth, hnames⟩ := h
  induction f generalizing e with
  | prop p args =>
    simp only [symbols, List.mem_cons] at hnames
    simp only [Holds]
    rw [(hnames p (.inl rfl)).2, Term.values_congr_symbols args fun f hf => (hnames f (.inr hf)).1]
  | var x =>
    simp only [Holds]
    rw [htruth]
  | neg f ih => exact not_congr (ih e hnames)
  | binary op l r ihl ihr =>
    simp only [symbols, List.mem_append] at hnames
    exact op.joins_congr (ihl e fun s hs => hnames s (.inl hs))
      (ihr e fun s hs => hnames s (.inr hs))
  | quant q x f ih => exact q.ranges_congr fun d => ih _ hnames

end Formula

end ClausalForm
