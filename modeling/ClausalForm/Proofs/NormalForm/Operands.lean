import ClausalForm.Formula.Rendering
import ClausalForm.Proofs.NormalForm.CrossProduct
import Mathlib.Data.List.Sort

/-!
# The operands of a chain

A chain of one connective is taken apart with a stack of formulas that are still to be looked at.
What comes out is described by the places in the tree: its operands stand where the applications of
the connective end, and they are listed from left to right. Grouping the tree in another way does
not change this list.

## Main definitions

* `Formula.takeApart`: the loop with the stack
* `Formula.operandAt?`: what stands at a place in the tree of one connective
* `Formula.ListsOperands`: a list of all operands by their places
* `Formula.Regroups`: two formulas that differ in the grouping of conjunctions and disjunctions

## Main results

* `takeApart_singleton`: the loop finds the chain
* `listsOperands_iff`: the chain is the one list of all operands
* `exists_literals_holds_iff`: a clause says that some of its literals holds
* `regroups_iff_forall₂_chain`: grouping in another way keeps the operands and their order
-/

namespace ClausalForm.Formula

universe u

variable {op : Connective} {f g : Formula}

/-! ### Taking apart with a stack -/

/-- The loop that takes formulas apart along `op`. An application of `op` makes room for its
operands, the left one of which comes next, and anything else has been found. -/
def takeApart (op : Connective) : (pending found : List Formula) → List Formula
  | [], found => found
  | binary op' l r :: pending, found =>
    if op' = op then takeApart op (l :: r :: pending) found
    else takeApart op pending (found ++ [binary op' l r])
  | f :: pending, found => takeApart op pending (found ++ [f])
termination_by pending => sizeOf pending
decreasing_by
  · -- the application itself goes away
    have hop : 0 < sizeOf op' := by cases op' <;> decide
    simp only [List.cons.sizeOf_spec, binary.sizeOf_spec]
    omega
  all_goals
    simp only [List.cons.sizeOf_spec]
    omega

theorem takeApart_eq (op : Connective) (pending found : List Formula) :
    takeApart op pending found = found ++ pending.flatMap (chain op) := by
  fun_induction takeApart op pending found with
  | case1 => simp
  | case2 l r pending found ih => simp [ih]
  | case3 op' l r pending found hop ih => simp [ih, chain, hop]
  | case4 f pending found hf ih =>
    have hnone : f.operands? op = none := by
      cases f with
      | binary op' l r => exact (hf op' l r rfl).elim
      | prop | var | neg | quant => rfl
    simp [ih, chain_of_operands?_eq_none hnone]

theorem takeApart_singleton (op : Connective) (f : Formula) : takeApart op [f] [] = f.chain op := by
  rw [takeApart_eq, List.flatMap_singleton, List.nil_append]

/-! ### Places -/

/-- What stands at a place in the tree of applications of `op` at the root, where the way down
takes a side of each application. -/
def operandAt? (op : Connective) : (place : List Side) → Formula → Option Formula
  | [], f => some f
  | .left :: place, f => (f.operands? op).bind fun (l, _) => l.operandAt? op place
  | .right :: place, f => (f.operands? op).bind fun (_, r) => r.operandAt? op place

/-- The first place is to the left of the second one: at some application the ways part. -/
inductive IsLeftOf : List Side → List Side → Prop
  | parting (p q : List Side) : IsLeftOf (.left :: p) (.right :: q)
  | under (side : Side) {p q : List Side} (h : IsLeftOf p q) : IsLeftOf (side :: p) (side :: q)

instance : Std.Asymm IsLeftOf where
  asymm p q h := by
    induction h with
    | parting p q => nofun
    | under side _ ih =>
      rintro (_ | ⟨_, h⟩)
      exact ih h

/-- The formulas are those at all places where the applications of `op` at the root end, once for
each place and from left to right. -/
def ListsOperands (op : Connective) (f : Formula) (parts : List Formula) : Prop :=
  ∃ places : List (List Side), places.Pairwise IsLeftOf ∧
    (∀ p, p ∈ places ↔ ∃ c, f.operandAt? op p = some c ∧ c.isApplicationOf op = false) ∧
    places.map (f.operandAt? op ·) = parts.map some

theorem operandAt?_left (l r : Formula) (p : List Side) :
    (binary op l r).operandAt? op (.left :: p) = l.operandAt? op p := by
  rw [operandAt?, operands?_binary_self, Option.bind_some]

theorem operandAt?_right (l r : Formula) (p : List Side) :
    (binary op l r).operandAt? op (.right :: p) = r.operandAt? op p := by
  rw [operandAt?, operands?_binary_self, Option.bind_some]

theorem operandAt?_cons_of_operands?_eq_none (h : f.operands? op = none) (side : Side)
    (p : List Side) : f.operandAt? op (side :: p) = none := by
  cases side <;> rw [operandAt?, h, Option.bind_none]

theorem listsOperands_chain (op : Connective) (f : Formula) : f.ListsOperands op (f.chain op) := by
  induction f using chain_induction op with
  | single f h =>
    -- the formula itself is where it ends
    refine ⟨[[]], List.pairwise_singleton .., fun p => ?_, ?_⟩
    · cases p with
      | nil => simp [operandAt?, isApplicationOf_of_operands?_eq_none h]
      | cons side p => simp [operandAt?_cons_of_operands?_eq_none h]
    · rw [chain_of_operands?_eq_none h]
      rfl
  | join l r ihl ihr =>
    obtain ⟨ps, hps, hmemps, hmapps⟩ := ihl
    obtain ⟨qs, hqs, hmemqs, hmapqs⟩ := ihr
    -- the places on the left come before those on the right
    refine ⟨ps.map (.left :: ·) ++ qs.map (.right :: ·), ?_, fun p => ?_, ?_⟩
    · refine List.pairwise_append.mpr ⟨List.pairwise_map.mpr (hps.imp (.under .left)),
        List.pairwise_map.mpr (hqs.imp (.under .right)), fun p hp q hq => ?_⟩
      obtain ⟨p, -, rfl⟩ := List.mem_map.mp hp
      obtain ⟨q, -, rfl⟩ := List.mem_map.mp hq
      exact .parting p q
    · cases p with
      | nil => simp [operandAt?, isApplicationOf]
      | cons side p =>
        cases side with
        | left => simp [operandAt?_left, hmemps]
        | right => simp [operandAt?_right, hmemqs]
    · simp only [List.map_append, List.map_map, chain_binary_self, ← hmapps, ← hmapqs,
        Function.comp_def, operandAt?_left, operandAt?_right]

/-- The chain is the one list of all operands. -/
theorem listsOperands_iff {parts : List Formula} :
    f.ListsOperands op parts ↔ parts = f.chain op := by
  constructor
  · rintro ⟨ps, hps, hmemps, hmapps⟩
    obtain ⟨qs, hqs, hmemqs, hmapqs⟩ := listsOperands_chain op f
    -- the places in order are determined by which they are
    obtain rfl := hps.eq_of_mem_iff hqs fun p => (hmemps p).trans (hmemqs p).symm
    exact List.map_injective_iff.mpr (Option.some_injective _) (hmapps.symm.trans hmapqs)
  · rintro rfl
    exact listsOperands_chain op f

theorem chain_ne_nil (op : Connective) (f : Formula) : f.chain op ≠ [] := by
  induction f using chain_induction op with
  | single f h =>
    rw [chain_of_operands?_eq_none h]
    exact List.cons_ne_nil f []
  | join l r ihl _ =>
    rw [chain_binary_self]
    exact List.append_ne_nil_of_left_ne_nil ihl _

/-- A clause says that some of its literals holds. -/
theorem exists_literals_holds_iff {D : Type u} {I : Interpretation D} (f : Formula)
    (e : String → D) : (∃ l ∈ f.literals, l.Holds I e) ↔ f.Holds I e := by
  rw [literals]
  induction f using chain_induction .disj with
  | single f h => simp [chain_of_operands?_eq_none h]
  | join l r ihl ihr =>
    simp only [chain_binary_self, List.mem_append, or_and_right, exists_or, ihl, ihr]
    rfl

/-! ### Grouping in another way -/

/-- The formulas differ in the grouping of their conjunctions and disjunctions only. -/
inductive Regroups : Formula → Formula → Prop
  | refl (f : Formula) : Regroups f f
  | symm {f g : Formula} (h : Regroups f g) : Regroups g f
  | trans {f g k : Formula} (h : Regroups f g) (h' : Regroups g k) : Regroups f k
  | assoc {op : Connective} (hop : op = .conj ∨ op = .disj) (a b c : Formula) :
    Regroups (binary op (binary op a b) c) (binary op a (binary op b c))
  | join {op : Connective} (hop : op = .conj ∨ op = .disj) {l l' r r' : Formula}
    (hl : Regroups l l') (hr : Regroups r r') : Regroups (binary op l r) (binary op l' r')

namespace Regroups

theorem isNegation_eq (h : f.Regroups g) : f.isNegation = g.isNegation := by
  induction h with
  | refl | assoc | join => rfl
  | symm _ ih => exact ih.symm
  | trans _ _ ih ih' => exact ih.trans ih'

instance : Std.Refl Regroups := ⟨refl⟩

theorem forall₂_trans {fs gs ks : List Formula} (h : List.Forall₂ Regroups fs gs)
    (h' : List.Forall₂ Regroups gs ks) : List.Forall₂ Regroups fs ks := by
  induction h generalizing ks with
  | nil => exact h'
  | cons hfg _ ih =>
    cases h' with
    | cons hgk h' => exact .cons (hfg.trans hgk) (ih h')

/-- The operands of a chain stay in their order, and are grouped in another way themselves. -/
theorem forall₂_chain (h : f.Regroups g) (op : Connective) :
    List.Forall₂ Regroups (f.chain op) (g.chain op) := by
  induction h with
  | refl f => exact List.forall₂_refl _
  | symm _ ih => exact (ih.imp fun _ _ => .symm).flip
  | trans _ _ ih ih' => exact forall₂_trans ih ih'
  | @assoc op' hop a b c =>
    -- what belongs to another connective is an operand by itself
    by_cases heq : op' = op
    · subst heq
      rw [chain_binary_self, chain_binary_self, chain_binary_self, chain_binary_self,
        List.append_assoc]
      exact List.forall₂_refl _
    · rw [chain_binary_of_ne heq, chain_binary_of_ne heq]
      exact .cons (.assoc hop a b c) .nil
  | @join op' hop l l' r r' hl hr ihl ihr =>
    by_cases heq : op' = op
    · subst heq
      rw [chain_binary_self, chain_binary_self]
      exact List.rel_append ihl ihr
    · rw [chain_binary_of_ne heq, chain_binary_of_ne heq]
      exact .cons (.join hop hl hr) .nil

end Regroups

/-- The application of `op` to formulas, grouped to the right. -/
def nested (op : Connective) : Formula → List Formula → Formula
  | f, [] => f
  | f, g :: gs => binary op f (nested op g gs)

theorem regroups_nested_append (hop : op = .conj ∨ op = .disj) (f g : Formula)
    (fs gs : List Formula) :
    (binary op (nested op f fs) (nested op g gs)).Regroups (nested op f (fs ++ g :: gs)) := by
  induction fs generalizing f with
  | nil => exact .refl _
  | cons f' fs ih => exact (Regroups.assoc hop ..).trans (.join hop (.refl f) (ih f'))

theorem regroups_nested_of_forall₂ (hop : op = .conj ∨ op = .disj) {f g : Formula}
    {fs gs : List Formula} (h : List.Forall₂ Regroups (f :: fs) (g :: gs)) :
    (nested op f fs).Regroups (nested op g gs) := by
  induction fs generalizing f g gs with
  | nil =>
    obtain _ | ⟨h, ⟨⟩⟩ := h
    exact h
  | cons f' fs ih =>
    obtain _ | ⟨h, hs⟩ := h
    cases hs with
    | cons h' hs => exact .join hop h (ih (.cons h' hs))

/-- Every formula can be grouped to the right. -/
theorem exists_regroups_nested (hop : op = .conj ∨ op = .disj) (f : Formula) :
    ∃ c cs, f.chain op = c :: cs ∧ f.Regroups (nested op c cs) := by
  induction f using chain_induction op with
  | single f h => exact ⟨f, [], chain_of_operands?_eq_none h, .refl f⟩
  | join l r ihl ihr =>
    obtain ⟨c, cs, hc, hl⟩ := ihl
    obtain ⟨d, ds, hd, hr⟩ := ihr
    refine ⟨c, cs ++ d :: ds, ?_, (Regroups.join hop hl hr).trans ?_⟩
    · rw [chain_binary_self, hc, hd, List.cons_append]
    · exact regroups_nested_append hop c d cs ds

/-- Grouping in another way is to keep the operands of a chain and their order, where each of them
may be grouped in another way as well. -/
theorem regroups_iff_forall₂_chain (hop : op = .conj ∨ op = .disj) :
    f.Regroups g ↔ List.Forall₂ Regroups (f.chain op) (g.chain op) := by
  constructor
  · intro h
    exact h.forall₂_chain op
  · intro h
    obtain ⟨c, cs, hc, hf⟩ := exists_regroups_nested hop f
    obtain ⟨d, ds, hd, hg⟩ := exists_regroups_nested hop g
    rw [hc, hd] at h
    exact (hf.trans (regroups_nested_of_forall₂ hop h)).trans hg.symm

end ClausalForm.Formula
