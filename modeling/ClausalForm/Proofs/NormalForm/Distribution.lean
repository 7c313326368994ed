import ClausalForm.Clause
import ClausalForm.NormalForm.Distribution
import ClausalForm.Proofs.Formula.Truth

/-!
# Conjunctive form

Distributing one of conjunction and disjunction over the other goes from chain to chain: each
operand of the one is joined with each operand of the other. It keeps the truth of a formula and
brings in no variable, and a formula says what its clauses say together.

## Main definitions

* `Formula.mapChain`: a function applied to the operands of a chain
* `Formula.combined`: two formulas joined operand by operand of their chains
* `Formula.distributed`: the distribution as a function of the tree alone

## Main results

* `combined_induction`: induction on the two chains that are joined
* `combine_eq`, `distributeWithin_eq`: what the pass computes, and the levels that it takes
* `mem_variableNames_of_distributeWithin`: distribution brings in no variable
* `holds_distributeWithin`: distribution keeps the truth of a formula
* `forall_clauses_holds_iff`: the clauses of a formula together are the formula
-/

namespace ClausalForm

universe u

/-- The distributive law in its two directions. -/
theorem Connective.joins_dual_joins {outer : Connective} (h : outer = .conj ∨ outer = .disj)
    (p q r : Prop) :
    outer.dual.Joins p (outer.Joins q r) ↔
      outer.Joins (outer.dual.Joins p q) (outer.dual.Joins p r) := by
  rcases h with rfl | rfl
  · exact or_and_left
  · exact and_or_left

/-- The distributive law in its two directions, from the other side. -/
theorem Connective.joins_joins_dual {outer : Connective} (h : outer = .conj ∨ outer = .disj)
    (p q r : Prop) :
    outer.dual.Joins (outer.Joins p q) r ↔
      outer.Joins (outer.dual.Joins p r) (outer.dual.Joins q r) := by
  rcases h with rfl | rfl
  · exact and_or_right
  · exact or_and_right

namespace Formula

variable {op outer : Connective} {f g : Formula} {x : String}

/-! ### Chains -/

@[simp] theorem operands?_binary_self (l r : Formula) :
    (binary op l r).operands? op = some (l, r) := if_pos rfl

theorem ne_of_operands?_eq_none {op' : Connective} {l r : Formula}
    (h : (binary op' l r).operands? op = none) : op' ≠ op := by
  rintro rfl
  simp at h

/-- A formula is an application of `op`, or a chain with no other operand than itself. -/
theorem chain_induction (op : Connective) {Q : Formula → Prop}
    (single : ∀ f, f.operands? op = none → Q f)
    (join : ∀ l r, Q l → Q r → Q (binary op l r)) (f : Formula) : Q f := by
  induction f with
  | binary op' l r ihl ihr =>
    by_cases hop : op' = op
    · exact hop ▸ join l r ihl ihr
    · exact single _ (if_neg hop)
  | prop | var | neg | quant => exact single _ rfl

@[simp] theorem chain_binary_self (l r : Formula) :
    (binary op l r).chain op = l.chain op ++ r.chain op := if_pos rfl

theorem chain_binary_of_ne {op' : Connective} (h : op' ≠ op) (l r : Formula) :
    (binary op' l r).chain op = [binary op' l r] := if_neg h

theorem chain_of_operands?_eq_none (h : f.operands? op = none) : f.chain op = [f] := by
  cases f with
  | binary => exact if_neg (ne_of_operands?_eq_none h)
  | prop | var | neg | quant => rfl

/-- The variables of an operand are those of the formula. -/
theorem mem_variableNames_of_mem_chain {c : Formula} (hc : c ∈ f.chain op)
    (hx : x ∈ c.variableNames) : x ∈ f.variableNames := by
  induction f using chain_induction op with
  | single f h =>
    rw [chain_of_operands?_eq_none h, List.mem_singleton] at hc
    rwa [← hc]
  | join l r ihl ihr =>
    rw [chain_binary_self, List.mem_append] at hc
    rw [variableNames, List.mem_append]
    exact hc.imp ihl ihr

/-- The formula with every operand of the chain of `op` at its root replaced by what `φ` makes
of it. -/
def mapChain (op : Connective) (φ : Formula → Formula) : Formula → Formula
  | f@(binary op' l r) => if op' = op then binary op (l.mapChain op φ) (r.mapChain op φ) else φ f
  | f => φ f

/-- How many applications of `op` lie one below the other at the root. -/
def chainHeight (op : Connective) : Formula → Nat
  | binary op' l r => if op' = op then max (l.chainHeight op) (r.chainHeight op) + 1 else 0
  | _ => 0

@[simp] theorem mapChain_binary_self (φ : Formula → Formula) (l r : Formula) :
    (binary op l r).mapChain op φ = binary op (l.mapChain op φ) (r.mapChain op φ) := if_pos rfl

theorem mapChain_of_operands?_eq_none (h : f.operands? op = none) (φ : Formula → Formula) :
    f.mapChain op φ = φ f := by
  cases f with
  | binary => exact if_neg (ne_of_operands?_eq_none h)
  | prop | var | neg | quant => rfl

@[simp] theorem chainHeight_binary_self (l r : Formula) :
    (binary op l r).chainHeight op = max (l.chainHeight op) (r.chainHeight op) + 1 := if_pos rfl

theorem chainHeight_of_operands?_eq_none (h : f.operands? op = none) : f.chainHeight op = 0 := by
  cases f with
  | binary => exact if_neg (ne_of_operands?_eq_none h)
  | prop | var | neg | quant => rfl

/-! ### Joining two chains -/

/-- Two formulas joined by the dual of `outer`, operand by operand of their chains of `outer`. -/
def combined (outer : Connective) (l r : Formula) : Formula :=
  r.mapChain outer fun b => l.mapChain outer fun a => binary outer.dual a b

theorem combined_single {l r : Formula} (hl : l.operands? outer = none)
    (hr : r.operands? outer = none) : l.combined outer r = binary outer.dual l r := by
  rw [combined, mapChain_of_operands?_eq_none hr, mapChain_of_operands?_eq_none hl]

theorem combined_left {a b r : Formula} (hr : r.operands? outer = none) :
    (binary outer a b).combined outer r =
      binary outer (a.combined outer r) (b.combined outer r) := by
  simp only [combined, mapChain_of_operands?_eq_none hr, mapChain_binary_self]

theorem combined_right (l a b : Formula) :
    l.combined outer (binary outer a b) = binary outer (l.combined outer a) (l.combined outer b) :=
  mapChain_binary_self ..

/-- The right chain is taken apart first, and then the left one below each of its operands. -/
theorem combined_induction (outer : Connective) {Q : Formula → Formula → Prop}
    (single : ∀ l r, l.operands? outer = none → r.operands? outer = none → Q l r)
    (left : ∀ a b r, r.operands? outer = none → Q a r → Q b r → Q (binary outer a b) r)
    (right : ∀ l a b, Q l a → Q l b → Q l (binary outer a b)) (l r : Formula) : Q l r := by
  induction r using chain_induction outer with
  | single r hr =>
    induction l using chain_induction outer with
    | single l hl => exact single l r hl hr
    | join a b iha ihb => exact left a b r hr iha ihb
  | join a b iha ihb => exact right l a b iha ihb

/-- Joining takes a level for each application of `outer` on the longest way through both chains. -/
theorem combine_eq (limit n : Nat) (l r : Formula) :
    combine limit outer n l r =
      withLevels limit (l.chainHeight outer + r.chainHeight outer) n (l.combined outer r) := by
  induction l, r using combined_induction outer generalizing n with
  | single l r hl hr =>
    rw [combine, hl, hr]
    simp [chainHeight_of_operands?_eq_none, combined_single, hl, hr]
  | left a b r hr iha ihb =>
    rw [combine, hr, operands?_binary_self]
    cases n with
    | zero => simp [chainHeight_of_operands?_eq_none hr]
    | succ n =>
      simp only [iha, ihb, combined_left hr, chainHeight_binary_self,
        chainHeight_of_operands?_eq_none hr, Nat.add_zero, withLevels_succ_succ]
      exact withLevels_bind (withLevels_bind_pure ..)
  | right l a b iha ihb =>
    rw [combine, operands?_binary_self]
    cases n with
    | zero => simp [← Nat.add_assoc]
    | succ n =>
      simp only [iha, ihb, combined_right, chainHeight_binary_self, ← Nat.add_assoc,
        ← Nat.add_max_add_left, withLevels_succ_succ]
      exact withLevels_bind (withLevels_bind_pure ..)

/-! ### Whole formulas -/

/-- The dual of `outer` distributed over `outer`. -/
def distributed (outer : Connective) : Formula → Formula
  | prop p args => prop p args
  | var x => var x
  | neg f => neg (f.distributed outer)
  | binary op l r =>
    if op = outer.dual then (l.distributed outer).combined outer (r.distributed outer)
    else binary op (l.distributed outer) (r.distributed outer)
  | quant q x f => quant q x (f.distributed outer)

/-- The number of levels that distribution descends. -/
def distributionLevels (outer : Connective) : Formula → Nat
  | prop .. | var _ => 0
  | neg f | quant _ _ f => f.distributionLevels outer + 1
  | binary op l r =>
    max (l.distributionLevels outer) (max (r.distributionLevels outer)
      (if op = outer.dual then
        (l.distributed outer).chainHeight outer + (r.distributed outer).chainHeight outer
      else 0)) + 1

theorem distributeWithin_eq (limit n : Nat) (f : Formula) :
    distributeWithin limit outer n f =
      withLevels limit (f.distributionLevels outer) n (f.distributed outer) := by
  induction f generalizing n with
  | prop | var => simp [distributeWithin, distributionLevels, distributed]
  | neg f ih | quant q x f ih =>
    cases n with
    | zero => simp [distributeWithin, distributionLevels]
    | succ n =>
      simp only [distributeWithin, distributionLevels, distributed, ih, withLevels_succ_succ]
      exact withLevels_bind_pure ..
  | binary op l r ihl ihr =>
    cases n with
    | zero => simp [distributeWithin, distributionLevels]
    | succ n =>
      simp only [distributeWithin, distributionLevels, distributed, ihl, ihr, withLevels_succ_succ]
      refine withLevels_bind (withLevels_bind ?_)
      split
      · exact combine_eq ..
      · exact (withLevels_zero ..).symm

/-! ### Variables -/

/-- Two formulas that are joined bring their variables, and no others come in. -/
theorem mem_variableNames_combined {l r : Formula} (hx : x ∈ (l.combined outer r).variableNames) :
    x ∈ l.variableNames ∨ x ∈ r.variableNames := by
  induction l, r using combined_induction outer with
  | single l r hl hr =>
    rw [combined_single hl hr, variableNames] at hx
    exact List.mem_append.mp hx
  | left a b r hr iha ihb =>
    rw [combined_left hr, variableNames, List.mem_append] at hx
    rw [variableNames, List.mem_append]
    rcases hx with hx | hx
    · exact (iha hx).imp .inl id
    · exact (ihb hx).imp .inr id
  | right l a b iha ihb =>
    rw [combined_right, variableNames, List.mem_append] at hx
    rw [variableNames, List.mem_append]
    rcases hx with hx | hx
    · exact (iha hx).imp id .inl
    · exact (ihb hx).imp id .inr

theorem mem_variableNames_distributed (hx : x ∈ (f.distributed outer).variableNames) :
    x ∈ f.variableNames := by
  induction f with
  | prop | var => exact hx
  | neg f ih => exact ih hx
  | binary op l r ihl ihr =>
    rw [variableNames, List.mem_append]
    rw [distributed] at hx
    split at hx
    · exact (mem_variableNames_combined hx).imp ihl ihr
    · exact (List.mem_append.mp hx).imp ihl ihr
  | quant q y f ih =>
    rcases List.mem_cons.mp hx with rfl | hx
    · exact List.mem_cons_self
    · exact List.mem_cons_of_mem y (ih hx)

/-- Distribution brings in no variable. -/
theorem mem_variableNames_of_distributeWithin {limit n : Nat}
    (h : distributeWithin limit outer n f = .ok g) (hx : x ∈ g.variableNames) :
    x ∈ f.variableNames := by
  rw [distributeWithin_eq, withLevels_eq_ok_iff] at h
  obtain ⟨-, rfl⟩ := h
  exact mem_variableNames_distributed hx

/-- The variables of a clause are those of the formula. -/
theorem mem_variableNames_of_mem_clauses {c : Formula} (hc : c ∈ f.clauses)
    (hx : x ∈ c.variableNames) : x ∈ f.variableNames :=
  mem_variableNames_of_mem_chain hc hx

/-! ### Truth -/

variable {D : Type u} {I : Interpretation D}

/-- Joining two formulas operand by operand joins them. -/
theorem holds_combined (houter : outer = .conj ∨ outer = .disj) (l r : Formula) (e : String → D) :
    (l.combined outer r).Holds I e ↔ outer.dual.Joins (l.Holds I e) (r.Holds I e) := by
  induction l, r using combined_induction outer with
  | single l r hl hr =>
    rw [combined_single hl hr]
    exact Iff.rfl
  | left a b r hr iha ihb =>
    rw [combined_left hr, Holds, Holds, iha, ihb, Connective.joins_joins_dual houter]
  | right l a b iha ihb =>
    rw [combined_right, Holds, Holds, iha, ihb, Connective.joins_dual_joins houter]

theorem holds_distributed (houter : outer = .conj ∨ outer = .disj) (f : Formula) (e : String → D) :
    (f.distributed outer).Holds I e ↔ f.Holds I e := by
  induction f generalizing e with
  | prop | var => exact Iff.rfl
  | neg f ih => exact not_congr (ih e)
  | binary op l r ihl ihr =>
    rw [distributed]
    split
    · -- the dual connective goes below the applications of `outer`
      rename_i hop
      rw [holds_combined houter, Holds, hop]
      exact outer.dual.joins_congr (ihl e) (ihr e)
    · exact op.joins_congr (ihl e) (ihr e)
  | quant q x f ih => exact q.ranges_congr fun d => ih _

/-- Distribution keeps the truth of a formula, whatever else is in it. -/
theorem holds_distributeWithin {limit n : Nat} (h : distributeWithin limit outer n f = .ok g)
    (houter : outer = .conj ∨ outer = .disj) (e : String → D) : g.Holds I e ↔ f.Holds I e := by
  rw [distributeWithin_eq, withLevels_eq_ok_iff] at h
  obtain ⟨-, rfl⟩ := h
  exact holds_distributed houter f e

/-- The clauses of a formula together say what the formula says. -/
theorem forall_clauses_holds_iff (f : Formula) (e : String → D) :
    (∀ c ∈ f.clauses, c.Holds I e) ↔ f.Holds I e := by
  rw [clauses]
  induction f using chain_induction .conj with
  | single f h => rw [chain_of_operands?_eq_none h, List.forall_mem_singleton]
  | join l r ihl ihr =>
    rw [chain_binary_self, List.forall_mem_append, ihl, ihr]
    exact Iff.rfl

end Formula

end ClausalForm
