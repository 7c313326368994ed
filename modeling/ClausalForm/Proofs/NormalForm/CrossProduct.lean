import ClausalForm.Proofs.NormalForm.Junction

/-!
# The clauses of a distributed formula

Distribution multiplies clauses out. The clauses of a conjunction are those of its operands, and the
clauses of a disjunction are all pairs of one clause from each side, the right side being the slower
one. What is neither of the two is a clause by itself, inside of which distribution goes on. The
disjunctive form is the same with both connectives exchanged.

## Main definitions

* `Formula.crossClauses`: the clauses of the distributed formula, from the formula as it was
* `Formula.mirrored`: the formula with conjunctions and disjunctions exchanged

## Main results

* `chain_distributed`: the clauses are the cross product
* `height_le_of_mem_crossClauses`: none of them is higher than the formula
* `isSeparated_distributed`: no application of one connective is left below the other
* `distributeWithin_mirrored`: the two directions of distribution are mirror images
* `clauses_distributeToCnf`: all of this for the pass
-/

namespace ClausalForm

namespace Connective

variable {op op' : Connective}

theorem dual_inj : op.dual = op'.dual ↔ op = op' := by
  constructor
  · intro h
    rw [← dual_dual op, h, dual_dual]
  · intro h
    rw [h]

end Connective

namespace Formula

universe u

variable {op outer : Connective} {f g l r : Formula}

/-! ### The cross product -/

/-- The operands of the chain of `outer` that distribution leaves at the root: those of both sides
below `outer`, all pairs of them below its dual, and elsewhere the formula by itself, with
distribution inside its operands. -/
def crossClauses (outer : Connective) : Formula → List Formula
  | prop p args => [prop p args]
  | var x => [var x]
  | neg f => [neg (f.distributed outer)]
  | binary op l r =>
    if op = outer then l.crossClauses outer ++ r.crossClauses outer
    else if op = outer.dual then
      (r.crossClauses outer).flatMap fun b =>
        (l.crossClauses outer).map fun a => binary outer.dual a b
    else [binary op (l.distributed outer) (r.distributed outer)]
  | quant q x f => [quant q x (f.distributed outer)]

theorem chain_mapChain (φ : Formula → Formula) (f : Formula) :
    (f.mapChain op φ).chain op = (f.chain op).flatMap fun c => (φ c).chain op := by
  induction f using chain_induction op with
  | single f h =>
    rw [mapChain_of_operands?_eq_none h, chain_of_operands?_eq_none h, List.flatMap_singleton]
  | join l r ihl ihr =>
    rw [mapChain_binary_self, chain_binary_self, chain_binary_self, ihl, ihr, List.flatMap_append]

/-- The operands of two chains that are joined are the pairs of their operands. -/
theorem chain_combined (houter : outer = .conj ∨ outer = .disj) (l r : Formula) :
    (l.combined outer r).chain outer =
      (r.chain outer).flatMap fun b => (l.chain outer).map fun a => binary outer.dual a b := by
  rw [combined, chain_mapChain]
  congr 1
  funext b
  rw [chain_mapChain, List.map_eq_flatMap]
  congr 1
  funext a
  exact chain_binary_of_ne (Connective.dual_ne houter) a b

theorem chain_distributed (houter : outer = .conj ∨ outer = .disj) (f : Formula) :
    (f.distributed outer).chain outer = f.crossClauses outer := by
  induction f with
  | prop | var | neg | quant => rfl
  | binary op l r ihl ihr =>
    have hdual := Connective.dual_ne houter
    rw [distributed, crossClauses]
    by_cases hop : op = outer
    · subst hop
      rw [if_neg hdual.symm, if_pos rfl, chain_binary_self, ihl, ihr]
    · rw [if_neg hop]
      split
      · rw [chain_combined houter, ihl, ihr]
      · exact if_neg hop

/-- A clause is no higher than the formula, however high all of them together become. -/
theorem height_le_of_mem_crossClauses (houter : outer = .conj ∨ outer = .disj) (hf : f.IsPlain)
    {c : Formula} (hc : c ∈ f.crossClauses outer) : c.height ≤ f.height := by
  induction f generalizing c with
  | prop | var =>
    rw [List.mem_singleton.mp hc]
  | neg f =>
    -- an atom stands below the negation
    have hatom : f.isAtom := hf.negationNormal
    rw [List.mem_singleton.mp hc]
    cases f with
    | prop | var => exact le_rfl
    | neg | binary | quant => cases hatom
  | binary op l r ihl ihr =>
    rw [crossClauses] at hc
    rw [height]
    split at hc
    · rcases List.mem_append.mp hc with hc | hc
      · have hle := ihl hf.left hc
        omega
      · have hle := ihr hf.right hc
        omega
    · rename_i hop
      have hdual : op = outer.dual := by
        by_contra hne
        exact hop (Connective.eq_of_ne_dual houter hf.op_eq hne)
      rw [if_pos hdual] at hc
      obtain ⟨b, hb, hc⟩ := List.mem_flatMap.mp hc
      obtain ⟨a, ha, rfl⟩ := List.mem_map.mp hc
      have hleft := ihl hf.left ha
      have hright := ihr hf.right hb
      rw [height]
      omega
  | quant => cases hf.quantifierFree

/-! ### Where the connectives stand -/

theorem mem_subformulas_of_mem_chain {c : Formula} (hc : c ∈ f.chain op) (hg : g ∈ c.subformulas) :
    g ∈ f.subformulas := by
  induction f using chain_induction op with
  | single f h =>
    rw [chain_of_operands?_eq_none h, List.mem_singleton] at hc
    rwa [← hc]
  | join l r ihl ihr =>
    rw [chain_binary_self, List.mem_append] at hc
    rw [subformulas, List.mem_cons, List.mem_append]
    exact .inr (hc.imp ihl ihr)

theorem isApplicationOf_of_operands?_eq_none (h : f.operands? op = none) :
    f.isApplicationOf op = false := by
  cases f with
  | binary => exact beq_false_of_ne (ne_of_operands?_eq_none h)
  | prop | var | neg | quant => rfl

theorem isApplicationOf_of_mem_chain {c : Formula} (hc : c ∈ f.chain op) :
    c.isApplicationOf op = false := by
  induction f using chain_induction op with
  | single f h =>
    rw [chain_of_operands?_eq_none h, List.mem_singleton] at hc
    rw [hc]
    exact isApplicationOf_of_operands?_eq_none h
  | join l r ihl ihr =>
    rw [chain_binary_self, List.mem_append] at hc
    exact hc.elim ihl ihr

/-- What is in a changed chain is an application of its connective, or in what an operand became. -/
theorem mem_subformulas_mapChain {φ : Formula → Formula} (hg : g ∈ (f.mapChain op φ).subformulas) :
    (∃ a b, g = binary op a b) ∨ ∃ c ∈ f.chain op, g ∈ (φ c).subformulas := by
  induction f using chain_induction op with
  | single f h =>
    rw [mapChain_of_operands?_eq_none h] at hg
    rw [chain_of_operands?_eq_none h]
    exact .inr ⟨f, List.mem_singleton_self f, hg⟩
  | join l r ihl ihr =>
    rw [mapChain_binary_self, subformulas, List.mem_cons, List.mem_append] at hg
    rw [chain_binary_self]
    rcases hg with rfl | hg | hg
    · exact .inl ⟨_, _, rfl⟩
    · refine (ihl hg).imp_right ?_
      rintro ⟨c, hc, hg⟩
      exact ⟨c, List.mem_append_left _ hc, hg⟩
    · refine (ihr hg).imp_right ?_
      rintro ⟨c, hc, hg⟩
      exact ⟨c, List.mem_append_right _ hc, hg⟩

/-- No application of the dual of `outer` in the formula has one of `outer` as an operand. -/
def IsSeparated (outer : Connective) (f : Formula) : Prop :=
  ∀ a b, binary outer.dual a b ∈ f.subformulas →
    a.isApplicationOf outer = false ∧ b.isApplicationOf outer = false

theorem isSeparated_combined (houter : outer = .conj ∨ outer = .disj) (hl : l.IsSeparated outer)
    (hr : r.IsSeparated outer) : (l.combined outer r).IsSeparated outer := by
  have hdual := Connective.dual_ne houter
  have hnot (a b c d : Formula) : binary outer.dual a b ≠ binary outer c d := by
    intro h
    exact hdual (by injection h)
  intro a b hab
  obtain ⟨c, d, h⟩ | ⟨d, hd, hab⟩ := mem_subformulas_mapChain hab
  · exact absurd h (hnot a b c d)
  obtain ⟨c, d', h⟩ | ⟨c, hc, hab⟩ := mem_subformulas_mapChain hab
  · exact absurd h (hnot a b c d')
  -- the application joins two operands of the chains, or is inside one of them
  rw [subformulas, List.mem_cons, List.mem_append] at hab
  rcases hab with h | hab | hab
  · obtain ⟨-, rfl, rfl⟩ := binary.inj h
    exact ⟨isApplicationOf_of_mem_chain hc, isApplicationOf_of_mem_chain hd⟩
  · exact hl a b (mem_subformulas_of_mem_chain hc hab)
  · exact hr a b (mem_subformulas_of_mem_chain hd hab)

theorem isSeparated_distributed (houter : outer = .conj ∨ outer = .disj) (f : Formula) :
    (f.distributed outer).IsSeparated outer := by
  induction f with
  | prop | var =>
    intro a b hab
    cases List.mem_singleton.mp hab
  | neg f ih | quant q x f ih =>
    intro a b hab
    rcases List.mem_cons.mp hab with hab | hab
    · cases hab
    · exact ih a b hab
  | binary op l r ihl ihr =>
    rw [distributed]
    split
    · exact isSeparated_combined houter ihl ihr
    · rename_i hop
      intro a b hab
      rw [subformulas, List.mem_cons, List.mem_append] at hab
      rcases hab with h | hab | hab
      · exact absurd (binary.inj h).1.symm hop
      · exact ihl a b hab
      · exact ihr a b hab

/-! ### The mirror image -/

/-- The formula with conjunctions and disjunctions exchanged. -/
def mirrored : Formula → Formula
  | prop p args => prop p args
  | var x => var x
  | neg f => neg f.mirrored
  | binary op l r => binary op.dual l.mirrored r.mirrored
  | quant q x f => quant q x f.mirrored

@[simp] theorem mirrored_mirrored (f : Formula) : f.mirrored.mirrored = f := by
  induction f with
  | prop | var => rfl
  | neg f ih | quant q x f ih => rw [mirrored, mirrored, ih]
  | binary op l r ihl ihr => rw [mirrored, mirrored, ihl, ihr, Connective.dual_dual]

theorem operands?_mirrored_eq_none (h : f.operands? op = none) :
    f.mirrored.operands? op.dual = none := by
  cases f with
  | binary op' l r =>
    refine if_neg fun hop => ?_
    exact ne_of_operands?_eq_none h (Connective.dual_inj.mp hop)
  | prop | var | neg | quant => rfl

theorem combined_mirrored (l r : Formula) :
    l.mirrored.combined outer.dual r.mirrored = (l.combined outer r).mirrored := by
  induction l, r using combined_induction outer with
  | single l r hl hr =>
    rw [combined_single hl hr, mirrored,
      combined_single (operands?_mirrored_eq_none hl) (operands?_mirrored_eq_none hr)]
  | left a b r hr iha ihb =>
    rw [combined_left hr, mirrored, mirrored, combined_left (operands?_mirrored_eq_none hr), iha,
      ihb]
  | right l a b iha ihb => rw [combined_right, mirrored, mirrored, combined_right, iha, ihb]

theorem chainHeight_mirrored (f : Formula) :
    f.mirrored.chainHeight op.dual = f.chainHeight op := by
  induction f using chain_induction op with
  | single f h =>
    rw [chainHeight_of_operands?_eq_none h,
      chainHeight_of_operands?_eq_none (operands?_mirrored_eq_none h)]
  | join l r ihl ihr => rw [mirrored, chainHeight_binary_self, chainHeight_binary_self, ihl, ihr]

theorem distributed_mirrored (f : Formula) :
    f.mirrored.distributed outer.dual = (f.distributed outer).mirrored := by
  induction f with
  | prop | var => rfl
  | neg f ih | quant q x f ih => rw [mirrored, distributed, distributed, ih, mirrored]
  | binary op l r ihl ihr =>
    simp only [mirrored, distributed, ihl, ihr, Connective.dual_inj]
    split
    · exact combined_mirrored ..
    · rfl

theorem distributionLevels_mirrored (f : Formula) :
    f.mirrored.distributionLevels outer.dual = f.distributionLevels outer := by
  induction f with
  | prop | var => rfl
  | neg f ih | quant q x f ih => rw [mirrored, distributionLevels, distributionLevels, ih]
  | binary op l r ihl ihr =>
    simp only [mirrored, distributionLevels, distributed_mirrored, chainHeight_mirrored,
      Connective.dual_inj, ihl, ihr]

/-- The two directions of distribution are mirror images, also where they fail. -/
theorem distributeWithin_mirrored (outer : Connective) (limit n : Nat) (f : Formula) :
    distributeWithin limit outer.dual n f.mirrored =
      (distributeWithin limit outer n f).map mirrored := by
  rw [distributeWithin_eq, distributeWithin_eq, withLevels_map, distributionLevels_mirrored,
    distributed_mirrored]

/-! ### The pass -/

/-- What distributing disjunctions over conjunctions makes of any formula: it says the same, no
disjunction in it has a conjunction as an operand, and its clauses are the cross product.
Distributing conjunctions over disjunctions is the mirror image, failures included. -/
theorem clauses_distributeToCnf (limits : Limits) (f : Formula) :
    (∀ g, f.distributeToCnf limits = .ok g →
      (∀ {D : Type u} (I : Interpretation D) (e : String → D), g.Holds I e ↔ f.Holds I e) ∧
        (∀ l r, binary .disj l r ∈ g.subformulas →
          l.isApplicationOf .conj = false ∧ r.isApplicationOf .conj = false) ∧
        g = f.distributed .conj ∧ g.clauses = f.crossClauses .conj) ∧
      f.distributeToDnf limits = (f.mirrored.distributeToCnf limits).map mirrored := by
  constructor
  · intro g hg
    rw [distributeToCnf, distributeWithin_eq, withLevels_eq_ok_iff] at hg
    obtain ⟨-, rfl⟩ := hg
    have hseparated : (f.distributed .conj).IsSeparated .conj :=
      isSeparated_distributed (.inl rfl) f
    exact ⟨fun I e => holds_distributed (.inl rfl) f e, hseparated, rfl,
      chain_distributed (.inl rfl) f⟩
  · have hmirror := distributeWithin_mirrored .conj limits.depth limits.depth f.mirrored
    rw [mirrored_mirrored] at hmirror
    exact hmirror

/-- A disjunction of two conjunctions, the second one of a quantifier and of a negated implication,
inside of which there is a disjunction to distribute as well. -/
theorem clauses_distributeToCnf_nested :
    let a := prop "A" []
    let b := prop "B" []
    let p := prop "P" [.var "x"]
    let f := binary .disj (binary .conj a b)
      (binary .conj (quant .universal "x" (binary .disj p (binary .conj a b)))
        (neg (binary .implies p (binary .disj (binary .conj a b) p))))
    let c := quant .universal "x" (binary .conj (binary .disj p a) (binary .disj p b))
    let d := neg (binary .implies p (binary .conj (binary .disj a p) (binary .disj b p)))
    let I : Interpretation Bool := ⟨fun _ _ => true, fun s ds => s = "A" ∨ ds = [true], (· = true)⟩
    ∃ g, f.distributeToCnf {} = .ok g ∧ (∀ e, g.Holds I e ↔ f.Holds I e) ∧
      g.clauses = [binary .disj a c, binary .disj b c, binary .disj a d, binary .disj b d] ∧
      f.mirrored.distributeToDnf {} = .ok g.mirrored := by
  intro a b p f c d I
  have hrun : f.distributeToCnf {} = .ok (f.distributed .conj) := rfl
  obtain ⟨hcnf, -⟩ := clauses_distributeToCnf {} f
  obtain ⟨hholds, -, -, hclauses⟩ := hcnf _ hrun
  obtain ⟨-, hmirror⟩ := clauses_distributeToCnf.{0} {} f.mirrored
  refine ⟨_, hrun, hholds I, hclauses, ?_⟩
  rw [hmirror, mirrored_mirrored, hrun]
  rfl

end Formula

end ClausalForm
