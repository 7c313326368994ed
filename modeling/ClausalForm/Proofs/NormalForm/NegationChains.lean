import ClausalForm.Proofs.NormalForm.Negation
import Mathlib.Algebra.Ring.Parity

/-!
# Chains of negations

A formula is made of atoms, connectives, quantifiers, and chains of negations, which go down as far
as a formula that is no negation. Collapsing takes each of these chains as a whole: what is left of
it is one negation or none, by its length, and it takes one level, whatever its length.

## Main definitions

* `Formula.Collapses`: a formula with every chain of negations collapsed by its length
* `Formula.heightByChains`: the height of a formula in which a chain counts as one level

## Main results

* `negationChain_induction`: induction over the chains of negations in a formula
* `Collapses.removeDoubleNegationWithin_eq`: the pass collapses all chains
* `removeDoubleNegationWithin_eq_self`: without a chain there is nothing to collapse
* `collapses_removeDoubleNegation`: what the pass answers, and when it does
-/

namespace ClausalForm.Formula

universe u

/-! ### Chains -/

section Chains

variable {n : Nat} {f core : Formula}

theorem isNegation_iterate_neg_succ (n : Nat) (f : Formula) : (neg^[n + 1] f).isNegation := by
  rw [Function.iterate_succ_apply']
  rfl

/-- Only a chain without negations is no negation. -/
theorem eq_zero_of_isNegation_iterate_neg (h : (neg^[n] f).isNegation = false) : n = 0 := by
  cases n with
  | zero => rfl
  | succ n =>
    rw [isNegation_iterate_neg_succ] at h
    cases h

/-- Induction over a formula that takes every chain of negations as a whole, down to a formula that
is no negation. -/
theorem negationChain_induction {Q : Formula → Prop} (prop : ∀ p args, Q (prop p args))
    (var : ∀ x, Q (var x))
    (chain : ∀ n core, core.isNegation = false → Q core → Q (neg^[n + 1] core))
    (binary : ∀ op l r, Q l → Q r → Q (binary op l r))
    (quant : ∀ q x f, Q f → Q (quant q x f)) (f : Formula) : Q f := by
  -- below a negation it must be known which chain it is part of
  suffices h : Q f ∧ ∃ n core, core.isNegation = false ∧ Q core ∧ f = neg^[n] core from h.1
  induction f with
  | prop p args => exact ⟨prop p args, 0, _, rfl, prop p args, rfl⟩
  | var x => exact ⟨var x, 0, _, rfl, var x, rfl⟩
  | neg f ih =>
    obtain ⟨-, n, core, hcore, hQ, rfl⟩ := ih
    have hchain : neg (neg^[n] core) = neg^[n + 1] core := (Function.iterate_succ_apply' ..).symm
    exact ⟨hchain ▸ chain n core hcore hQ, n + 1, core, hcore, hQ, hchain⟩
  | binary op l r ihl ihr =>
    have hQ := binary op l r ihl.1 ihr.1
    exact ⟨hQ, 0, _, rfl, hQ, rfl⟩
  | quant q x f ih =>
    have hQ := quant q x f ih.1
    exact ⟨hQ, 0, _, rfl, hQ, rfl⟩

theorem stripNegations_of_isNegation_eq_false (h : f.isNegation = false) (negated : Bool) :
    f.stripNegations negated = (negated, f) := by
  cases f with
  | neg => cases h
  | prop | var | binary | quant => rfl

theorem stripNegations_iterate_neg (hcore : core.isNegation = false) (n : Nat) (negated : Bool) :
    (neg^[n] core).stripNegations negated = (Bool.not^[n] negated, core) := by
  induction n generalizing negated with
  | zero => exact stripNegations_of_isNegation_eq_false hcore negated
  | succ n ih =>
    rw [Function.iterate_succ_apply', stripNegations, ih, Function.iterate_succ_apply]

/-- An even number of negations keeps the truth of a formula, and an odd number turns it over. -/
theorem holds_iterate_neg {D : Type u} {I : Interpretation D} (n : Nat) (e : String → D) :
    (neg^[n] f).Holds I e ↔ (Even n ↔ f.Holds I e) := by
  induction n with
  | zero => simp
  | succ n ih => rw [Function.iterate_succ_apply', Holds, ih, Nat.even_add_one, not_iff]

end Chains

/-! ### Collapsed formulas -/

/-- The second formula is the first one with every chain of negations collapsed: down to a formula
that is no negation, an odd number of negations becomes one, and an even number none. -/
inductive Collapses : Formula → Formula → Prop
  | prop (p : String) (args : List Term) : Collapses (prop p args) (prop p args)
  | var (x : String) : Collapses (var x) (var x)
  | oddChain {n : Nat} {core g : Formula} (hn : Odd n) (hcore : core.isNegation = false)
    (h : Collapses core g) : Collapses (neg^[n] core) (neg g)
  | evenChain {n : Nat} {core g : Formula} (hn : Even n) (hcore : core.isNegation = false)
    (h : Collapses core g) : Collapses (neg^[n] core) g
  | binary (op : Connective) {l l' r r' : Formula} (hl : Collapses l l') (hr : Collapses r r') :
    Collapses (binary op l r) (binary op l' r')
  | quant (q : Quantifier) (x : String) {f g : Formula} (h : Collapses f g) :
    Collapses (quant q x f) (quant q x g)

/-- The number of nodes above the deepest atom, where a chain of negations counts as one. -/
def heightByChains : Formula → Nat
  | prop .. | var _ => 0
  | neg f => if f.isNegation then f.heightByChains else f.heightByChains + 1
  | binary _ l r => max l.heightByChains r.heightByChains + 1
  | quant _ _ f => f.heightByChains + 1

/-- A chain takes one level, however long it is. -/
theorem heightByChains_iterate_neg (n : Nat) (f : Formula) :
    (neg^[n + 1] f).heightByChains = (neg f).heightByChains := by
  induction n with
  | zero => rfl
  | succ n ih =>
    rw [Function.iterate_succ_apply', heightByChains, if_pos (isNegation_iterate_neg_succ n f), ih]

theorem heightByChains_chain {core : Formula} (hcore : core.isNegation = false) (n : Nat) :
    (neg^[n + 1] core).heightByChains = core.heightByChains + 1 := by
  rw [heightByChains_iterate_neg, heightByChains, hcore]
  rfl

/-- Every formula can be collapsed. -/
theorem exists_collapses (f : Formula) : ∃ g, f.Collapses g := by
  induction f using negationChain_induction with
  | prop p args => exact ⟨_, .prop p args⟩
  | var x => exact ⟨_, .var x⟩
  | chain n core hcore ih =>
    obtain ⟨g, hg⟩ := ih
    rcases Nat.even_or_odd (n + 1) with hn | hn
    · exact ⟨g, .evenChain hn hcore hg⟩
    · exact ⟨neg g, .oddChain hn hcore hg⟩
  | binary op l r ihl ihr =>
    obtain ⟨l', hl⟩ := ihl
    obtain ⟨r', hr⟩ := ihr
    exact ⟨_, .binary op hl hr⟩
  | quant q x f ih =>
    obtain ⟨g, hg⟩ := ih
    exact ⟨_, .quant q x hg⟩

/-- A chain is taken in one step: its negations are counted, and the pass goes on below them. -/
theorem removeDoubleNegationWithin_chain {core g : Formula} {limit : Nat}
    (hcore : core.isNegation = false)
    (h : ∀ n, removeDoubleNegationWithin limit n core = withLevels limit core.heightByChains n g)
    (k n : Nat) :
    removeDoubleNegationWithin limit n (neg^[k + 1] core) =
      withLevels limit (neg^[k + 1] core).heightByChains n (negateIf (decide (Odd (k + 1))) g) := by
  -- one negation is taken for granted, and the others turn it over
  have hparity : Bool.not^[k] true = decide (Odd (k + 1)) := by
    rcases Nat.even_or_odd k with hk | hk
    · simp [Bool.involutive_not.iterate_even hk, hk.add_one]
    · simp [Bool.involutive_not.iterate_odd hk, hk]
  rw [heightByChains_chain hcore, Function.iterate_succ_apply']
  cases n with
  | zero => simp [removeDoubleNegationWithin]
  | succ n =>
    simp only [removeDoubleNegationWithin, stripNegations_iterate_neg hcore, hparity, h,
      withLevels_succ_succ]
    exact withLevels_bind_pure ..

namespace Collapses

variable {f g g' : Formula}

/-- The pass collapses all chains, if there are levels enough. -/
theorem removeDoubleNegationWithin_eq (h : f.Collapses g) (limit n : Nat) :
    removeDoubleNegationWithin limit n f = withLevels limit f.heightByChains n g := by
  induction h generalizing n with
  | prop | var => simp [removeDoubleNegationWithin, heightByChains]
  | oddChain hk hcore _ ih =>
    obtain ⟨k, rfl⟩ := hk
    rw [removeDoubleNegationWithin_chain hcore ih, decide_eq_true (odd_two_mul_add_one k)]
    rfl
  | @evenChain k core g hk hcore _ ih =>
    cases k with
    | zero =>
      -- there is no negation to count
      exact ih n
    | succ k =>
      rw [removeDoubleNegationWithin_chain hcore ih, decide_eq_false (Nat.not_odd_iff_even.mpr hk)]
      rfl
  | binary op _ _ ihl ihr =>
    cases n with
    | zero => simp [removeDoubleNegationWithin, heightByChains]
    | succ n =>
      simp only [removeDoubleNegationWithin, heightByChains, ihl, ihr, withLevels_succ_succ]
      exact withLevels_bind (withLevels_bind_pure ..)
  | quant q x _ ih =>
    cases n with
    | zero => simp [removeDoubleNegationWithin, heightByChains]
    | succ n =>
      simp only [removeDoubleNegationWithin, heightByChains, ih, withLevels_succ_succ]
      exact withLevels_bind_pure ..

/-- There is one way only to collapse a formula. -/
theorem unique (h : f.Collapses g) (h' : f.Collapses g') : g' = g := by
  have hsame := (h'.removeDoubleNegationWithin_eq f.heightByChains f.heightByChains).symm.trans
    (h.removeDoubleNegationWithin_eq f.heightByChains f.heightByChains)
  simpa [withLevels] using hsame

/-- Collapsing keeps the truth of a formula. -/
theorem holds_iff {D : Type u} {I : Interpretation D} (h : f.Collapses g) (e : String → D) :
    g.Holds I e ↔ f.Holds I e := by
  induction h generalizing e with
  | prop | var => exact Iff.rfl
  | oddChain hn _ _ ih =>
    rw [holds_iterate_neg, iff_false_left (Nat.not_even_iff_odd.mpr hn), Holds, ih]
  | evenChain hn _ _ ih => rw [holds_iterate_neg, iff_true_left hn, ih]
  | binary op _ _ ihl ihr => exact op.joins_congr (ihl e) (ihr e)
  | quant q x _ ih => exact q.ranges_congr fun d => ih _

/-- No negation is left on another one, and nothing becomes a negation that was none. -/
theorem isNegation_eq_false (h : f.Collapses g) :
    (f.isNegation = false → g.isNegation = false) ∧
      ∀ a, neg a ∈ g.subformulas → a.isNegation = false := by
  induction h with
  | prop | var =>
    refine ⟨fun _ => rfl, fun a ha => ?_⟩
    exact absurd ha (neg_not_mem_subformulas_of_isAtom rfl)
  | oddChain hn hcore _ ih =>
    obtain ⟨k, rfl⟩ := hn
    refine ⟨fun hf => ?_, fun a ha => ?_⟩
    · cases eq_zero_of_isNegation_iterate_neg hf
    · rcases neg_mem_subformulas_neg.mp ha with rfl | ha
      · exact ih.1 hcore
      · exact ih.2 a ha
  | evenChain _ hcore _ ih => exact ⟨fun _ => ih.1 hcore, ih.2⟩
  | binary op _ _ ihl ihr =>
    refine ⟨fun _ => rfl, fun a ha => ?_⟩
    exact (neg_mem_subformulas_binary.mp ha).elim (ihl.2 a) (ihr.2 a)
  | quant q x _ ih => exact ⟨fun _ => rfl, fun a ha => ih.2 a (neg_mem_subformulas_quant.mp ha)⟩

/-- The levels that were enough for the pass are enough for what it answers. -/
theorem height_le (h : f.Collapses g) : g.height ≤ f.heightByChains := by
  induction h with
  | prop | var => exact Nat.le_refl 0
  | oddChain hn hcore _ ih =>
    obtain ⟨k, rfl⟩ := hn
    rw [heightByChains_chain hcore]
    exact Nat.succ_le_succ ih
  | @evenChain n core g _ hcore _ ih =>
    cases n with
    | zero => exact ih
    | succ n =>
      rw [heightByChains_chain hcore]
      exact Nat.le_succ_of_le ih
  | binary op _ _ ihl ihr =>
    simp only [height, heightByChains]
    omega
  | quant q x _ ih => exact Nat.succ_le_succ ih

end Collapses

/-- A formula in which no negation stands on another one is collapsed, and its negations are chains
of one. -/
theorem collapses_self {f : Formula} (h : ∀ a, neg a ∈ f.subformulas → a.isNegation = false) :
    f.Collapses f ∧ f.heightByChains = f.height := by
  induction f with
  | prop p args => exact ⟨.prop p args, rfl⟩
  | var x => exact ⟨.var x, rfl⟩
  | neg f ih =>
    have hf : f.isNegation = false := h f (neg_mem_subformulas_neg.mpr (.inl rfl))
    obtain ⟨hself, hheight⟩ := ih fun a ha => h a (neg_mem_subformulas_neg.mpr (.inr ha))
    refine ⟨.oddChain (n := 1) odd_one hf hself, ?_⟩
    rw [heightByChains, hf, height, hheight]
    rfl
  | binary op l r ihl ihr =>
    obtain ⟨hl, hheightl⟩ := ihl fun a ha => h a (neg_mem_subformulas_binary.mpr (.inl ha))
    obtain ⟨hr, hheightr⟩ := ihr fun a ha => h a (neg_mem_subformulas_binary.mpr (.inr ha))
    exact ⟨.binary op hl hr, by rw [heightByChains, height, hheightl, hheightr]⟩
  | quant q x f ih =>
    obtain ⟨hself, hheight⟩ := ih fun a ha => h a (neg_mem_subformulas_quant.mpr ha)
    exact ⟨.quant q x hself, by rw [heightByChains, height, hheight]⟩

/-- A formula in which no negation stands on another one has no chain to collapse. -/
theorem removeDoubleNegationWithin_eq_self {f : Formula}
    (h : ∀ a, neg a ∈ f.subformulas → a.isNegation = false) (limit n : Nat) :
    removeDoubleNegationWithin limit n f = withLevels limit f.height n f := by
  obtain ⟨hself, hheight⟩ := collapses_self h
  rw [hself.removeDoubleNegationWithin_eq, hheight]

/-- What collapsing chains of negations makes of a formula. An answer says the same, has no
negation on another one, and is the formula with its chains collapsed, in the one way that there
is; the pass leaves it as it is. The limit is reached exactly by a formula that is too high even
where its chains count as one level each, and a chain in front of a formula takes one level of its
own, however long it is. -/
theorem collapses_removeDoubleNegation (limits : Limits) (f : Formula) :
    (∀ g, f.removeDoubleNegation limits = .ok g →
      (∀ {D : Type u} (I : Interpretation D) (e : String → D), g.Holds I e ↔ f.Holds I e) ∧
        (∀ a, neg a ∈ g.subformulas → a.isNegation = false) ∧
        f.Collapses g ∧ (∀ g', f.Collapses g' → g' = g) ∧
        g.removeDoubleNegation limits = .ok g) ∧
      IsLimited limits.depth (f.removeDoubleNegation limits) (limits.depth < f.heightByChains) ∧
      ∀ n, IsLimited limits.depth ((neg^[n + 1] f).removeDoubleNegation limits)
        (limits.depth < (neg f).heightByChains) := by
  have hlimited (f : Formula) : IsLimited limits.depth (f.removeDoubleNegation limits)
      (limits.depth < f.heightByChains) := by
    obtain ⟨g, hg⟩ := exists_collapses f
    rw [removeDoubleNegation, hg.removeDoubleNegationWithin_eq]
    exact isLimited_withLevels Iff.rfl g
  refine ⟨fun g hg => ?_, hlimited f, fun n => ?_⟩
  · obtain ⟨g', hcollapses⟩ := exists_collapses f
    rw [removeDoubleNegation, hcollapses.removeDoubleNegationWithin_eq, withLevels_eq_ok_iff] at hg
    obtain ⟨hlevels, rfl⟩ := hg
    refine ⟨fun I e => hcollapses.holds_iff e, hcollapses.isNegation_eq_false.2, hcollapses,
      fun g' => hcollapses.unique, ?_⟩
    rw [removeDoubleNegation, removeDoubleNegationWithin_eq_self hcollapses.isNegation_eq_false.2,
      withLevels_eq_ok_iff]
    exact ⟨Nat.le_trans hcollapses.height_le hlevels, rfl⟩
  · rw [← heightByChains_iterate_neg n f]
    exact hlimited _

/-- Chains of one, two, three and four negations in a formula that takes five levels, also below a
thousand more negations. -/
theorem collapses_removeDoubleNegation_mixed :
    let p := prop "P" [.var "x"]
    let f := neg (quant .universal "x" (neg (neg (neg (neg (binary .disj (neg (neg (neg p)))
      (neg (neg (var "x")))))))))
    let g := neg (quant .universal "x" (binary .disj (neg p) (var "x")))
    f.removeDoubleNegation { depth := 5 } = .ok g ∧ f.Collapses g ∧
      (∀ (I : Interpretation Bool) (e : String → Bool), g.Holds I e ↔ f.Holds I e) ∧
      g.removeDoubleNegation { depth := 5 } = .ok g ∧
      f.removeDoubleNegation { depth := 4 } = .error (.recursionLimit 4) ∧
      ∃ g', (neg^[1000] f).removeDoubleNegation { depth := 5 } = .ok g' := by
  intro p f g
  have hrun : f.removeDoubleNegation { depth := 5 } = .ok g := rfl
  obtain ⟨hok, -, hchain⟩ := collapses_removeDoubleNegation { depth := 5 } f
  obtain ⟨-, hlimited, -⟩ := collapses_removeDoubleNegation.{0} { depth := 4 } f
  obtain ⟨hholds, -, hcollapses, -, hself⟩ := hok g hrun
  exact ⟨hrun, hcollapses, hholds, hself, hlimited.error_iff.mpr (Nat.lt_succ_self 4),
    (hchain 999).exists_ok (Nat.lt_irrefl 5)⟩

end ClausalForm.Formula
