import ClausalForm.Proofs.NormalForm.ImplicationFree
import ClausalForm.Proofs.Program.Chains
import Mathlib.Tactic.Ring

/-!
# The height of statements

Every negation, quantifier, parenthesis and right operand takes a nesting level while it is read,
and so does every connective that is joined. But the levels that the left operand took are free
again when a connective is joined to it, and the height of the left operand is not. So the limit on
the levels bounds the height of the statements in which no left operand is higher than the right
one, but not that of all statements. What bounds it grows with the square of the limit, and there is
a statement of that height for every limit.

## Main definitions

* `tallest`: the height that the nesting levels allow
* `Formula.LeansRight`: no left operand is higher than the right one
* `tower`: the formula of this height

## Main results

* `Reading.heightWithin`: what is read with some levels is no higher than they allow
* `Reading.readsExpression_tower`: the tower is read with as many levels
* `Program.height_le_tallest`: the statements of a program
* `Program.height_gt_limit`: a statement that is higher than the limit
-/

namespace ClausalForm

/-! ### Heights -/

/-- The height of the highest statement that is read with `n` nesting levels. -/
def tallest (n : Nat) : Nat :=
  if n = 0 then 0 else n * (n + 1) / 2 + 1

/-- The height of the highest primary that is read with `n` nesting levels: a tower of negations, or
an expression in parentheses. -/
def tallestPrimary : Nat → Nat
  | 0 => 0
  | n + 1 => max (n + 1) (tallest n)

theorem tallest_succ_succ (n : Nat) : tallest (n + 2) = tallest (n + 1) + (n + 2) := by
  have hproduct : (n + 2) * (n + 2 + 1) = (n + 1) * (n + 1 + 1) + (n + 2) * 2 := by ring
  rw [tallest, tallest, if_neg (by omega), if_neg (by omega), hproduct,
    Nat.add_mul_div_right _ _ (by decide)]
  omega

/-- One level more allows the formula to be joined once more. -/
theorem tallest_add_le (n : Nat) : tallest n + (n + 1) ≤ tallest (n + 1) := by
  cases n with
  | zero => decide
  | succ n => exact (tallest_succ_succ n).ge

theorem two_mul_le_tallest (n : Nat) : 2 * n ≤ tallest n := by
  induction n with
  | zero => decide
  | succ n ih =>
    cases n with
    | zero => decide
    | succ n =>
      rw [tallest_succ_succ]
      omega

/-- A primary to which all levels are spent on joining is as high as any expression. -/
theorem tallestPrimary_add_le (n : Nat) : tallestPrimary n + n ≤ tallest n := by
  cases n with
  | zero => decide
  | succ n =>
    have hjoin := tallest_add_le n
    have hnegations := two_mul_le_tallest (n + 1)
    rw [tallestPrimary]
    omega

theorem tallestPrimary_lt (n : Nat) : tallestPrimary n + 1 ≤ tallestPrimary (n + 1) := by
  cases n with
  | zero => decide
  | succ n =>
    have hjoin := tallest_add_le n
    rw [tallestPrimary, tallestPrimary]
    omega

/-- No left operand of a connective is higher than the right one. -/
def Formula.LeansRight : Formula → Prop
  | prop .. | var _ => True
  | neg f | quant _ _ f => f.LeansRight
  | binary _ l r => l.LeansRight ∧ r.LeansRight ∧ l.height ≤ r.height

/-- The formula is no higher than `bound`, and no higher than `n` if it leans to the right. -/
structure Formula.Fits (bound n : Nat) (f : Formula) : Prop where
  height_le : f.height ≤ bound
  height_le_of_leansRight : f.LeansRight → f.height ≤ n

namespace Formula.Fits

variable {bound bound' n n' : Nat} {f : Formula}

theorem mono (h : f.Fits bound n) (hbound : bound ≤ bound') (hn : n ≤ n') : f.Fits bound' n' :=
  ⟨h.height_le.trans hbound, fun hleans => (h.height_le_of_leansRight hleans).trans hn⟩

theorem neg (h : f.Fits bound n) : (neg f).Fits (bound + 1) (n + 1) :=
  ⟨Nat.succ_le_succ h.height_le, fun hleans => Nat.succ_le_succ (h.height_le_of_leansRight hleans)⟩

theorem quant (h : f.Fits bound n) (q : Quantifier) (x : String) :
    (quant q x f).Fits (bound + 1) (n + 1) :=
  ⟨Nat.succ_le_succ h.height_le, fun hleans => Nat.succ_le_succ (h.height_le_of_leansRight hleans)⟩

end Formula.Fits

namespace Reading

/-- The formula of the reply, if there is one, has the property. -/
def Reply.All (P : Formula → Prop) : Reply → Prop
  | formula f _ _ => P f
  | nothing .. | fault .. => True

namespace Reply.All

variable {P Q : Formula → Prop} {r : Reply}

theorem imp (hr : r.All P) (h : ∀ f, P f → Q f) : r.All Q := by
  cases r with
  | formula f => exact h f hr
  | nothing | fault => trivial

theorem and (hP : r.All P) (hQ : r.All Q) : r.All fun f => P f ∧ Q f := by
  cases r with
  | formula => exact ⟨hP, hQ⟩
  | nothing | fault => trivial

theorem after (hr : r.All P) (ds : List Diagnostic) : (r.after ds).All P := by
  cases r <;> exact hr

theorem andThen {next : Formula → List Located → Reply} (hr : r.All P)
    (hnext : ∀ f rest, P f → (next f rest).All Q) : (r.andThen next).All Q := by
  cases r with
  | formula f rest passed => exact (hnext f rest hr).after passed
  | nothing | fault => trivial

theorem operand {build : Formula → Formula} (hr : r.All P) (hbuild : ∀ f, P f → Q (build f))
    (c : Command) (offset : Nat) : (r.operand c offset build).All Q := by
  cases r with
  | formula f => exact hbuild f hr
  | nothing | fault => trivial

theorem closed (hr : r.All P) (offset : Nat) : (r.closed offset).All P := by
  unfold Reply.closed
  split <;> exact hr

end Reply.All

/-- What is read with `n` levels is no higher than these allow. -/
structure HeightWithin (limit last n : Nat) : Prop where
  primary : ∀ ts, (primary limit last n ts).All (Formula.Fits (tallestPrimary n) n)
  connectives : ∀ strength left ts, (connectives limit last n strength left ts).All fun f =>
    f.Fits (max (left.height + n) (tallest n)) (max left.height n) ∧
      (f.LeansRight → left.LeansRight)

variable {limit last n : Nat}

theorem HeightWithin.expression (h : HeightWithin limit last n) (strength : Nat)
    (ts : List Located) :
    (expression limit last n strength ts).All (Formula.Fits (tallest n) n) := by
  refine (h.primary ts).andThen fun f rest hf => (h.connectives strength f rest).imp fun g hg => ?_
  obtain ⟨hg, hleans⟩ := hg
  have hle := tallestPrimary_add_le n
  have hheight := hf.height_le
  refine ⟨hg.height_le.trans (by omega), fun hright => ?_⟩
  -- the primary leans to the right as well
  exact (hg.height_le_of_leansRight hright).trans
    (Nat.max_le.mpr ⟨hf.height_le_of_leansRight (hleans hright), le_rfl⟩)

theorem height_primary (hbelow : ∀ m < n, HeightWithin limit last m) (ts : List Located) :
    (primary limit last n ts).All (Formula.Fits (tallestPrimary n) n) := by
  unfold primary
  apply Reply.All.after
  split
  case h_1 | h_2 => exact ⟨Nat.zero_le _, fun _ => Nat.zero_le _⟩
  case h_3 offset rest _ =>
    cases n with
    | zero => trivial
    | succ n =>
      have hrest := (hbelow n n.lt_succ_self).primary rest
      exact hrest.operand (fun f hf => hf.neg.mono (tallestPrimary_lt n) le_rfl) .neg offset
  case h_4 q offset x _ rest _ =>
    cases n with
    | zero => trivial
    | succ n =>
      have hrest := (hbelow n n.lt_succ_self).primary rest
      exact hrest.operand (fun f hf => (hf.quant q x).mono (tallestPrimary_lt n) le_rfl)
        (.quantifier q) offset
  case h_6 offset rest _ =>
    -- the parentheses take a level and add none
    cases n with
    | zero => trivial
    | succ n =>
      have hinner := (hbelow n n.lt_succ_self).expression 0 rest
      exact (hinner.closed offset).imp fun f hf => hf.mono (Nat.le_max_right _ _) n.le_succ
  case h_5 | h_7 => trivial

theorem height_connectives (hbelow : ∀ m < n, HeightWithin limit last m) (strength : Nat)
    (left : Formula) (ts : List Located) :
    (connectives limit last n strength left ts).All fun f =>
      f.Fits (max (left.height + n) (tallest n)) (max left.height n) ∧
        (f.LeansRight → left.LeansRight) := by
  have hreply := chainReply_connectives limit last n strength left ts
  generalize connectives limit last n strength left ts = r at hreply ⊢
  cases hreply with
  | stop => exact ⟨⟨by omega, fun _ => Nat.le_max_left _ _⟩, id⟩
  | fault => trivial
  | @join n offset op right rest rest' passed _ hread =>
    have hright := (hbelow n n.lt_succ_self).expression op.rightStrength rest
    rw [hread] at hright
    have hjoined := (hbelow n n.lt_succ_self).connectives strength (.binary op left right) rest'
    refine (hjoined.imp fun f hf => ?_).after passed
    obtain ⟨hf, hleans⟩ := hf
    have hheight := hf.height_le
    have hright' : right.height ≤ tallest n := hright.height_le
    have hjoin := tallest_add_le n
    rw [Formula.height] at hheight
    refine ⟨⟨by omega, fun h => ?_⟩, fun h => (hleans h).1⟩
    -- what leans to the right is one level higher than its right operand
    obtain ⟨-, hrightLeans, hle⟩ := hleans h
    have hheight' := hf.height_le_of_leansRight h
    have hright' : right.height ≤ n := hright.height_le_of_leansRight hrightLeans
    rw [Formula.height] at hheight'
    omega

/-- What is read is no higher than the levels allow. -/
theorem heightWithin (limit last n : Nat) : HeightWithin limit last n := by
  induction n using Nat.strongRecOn with
  | ind n ih => exact ⟨height_primary ih, height_connectives ih⟩

/-! ### Towers -/

theorem height_chainAtoms (op : Connective) (f : Formula) (k : Nat) :
    (chainAtoms op f k).height = f.height + k := by
  induction k generalizing f with
  | zero => rfl
  | succ k ih =>
    rw [chainAtoms, ih, Formula.height, Formula.height]
    omega

/-- A formula as high as the `n` levels allow that reading it takes: all levels are spent on joining
atoms to a formula in parentheses, inside which all but one are free again. -/
def tower : Nat → Formula
  | 0 => .prop "P" []
  | 1 => chainAtoms .conj (.neg (.prop "P" [])) 1
  | n + 2 => chainAtoms .conj (tower (n + 1)) (n + 2)

/-- The tokens of the tower. -/
def towerTokens : Nat → List Token
  | 0 => [.prop "P" [] "P"]
  | 1 => .command .neg :: .prop "P" [] "P" :: chainTokens .conj 1
  | n + 2 => .openParen :: (towerTokens (n + 1) ++ [.closeParen]) ++ chainTokens .conj (n + 2)

theorem height_tower (n : Nat) : (tower n).height = tallest n := by
  induction n with
  | zero => rfl
  | succ n ih =>
    cases n with
    | zero => rfl
    | succ n => rw [tower, height_chainAtoms, ih, tallest_succ_succ]

/-- The tower is read with as many levels as it is named for. -/
theorem readsExpression_tower (n : Nat) :
    ReadsExpression limit last 0 n (tower n) (towerTokens n) := by
  induction n with
  | zero => exact (readsPrimary_prop "P" [] "P").readsExpression 0
  | succ n ih =>
    cases n with
    | zero => exact (readsPrimary_prop "P" [] "P").neg.readsExpression_chain .conj rfl 1
    | succ n =>
      have htower := ih.inParentheses.readsExpression_chain .conj rfl (n + 2)
      rwa [Nat.add_comm 1, Nat.max_self] at htower

end Reading

/-! ### Programs -/

namespace Program

open Reading (expression frontToken)

/-- What every formula that is read has, every statement has. -/
theorem forall_mem_read {P : Formula → Prop} {limit last : Nat} {ts : List Located}
    (h : ∀ ts, (expression limit last limit 0 ts).All P) :
    ∀ f ∈ (read limit last ts).statements, P f := by
  fun_induction read limit last ts with
  | case1 => exact List.forall_mem_nil P
  | case2 ts _ f rest passed hread ih =>
    have hf := h ts
    rw [hread] at hf
    exact List.forall_mem_cons.mpr ⟨hf, ih⟩
  | case3 => exact List.forall_mem_nil P
  | case4 ts _ d rest passed _ ih => exact ih

/-- The limit bounds the height of the statements that lean to the right, and `tallest` bounds the
height of all statements. So a pass with as many levels does not fail on them. No smaller bound will
do for all statements: there are tokens whose only statement has this height. -/
theorem height_le_tallest (limit : Nat) :
    (∀ ts, ∀ f ∈ (ofTokens limit ts).statements,
      f.height ≤ tallest limit ∧ (f.LeansRight → f.height ≤ limit) ∧
      ∀ limits : Limits, tallest limit ≤ limits.depth ∨ f.LeansRight ∧ limit ≤ limits.depth →
        f.eliminateImplication limits = .ok f.expanded) ∧
    ∃ ts f, ofTokens limit ts = ⟨[f], []⟩ ∧ f.height = tallest limit ∧
      ∀ limits : Limits, limits.depth < tallest limit →
        f.eliminateImplication limits = .error (.recursionLimit limits.depth) := by
  constructor
  · intro ts f hf
    have hfits := forall_mem_read ((Reading.heightWithin limit _ limit).expression 0) f hf
    refine ⟨hfits.height_le, hfits.height_le_of_leansRight, fun limits hlimits => ?_⟩
    have hheight : f.height ≤ limits.depth := by
      rcases hlimits with hle | ⟨hleans, hle⟩
      · exact hfits.height_le.trans hle
      · exact (hfits.height_le_of_leansRight hleans).trans hle
    rw [Formula.eliminateImplication, Formula.eliminateImplicationWithin_eq, withLevels,
      if_pos hheight]
  · let ts : List Located := (Reading.towerTokens limit ++ [Token.eof]).map fun t => ⟨t, 0⟩
    have hts : ts.map Located.token = Reading.towerTokens limit ++ [.eof] :=
      List.map_map.trans (List.map_id _)
    refine ⟨ts, Reading.tower limit, ?_, Reading.height_tower limit, fun limits hlimits => ?_⟩
    · exact (read_eq_iff_of_readsExpression (Reading.readsExpression_tower limit) hts).mpr le_rfl
    · rw [Formula.eliminateImplication, Formula.eliminateImplicationWithin_eq, withLevels,
        Reading.height_tower, if_neg (Nat.not_le.mpr hlimits)]

/-- With two levels a statement of height four is read, for which a pass needs four levels. -/
theorem height_le_tallest_two :
    let ts : List Located := (Reading.towerTokens 2 ++ [Token.eof]).map fun t => ⟨t, 0⟩
    let f := Reading.tower 2
    f ∈ (ofTokens 2 ts).statements ∧ f.height ≤ 4 ∧
      f.eliminateImplication { depth := 4 } = .ok f.expanded ∧
      f.eliminateImplication { depth := 3 } = .error (.recursionLimit 3) := by
  intro ts f
  have hf : f ∈ (ofTokens 2 ts).statements := by decide +kernel
  obtain ⟨hheight, -, hpass⟩ := (height_le_tallest 2).1 ts f hf
  exact ⟨hf, hheight, hpass { depth := 4 } (.inl (by decide)), by decide +kernel⟩

/-- A negation before a connective takes no level away from it: with one level a statement of height
two is read without a fault, and the pass that may descend one level fails on it. -/
theorem height_gt_limit :
    let ts : List Located := [⟨.command .neg, 0⟩, ⟨.prop "P" [] "P", 5⟩,
      ⟨.command (.connective .conj), 7⟩, ⟨.prop "Q" [] "Q", 13⟩, ⟨.eof, 14⟩]
    let f : Formula := .binary .conj (.neg (.prop "P" [])) (.prop "Q" [])
    (tokenize "\\neg P \\land Q").result = .ok ts ∧ ofTokens 1 ts = ⟨[f], []⟩ ∧ f.height = 2 ∧
      f.eliminateImplication { depth := 1 } = .error (.recursionLimit 1) := by
  decide +kernel

end Program

end ClausalForm
