import ClausalForm.Proofs.Program.Height
import ClausalForm.Proofs.Program.Offsets

/-!
# Reading statements back

The written form of a statement can take more nesting levels than the statement was read with. A
connective that binds tighter needs no parentheses as an operand of one that binds looser, but it is
written in them, and each pair takes a level. A left operand is the worse off: its levels are free
again when a connective is joined to it, but in its written form all joins before it are in
parentheses, one pair in another. So what the written form takes grows with the square of the
limit, and there is a statement that takes as many for every limit. Where the levels are spent on
the right, and no tighter connective stands there without its parentheses, the limit is enough.

## Main definitions

* `Formula.operandNesting`: the levels of the written form of an operand
* `Formula.NestsRight`: the levels of the written form are spent on the right
* `deepest`: the levels that the written form of a statement takes at most
* `Reading.spread`, `Reading.core`, `Reading.summit`: a statement that takes as many

## Main results

* `Reading.writtenWithin`: the levels that the written form of what is read takes
* `Program.exists_readBack_iff_deepest_le`: no fewer levels will do for every statement
* `Program.ofText_render_deepest`: when the statements of a text are read back
-/

namespace ClausalForm

/-! ### Levels -/

/-- The nesting levels that the written form of a statement takes at most if the statement was read
with `n` levels. -/
def deepest (n : Nat) : Nat :=
  n * (n + 2) / 2

/-- The levels that an operand takes at most if it was read with `n` levels: one more than a
statement for the parentheses, which are needed only if a connective could be joined. -/
def deepestOperand (n : Nat) : Nat :=
  deepest n + min n 1

/-- The levels that an operand takes at most if it was read as a primary with `n` levels: a
negation, or an expression in parentheses. -/
def deepestPrimary : Nat → Nat
  | 0 => 0
  | n + 1 => deepest n + 1

theorem deepest_add_two (n : Nat) : deepest (n + 2) = deepest n + (2 * n + 4) := by
  have hproduct : (n + 2) * (n + 2 + 2) = n * (n + 2) + (2 * n + 4) * 2 := by ring
  rw [deepest, deepest, hproduct, Nat.add_mul_div_right _ _ (by decide)]

theorem deepest_add_lt (n : Nat) : deepest n + n < deepest (n + 1) := by
  have hproduct : (n + 1) * (n + 1 + 2) = n * (n + 2) + (2 * n + 3) := by ring
  rw [deepest, deepest, hproduct]
  omega

theorem deepestPrimary_lt (n : Nat) : deepestPrimary n + 1 ≤ deepestPrimary (n + 1) := by
  cases n with
  | zero => decide
  | succ n =>
    have hlt := deepest_add_lt n
    rw [deepestPrimary, deepestPrimary]
    omega

theorem deepestPrimary_le (n : Nat) : deepestPrimary n ≤ deepest n := by
  cases n with
  | zero => decide
  | succ n =>
    have hlt := deepest_add_lt n
    rw [deepestPrimary]
    omega

theorem deepestPrimary_add_le (n : Nat) : deepestPrimary n + n ≤ deepestOperand n := by
  cases n with
  | zero => decide
  | succ n =>
    have hlt := deepest_add_lt n
    rw [deepestPrimary, deepestOperand]
    omega

/-- Two chains that are joined to a primary, one inside the right operand of the other, take all
levels that there are. -/
theorem deepestOperand_succ (n : Nat) :
    deepestOperand (n + 1) = deepestPrimary n + 2 * n + 2 := by
  cases n with
  | zero => decide
  | succ n =>
    rw [deepestOperand, deepest_add_two, deepestPrimary]
    omega

theorem deepestOperand_add_two_le (n : Nat) : deepestOperand n + 2 ≤ deepestOperand (n + 1) := by
  have hlt := deepest_add_lt n
  cases n with
  | zero => decide
  | succ n =>
    rw [deepestOperand, deepestOperand]
    omega

theorem deepestOperand_add_three_le (n : Nat) :
    deepestOperand (n + 1) + 3 ≤ deepestOperand (n + 2) := by
  have hlt : deepest (n + 1) + (n + 1) < deepest (n + 2) := deepest_add_lt (n + 1)
  rcases n.eq_zero_or_pos with rfl | hpos
  · decide
  · rw [deepestOperand, deepestOperand]
    omega

namespace Formula

/-- The nesting levels of the written form, and one more for the parentheses around an application
of a connective. -/
def operandNesting (f : Formula) : Nat :=
  f.isBinary.toNat + f.nesting

/-- The strength of the connective at the root, zero if there is none. -/
def rootStrength : Formula → Nat
  | binary op _ _ => op.precedence
  | _ => 0

/-- At every connective on the right the left operand takes no more levels than the right one, and
the right operand has no tighter connective at its root. -/
def NestsRight : Formula → Prop
  | prop .. | var _ => True
  | neg f | quant _ _ f => f.NestsRight
  | binary op l r => r.NestsRight ∧ r.rootStrength ≤ op.precedence ∧
      l.operandNesting ≤ 1 + (r.needsParentheses op .right).toNat + r.nesting

theorem needsParentheses_left (op : Connective) (f : Formula) :
    f.needsParentheses op .left = f.isBinary := by
  cases f with
  | binary op' l r => simp [needsParentheses, isBinary]
  | prop | var | neg | quant => rfl

theorem needsParentheses_of_not_isRightAssociative {op : Connective}
    (hop : op.isRightAssociative = false) (side : Side) (f : Formula) :
    f.needsParentheses op side = f.isBinary := by
  cases f with
  | binary op' l r => simp [needsParentheses, isBinary, hop]
  | prop | var | neg | quant => rfl

theorem toNat_needsParentheses_add_nesting_le (op : Connective) (side : Side) (f : Formula) :
    (f.needsParentheses op side).toNat + f.nesting ≤ f.operandNesting := by
  cases f with
  | binary op' l r => exact Nat.add_le_add_right (Bool.toNat_le _) _
  | prop | var | neg | quant => exact Nat.le_refl _

/-- An operand that may stand bare on the right, and has no tighter connective at its root than the
one that it stands under, is written bare. -/
theorem needsParentheses_right_of_rootStrength {op op' : Connective} {l r : Formula}
    (hle : op.rightStrength ≤ op'.precedence) (hge : op'.precedence ≤ op.precedence) :
    (binary op' l r).needsParentheses op .right = false := by
  cases hassoc : op.isRightAssociative with
  | false =>
    rw [Connective.rightStrength, hassoc] at hle
    simp only [Bool.false_eq_true, if_false] at hle
    omega
  | true =>
    rw [Connective.rightStrength, if_pos hassoc] at hle
    simp [needsParentheses, hassoc, Nat.le_antisymm hge hle]

theorem operandNesting_binary_le (op : Connective) (l r : Formula) :
    (binary op l r).operandNesting ≤
      max (l.operandNesting + 1) ((r.needsParentheses op .right).toNat + r.nesting + 2) := by
  have hleft := toNat_needsParentheses_add_nesting_le op .left l
  rw [operandNesting, nesting, isBinary, Bool.toNat_true]
  omega

theorem nesting_le_operandNesting (f : Formula) : f.nesting ≤ f.operandNesting :=
  Nat.le_add_left _ _

end Formula

/-! ### The levels of what is read -/

namespace Formula

/-- What the written form of a primary takes that is read with `n` levels. -/
structure PrimaryFits (n : Nat) (f : Formula) : Prop where
  operandNesting_le : f.operandNesting ≤ deepestPrimary n
  le_of_nestsRight : f.NestsRight → f.operandNesting ≤ n

namespace PrimaryFits

variable {n : Nat} {f : Formula}

theorem neg (h : f.PrimaryFits n) : (neg f).PrimaryFits (n + 1) := by
  have hneg : (Formula.neg f).operandNesting = f.operandNesting + 1 := by
    simp only [operandNesting, nesting, isBinary, Bool.toNat_false]
    omega
  refine ⟨?_, fun hright => ?_⟩
  · rw [hneg]
    exact (Nat.succ_le_succ h.operandNesting_le).trans (deepestPrimary_lt n)
  · rw [hneg]
    exact Nat.succ_le_succ (h.le_of_nestsRight hright)

theorem quant (h : f.PrimaryFits n) (q : Quantifier) (x : String) :
    (quant q x f).PrimaryFits (n + 1) :=
  ⟨h.neg.operandNesting_le, h.neg.le_of_nestsRight⟩

end PrimaryFits

/-- What the written form of a chain takes that is read with `n` levels after `left`, whose
connectives have at least the strength `s`. -/
structure ChainFits (s n : Nat) (f left : Formula) : Prop where
  operandNesting_le : f.operandNesting ≤ max (left.operandNesting + n) (deepestOperand n)
  /-- Only conjunctions are as strong, and their right operands are primaries. -/
  operandNesting_le_of_conj : 4 ≤ s →
    f.operandNesting ≤ max (left.operandNesting + n) (deepestPrimary n + n)
  /-- No connective is as strong. -/
  eq_of_five : 5 ≤ s → f = left
  eq_or_binary : f = left ∨ ∃ op l r, f = binary op l r ∧ s ≤ op.precedence ∧
    (f.NestsRight → f.nesting ≤ n)

/-- What the written form of an expression takes that is read with `n` levels, whose connectives
have at least the strength `s`. -/
structure ExpressionFits (s n : Nat) (f : Formula) : Prop where
  operandNesting_le : f.operandNesting ≤ deepestOperand n
  operandNesting_le_of_conj : 4 ≤ s → f.operandNesting ≤ deepestPrimary n + n
  operandNesting_le_of_five : 5 ≤ s → f.operandNesting ≤ deepestPrimary n
  nesting_le : f.nesting ≤ deepest n
  le_of_nestsRight : f.NestsRight → f.operandNesting ≤ n ∨
    f.nesting ≤ n ∧ ∃ op l r, f = binary op l r ∧ s ≤ op.precedence

variable {s n : Nat} {left f : Formula}

/-- A chain after a primary is an expression. -/
theorem PrimaryFits.chain (hleft : left.PrimaryFits n) (h : f.ChainFits s n left) :
    f.ExpressionFits s n := by
  have hprimary := hleft.operandNesting_le
  have hadd := deepestPrimary_add_le n
  have hbound := h.operandNesting_le
  refine ⟨by omega, fun hs => ?_, fun hs => ?_, ?_, fun hright => ?_⟩
  · have hconj := h.operandNesting_le_of_conj hs
    omega
  · rw [h.eq_of_five hs]
    exact hprimary
  · rcases h.eq_or_binary with rfl | ⟨op, l, r, rfl, -, -⟩
    · exact (nesting_le_operandNesting f).trans (hprimary.trans (deepestPrimary_le n))
    · -- the parentheses are not needed around a statement
      rw [operandNesting, isBinary, Bool.toNat_true] at hbound
      rw [deepestOperand] at hadd hbound
      omega
  · rcases h.eq_or_binary with rfl | ⟨op, l, r, hf, hs, hle⟩
    · exact .inl (hleft.le_of_nestsRight hright)
    · exact .inr ⟨hle hright, op, l, r, hf, hs⟩

namespace ExpressionFits

variable {op : Connective} {r : Formula}

/-- In parentheses an expression takes a level more to read, and none more as an operand. -/
theorem inParentheses (h : f.ExpressionFits 0 n) : f.PrimaryFits (n + 1) := by
  refine ⟨?_, fun hright => ?_⟩
  · have hle := h.operandNesting_le
    rw [deepestOperand] at hle
    rw [deepestPrimary]
    omega
  · rcases h.le_of_nestsRight hright with hle | ⟨hle, -⟩
    · exact hle.trans n.le_succ
    · have htoNat := Bool.toNat_le f.isBinary
      rw [operandNesting]
      omega

/-- The written form of a right operand. -/
theorem rightOperand (h : r.ExpressionFits op.rightStrength n) :
    (r.needsParentheses op .right).toNat + r.nesting ≤ deepestOperand n :=
  (toNat_needsParentheses_add_nesting_le op .right r).trans h.operandNesting_le

/-- An application that nests to the right takes one level more than its right operand. -/
theorem nesting_binary_le (h : r.ExpressionFits op.rightStrength n)
    (hright : (binary op left r).NestsRight) : (binary op left r).nesting ≤ n + 1 := by
  obtain ⟨hr, hstrength, hleft⟩ := hright
  have hoperand : (r.needsParentheses op .right).toNat + r.nesting ≤ n := by
    rcases h.le_of_nestsRight hr with hle | ⟨hle, op', l', r', rfl, hop'⟩
    · exact (toNat_needsParentheses_add_nesting_le op .right r).trans hle
    · -- an operand that was read without parentheses is written without them
      rw [needsParentheses_right_of_rootStrength hop' hstrength]
      simpa using hle
  rw [nesting, needsParentheses_left]
  rw [operandNesting] at hleft
  omega

end ExpressionFits

/-- The formula `left`, or a biconditional that was joined to it with `n` levels and ends the
expression. -/
def IsLastJoin (n : Nat) (f left : Formula) : Prop :=
  f = left ∨ ∃ m r, n = m + 1 ∧ f = binary .iff left r ∧
    r.ExpressionFits Connective.iff.rightStrength m

namespace ChainFits

theorem refl (s n : Nat) (left : Formula) : left.ChainFits s n left :=
  ⟨by omega, fun _ => by omega, fun _ => rfl, .inl rfl⟩

variable {op : Connective} {right : Formula}

/-- An operand of an implication or a biconditional takes no more than there is. -/
theorem operandNesting_le_of_isLastJoin (hright : right.ExpressionFits op.rightStrength n)
    (hlast : f.IsLastJoin n (binary op left right)) :
    f.operandNesting ≤ max (left.operandNesting + (n + 1)) (deepestOperand (n + 1)) := by
  have hoperand := hright.rightOperand
  have hjoin := operandNesting_binary_le op left right
  rcases hlast with rfl | ⟨m, r, rfl, rfl, hr⟩
  · have htwo := deepestOperand_add_two_le n
    omega
  · have hoperand' := hr.rightOperand
    have hjoin' := operandNesting_binary_le .iff (binary op left right) r
    have htwo := deepestOperand_add_two_le m
    have hthree : deepestOperand (m + 1) + 3 ≤ deepestOperand (m + 1 + 1) :=
      deepestOperand_add_three_le m
    omega

/-- A chain that goes on after a connective was joined. -/
theorem join (h : f.ChainFits s n (binary op left right)) (hs : s ≤ op.precedence)
    (hright : right.ExpressionFits op.rightStrength n)
    (hlast : op.isRightAssociative → f.IsLastJoin n (binary op left right)) :
    f.ChainFits s (n + 1) left := by
  have hjoin := operandNesting_binary_le op left right
  have hoperand := toNat_needsParentheses_add_nesting_le op .right right
  refine ⟨?_, fun hconj => ?_, fun hfive => ?_, ?_⟩
  · cases hassoc : op.isRightAssociative with
    | true => exact operandNesting_le_of_isLastJoin hright (hlast hassoc)
    | false =>
      -- of a disjunction, the right operand can be a conjunction
      have hstrength : 4 ≤ op.rightStrength := by cases op <;> first | decide | cases hassoc
      have hconj := hright.operandNesting_le_of_conj hstrength
      have hle := h.operandNesting_le
      have hsucc := deepestOperand_succ n
      have htwo := deepestOperand_add_two_le n
      omega
  · have hstrength : 5 ≤ op.rightStrength := by
      cases op <;> first | decide | exact absurd (hconj.trans hs) (by decide)
    have hprimary := hright.operandNesting_le_of_five hstrength
    have hle := h.operandNesting_le_of_conj hconj
    have hlt := deepestPrimary_lt n
    omega
  · exact absurd (hfive.trans hs) (Nat.not_le.mpr op.precedence_lt_five)
  · right
    rcases h.eq_or_binary with rfl | ⟨op', l, r, hf, hs', hle⟩
    · exact ⟨op, left, right, rfl, hs, hright.nesting_binary_le⟩
    · exact ⟨op', l, r, hf, hs', fun hnests => (hle hnests).trans n.le_succ⟩

end ChainFits

end Formula

namespace Reading

variable {limit last n s : Nat}

/-- What the written form of what is read with `n` levels takes. -/
structure WrittenWithin (limit last n : Nat) : Prop where
  primary : ∀ ts, (primary limit last n ts).All (Formula.PrimaryFits n)
  connectives : ∀ s left ts, (connectives limit last n s left ts).All fun f =>
    f.ChainFits s n left

theorem WrittenWithin.expression (h : WrittenWithin limit last n) (s : Nat) (ts : List Located) :
    (expression limit last n s ts).All (Formula.ExpressionFits s n) :=
  (h.primary ts).andThen fun f rest hf =>
    (h.connectives s f rest).imp fun _ hchain => hf.chain hchain

theorem written_primary (hbelow : ∀ m < n, WrittenWithin limit last m) (ts : List Located) :
    (primary limit last n ts).All (Formula.PrimaryFits n) := by
  unfold primary
  apply Reply.All.after
  split
  case h_1 | h_2 => exact ⟨Nat.zero_le _, fun _ => Nat.zero_le _⟩
  case h_3 offset rest _ =>
    cases n with
    | zero => trivial
    | succ n =>
      have hrest := (hbelow n n.lt_succ_self).primary rest
      exact hrest.operand (fun f hf => hf.neg) .neg offset
  case h_4 q offset x _ rest _ =>
    cases n with
    | zero => trivial
    | succ n =>
      have hrest := (hbelow n n.lt_succ_self).primary rest
      exact hrest.operand (fun f hf => hf.quant q x) (.quantifier q) offset
  case h_6 offset rest _ =>
    cases n with
    | zero => trivial
    | succ n =>
      have hinner := (hbelow n n.lt_succ_self).expression 0 rest
      exact (hinner.closed offset).imp fun f hf => hf.inParentheses
  case h_5 | h_7 => trivial

/-- Where only a biconditional can follow, at most one connective is joined, since its right operand
goes on to the end of the expression. -/
theorem written_connectives_of_endsChain (hbelow : ∀ m < n, WrittenWithin limit last m) (s : Nat)
    (left : Formula) {ts : List Located} (hts : EndsChain 2 (ts.map Located.token)) :
    (connectives limit last n s left ts).All fun f => f.IsLastJoin n left := by
  have hreply := chainReply_connectives limit last n s left ts
  generalize connectives limit last n s left ts = r at hreply ⊢
  cases hreply with
  | stop => exact .inl rfl
  | fault => trivial
  | @join n offset op right rest rest' passed hs hright =>
    -- an implication would have been joined before
    obtain rfl : op = .iff := by
      have hop := EndsChain.cons_connective_iff.mp hts
      cases op <;> first | rfl | exact absurd hop (by decide)
    have hfits := (hbelow n n.lt_succ_self).expression Connective.iff.rightStrength rest
    rw [hright] at hfits
    have hends : EndsChain s (rest'.map Located.token) :=
      (endsChain_of_expression hright).of_one
    rw [connectives_of_ends hends]
    exact .inr ⟨n, right, rfl, rfl, hfits⟩

theorem written_connectives (hbelow : ∀ m < n, WrittenWithin limit last m) (s : Nat)
    (left : Formula) (ts : List Located) :
    (connectives limit last n s left ts).All fun f => f.ChainFits s n left := by
  have hreply := chainReply_connectives limit last n s left ts
  generalize connectives limit last n s left ts = r at hreply ⊢
  cases hreply with
  | stop => exact .refl s n left
  | fault => trivial
  | @join n offset op right rest rest' passed hs hright =>
    have hbelow' := hbelow n n.lt_succ_self
    have hfits := hbelow'.expression op.rightStrength rest
    rw [hright] at hfits
    have hchain := hbelow'.connectives s (.binary op left right) rest'
    have hlast : (connectives limit last n s (.binary op left right) rest').All fun f =>
        op.isRightAssociative → f.IsLastJoin n (.binary op left right) := by
      cases hassoc : op.isRightAssociative with
      | false => exact hchain.imp fun f _ h => absurd h (by decide)
      | true =>
        -- the right operand has taken all but a biconditional
        have htwo : op.rightStrength ≤ 2 := by cases op <;> first | decide | cases hassoc
        have hends := (endsChain_of_expression hright).mono htwo
        have hbefore (m : Nat) (hm : m < n) := hbelow m (hm.trans n.lt_succ_self)
        exact (written_connectives_of_endsChain hbefore s _ hends).imp fun f hf _ => hf
    exact ((hchain.and hlast).imp fun f hf => hf.1.join hs hfits hf.2).after passed

/-- What the written form of what is read takes, for every number of levels. -/
theorem writtenWithin (limit last n : Nat) : WrittenWithin limit last n := by
  induction n using Nat.strongRecOn with
  | ind n ih => exact ⟨written_primary ih, written_connectives ih⟩

/-! ### A statement whose written form is deep -/

/-- The formula in a chain of `n` conjunctions, which is the right operand in a chain of
disjunctions with `n` more atoms. -/
def spread (f : Formula) (n : Nat) : Formula :=
  chainAtoms .disj (.binary .disj (.prop "P" []) (chainAtoms .conj f n)) n

/-- The tokens of both chains, without a parenthesis around the first one. -/
def spreadTokens (us : List Token) (n : Nat) : List Token :=
  .prop "P" [] "P" :: .command (.connective .disj) ::
    (us ++ chainTokens .conj n ++ chainTokens .disj n)

/-- A primary that takes as many levels as an operand can that is read with `n` levels. -/
def core : Nat → Formula
  | 0 => .prop "P" []
  | 1 => .neg (.prop "P" [])
  | n + 2 => spread (core n) n

/-- The tokens of the primary. -/
def coreTokens : Nat → List Token
  | 0 => [.prop "P" [] "P"]
  | 1 => [.command .neg, .prop "P" [] "P"]
  | n + 2 => .openParen :: (spreadTokens (coreTokens n) n ++ [.closeParen])

/-- A statement whose written form takes as many levels as it can if the statement is read with `n`
levels. -/
def summit : Nat → Formula
  | 0 => .prop "P" []
  | n + 1 => spread (core n) n

/-- The tokens of the statement. -/
def summitTokens : Nat → List Token
  | 0 => [.prop "P" [] "P"]
  | n + 1 => spreadTokens (coreTokens n) n

theorem operandNesting_binary_atom (op : Connective) {f : Formula} (hf : 0 < f.operandNesting) :
    (Formula.binary op f (.prop "P" [])).operandNesting = f.operandNesting + 1 := by
  have hatom : (Formula.prop "P" []).needsParentheses op .right = false := rfl
  rw [Formula.operandNesting, Formula.nesting, Formula.needsParentheses_left, hatom,
    Formula.isBinary, Formula.nesting, Bool.toNat_true, Bool.toNat_false]
  rw [Formula.operandNesting] at hf ⊢
  omega

/-- Every atom that is joined puts what is before it in parentheses. -/
theorem operandNesting_chainAtoms (op : Connective) {f : Formula} {k : Nat}
    (hf : k = 0 ∨ 0 < f.operandNesting) :
    (chainAtoms op f k).operandNesting = f.operandNesting + k := by
  induction k generalizing f with
  | zero => rfl
  | succ k ih =>
    have hpos := hf.resolve_left k.succ_ne_zero
    have hatom := operandNesting_binary_atom op hpos
    rw [chainAtoms, ih (.inr (by omega)), hatom]
    omega

theorem isBinary_chainAtoms (op : Connective) {f : Formula} (hf : f.isBinary) (k : Nat) :
    (chainAtoms op f k).isBinary := by
  induction k generalizing f with
  | zero => exact hf
  | succ k ih => exact ih rfl

theorem operandNesting_spread {f : Formula} {n : Nat} (hf : n = 0 ∨ 0 < f.operandNesting) :
    (spread f n).operandNesting = f.operandNesting + 2 * n + 2 := by
  have hconj := operandNesting_chainAtoms .conj hf
  have hjoin : (Formula.binary .disj (.prop "P" []) (chainAtoms .conj f n)).operandNesting =
      (chainAtoms .conj f n).operandNesting + 2 := by
    have hparens : (chainAtoms .conj f n).needsParentheses .disj .right =
        (chainAtoms .conj f n).isBinary :=
      Formula.needsParentheses_of_not_isRightAssociative rfl .right _
    rw [Formula.operandNesting, Formula.nesting, hparens, Formula.needsParentheses_left,
      Formula.operandNesting]
    simp only [Formula.isBinary, Formula.nesting, Bool.toNat_true, Bool.toNat_false]
    omega
  rw [spread, operandNesting_chainAtoms .disj (.inr (by omega)), hjoin, hconj]
  omega

theorem eq_zero_or_deepestPrimary_pos (n : Nat) : n = 0 ∨ 0 < deepestPrimary n := by
  cases n with
  | zero => exact .inl rfl
  | succ n => exact .inr (Nat.succ_pos _)

theorem operandNesting_core (n : Nat) : (core n).operandNesting = deepestPrimary n := by
  induction n using Nat.twoStepInduction with
  | zero => rfl
  | one => rfl
  | more n ih _ =>
    have hpos := eq_zero_or_deepestPrimary_pos n
    rw [← ih] at hpos
    rw [core, operandNesting_spread hpos, ih, ← deepestOperand_succ, deepestOperand, deepestPrimary]
    omega

theorem nesting_summit (n : Nat) : (summit n).nesting = deepest n := by
  cases n with
  | zero => rfl
  | succ n =>
    have hpos := eq_zero_or_deepestPrimary_pos n
    rw [← operandNesting_core] at hpos
    have hoperand := operandNesting_spread hpos
    have hbinary : (spread (core n) n).isBinary := isBinary_chainAtoms .disj rfl n
    rw [operandNesting_core, ← deepestOperand_succ, Formula.operandNesting, hbinary,
      Bool.toNat_true, deepestOperand] at hoperand
    rw [summit]
    omega

/-- Both chains are read with one level more than the formula, which is in no parentheses of its
own. -/
theorem ReadsPrimary.readsExpression_spread {f : Formula} {us : List Token}
    (h : ReadsPrimary limit last n f us) :
    ReadsExpression limit last 0 (n + 1) (spread f n) (spreadTokens us n) := by
  intro k ts₀ rest hts₀ hrest
  obtain ⟨offset, ts₁, rfl, hts₁⟩ := exists_eq_cons_of_map hts₀
  obtain ⟨offset', ts₂, rfl, hts₂⟩ := exists_eq_cons_of_map hts₁
  obtain ⟨ts₃, disjs, rfl, hts₃, hdisjs⟩ := List.map_eq_append_iff.mp hts₂
  obtain ⟨ts, conjs, rfl, hts, hconjs⟩ := List.map_eq_append_iff.mp hts₃
  -- the conjunctions go on to the first disjunction after them
  have hends : EndsChain Connective.disj.rightStrength ((disjs ++ rest).map Located.token) := by
    rw [List.map_append, hdisjs]
    exact endsChain_chainTokens (by decide) hrest.endsChain n
  let us' : List Located := ts ++ (conjs ++ (disjs ++ rest))
  have hright (k : Nat) : (expression limit last k Connective.disj.rightStrength us').Returns
      (max n n) k (chainAtoms .conj f n) (disjs ++ rest) :=
    (h k ts _ hts).andThen (returns_chainTokens rfl (by decide) hconjs hends)
  have hjoin : (connectives limit last k 0 (.prop "P" [])
      (⟨.command (.connective .disj), offset'⟩ :: us')).Returns (1 + max (max n n) n) k
        (spread f n) rest :=
    .join (Nat.zero_le _) hright
      (fun k => returns_chainTokens rfl (Nat.zero_le _) hdisjs hrest.endsChain) k
  have hatom : (primary limit last k
      (⟨.prop "P" [] "P", offset⟩ :: ⟨.command (.connective .disj), offset'⟩ :: us')).Returns 0 k
        (.prop "P" []) (⟨.command (.connective .disj), offset'⟩ :: us') :=
    readsPrimary_prop "P" [] "P" k [_] _ rfl
  have hread := hatom.andThen hjoin
  have hneed : max 0 (1 + max (max n n) n) = n + 1 := by omega
  rw [hneed] at hread
  simpa only [us', expression, List.cons_append, List.append_assoc] using hread

theorem readsPrimary_core (n : Nat) : ReadsPrimary limit last n (core n) (coreTokens n) := by
  induction n using Nat.twoStepInduction with
  | zero => exact readsPrimary_prop "P" [] "P"
  | one => exact (readsPrimary_prop "P" [] "P").neg
  | more n ih _ =>
    have hparens := ih.readsExpression_spread.inParentheses
    rwa [Nat.add_comm 1] at hparens

theorem readsExpression_summit (n : Nat) :
    ReadsExpression limit last 0 n (summit n) (summitTokens n) := by
  cases n with
  | zero => exact (readsPrimary_prop "P" [] "P").readsExpression 0
  | succ n => exact (readsPrimary_core n).readsExpression_spread

end Reading

/-! ### Texts -/

theorem writtenAs_atom : WrittenAs "P" [.prop "P" [] "P"] := by
  intro cs ts hcs hts
  have hname : isPropositionName "P" := by decide
  have hargs : ∀ x ∈ ([] : List String), isVariableName x := nofun
  exact hts.prop hname hargs hcs

theorem writtenAs_command (c : Command) : WrittenAs c.symbol [.command c] := by
  intro cs ts hcs hts
  exact hts.command c hcs

namespace Reading

theorem writtenAs_chainTokens (op : Connective) (k : Nat) :
    ∀ u ∈ chainTokens op k, WrittenAs u.render [u] := by
  induction k with
  | zero => nofun
  | succ k ih =>
    exact List.forall_mem_cons.mpr
      ⟨writtenAs_command (.connective op), List.forall_mem_cons.mpr ⟨writtenAs_atom, ih⟩⟩

theorem writtenAs_spreadTokens {us : List Token} (hus : ∀ u ∈ us, WrittenAs u.render [u])
    (n : Nat) : ∀ u ∈ spreadTokens us n, WrittenAs u.render [u] := by
  rw [spreadTokens, List.forall_mem_cons, List.forall_mem_cons, List.forall_mem_append,
    List.forall_mem_append]
  exact ⟨writtenAs_atom, writtenAs_command (.connective .disj),
    ⟨hus, writtenAs_chainTokens .conj n⟩, writtenAs_chainTokens .disj n⟩

theorem writtenAs_coreTokens (n : Nat) : ∀ u ∈ coreTokens n, WrittenAs u.render [u] := by
  induction n using Nat.twoStepInduction with
  | zero => exact List.forall_mem_singleton.mpr writtenAs_atom
  | one =>
    exact List.forall_mem_cons.mpr
      ⟨writtenAs_command .neg, List.forall_mem_singleton.mpr writtenAs_atom⟩
  | more n ih _ =>
    rw [coreTokens, List.forall_mem_cons, List.forall_mem_append, List.forall_mem_singleton]
    exact ⟨fun _ _ _ hts => hts.openParen, writtenAs_spreadTokens ih n,
      fun _ _ _ hts => hts.closeParen⟩

theorem writtenAs_summitTokens (n : Nat) : ∀ u ∈ summitTokens n, WrittenAs u.render [u] := by
  cases n with
  | zero => exact List.forall_mem_singleton.mpr writtenAs_atom
  | succ n => exact writtenAs_spreadTokens (writtenAs_coreTokens n) n

end Reading

namespace Program

open Reading (ReadsExpression writtenWithin summit summitTokens)

/-- Tokens that are read as an expression are read as this one statement when they are written
apart, if statements may have as many levels as reading it takes. -/
theorem ofText_spaced_eq {us : List Token} (hus : ∀ u ∈ us, WrittenAs u.render [u]) {f : Formula}
    {need limit : Nat} (h : ∀ last, ReadsExpression limit last 0 need f us) (hle : need ≤ limit) :
    (ofText limit (spaced us)).result = .ok ⟨[f], []⟩ := by
  obtain ⟨ts, hts, htokens⟩ := tokenizes_spaced hus 0
  rw [result_ofText hts, ofTokens, (read_eq_iff_of_readsExpression (h _) htokens).mpr hle]

/-- What the written forms of the statements of a text take. -/
theorem expressionFits_of_mem_statements {limit : Nat} {text : String} {p : Program}
    (h : (ofText limit text).result = .ok p) : ∀ f ∈ p.statements, f.ExpressionFits 0 limit := by
  rw [ofText, Journal.result_bind, bind_eq_ok_iff] at h
  obtain ⟨ts, -, h⟩ := h
  cases h
  exact forall_mem_read ((writtenWithin limit _ limit).expression 0)

/-- For every limit there is a statement that is read, whose written form has `deepest limit`
levels, and no fewer will do for reading it back. -/
theorem exists_readBack_iff_deepest_le (limit : Nat) :
    ∃ text f, (ofText limit text).result = .ok ⟨[f], []⟩ ∧
      ∀ limit', (ofText limit' f.render).result = .ok ⟨[f], []⟩ ↔ deepest limit ≤ limit' := by
  have htext : (ofText limit (spaced (summitTokens limit))).result = .ok ⟨[summit limit], []⟩ :=
    ofText_spaced_eq (Reading.writtenAs_summitTokens limit)
      (fun _ => Reading.readsExpression_summit limit) le_rfl
  have hlexable := isLexable_of_mem_statements htext _ (List.mem_singleton.mpr rfl)
  refine ⟨_, _, htext, fun limit' => ?_⟩
  rw [ofText_render_eq_iff hlexable, Reading.nesting_summit]

/-- A statement of a text is read back from its written form exactly if statements may have the
levels of this form. It has at most `deepest limit` of them, and so it is always read back with as
many; if it nests to the right, it is read back with the levels that it was read with. -/
theorem ofText_render_deepest {limit : Nat} {text : String} {p : Program}
    (h : (ofText limit text).result = .ok p) :
    ∀ f ∈ p.statements,
      (∀ limit', (ofText limit' f.render).result = .ok ⟨[f], []⟩ ↔ f.nesting ≤ limit') ∧
      (∀ limit', deepest limit ≤ limit' → (ofText limit' f.render).result = .ok ⟨[f], []⟩) ∧
      (f.NestsRight → (ofText limit f.render).result = .ok ⟨[f], []⟩) := by
  intro f hf
  have hread := ofText_render_eq_iff (isLexable_of_mem_statements h f hf)
  have hfits := expressionFits_of_mem_statements h f hf
  refine ⟨hread, fun limit' hle => ?_, fun hright => (hread limit).mpr ?_⟩
  · exact (hread limit').mpr (hfits.nesting_le.trans hle)
  · rcases hfits.le_of_nestsRight hright with hle | ⟨hle, -⟩
    · exact f.nesting_le_operandNesting.trans hle
    · exact hle

/-- An implication in parentheses that are not written again: with four levels it is read and read
back, and twelve are enough for whatever was read with four. -/
theorem ofText_render_deepest_four :
    let text := "A \\implies (B \\implies \\neg C)"
    let f : Formula := .binary .implies (.prop "A" [])
      (.binary .implies (.prop "B" []) (.neg (.prop "C" [])))
    (ofText 4 text).result = .ok ⟨[f], []⟩ ∧ f.NestsRight ∧
      (∀ limit', (ofText limit' f.render).result = .ok ⟨[f], []⟩ ↔ f.nesting ≤ limit') ∧
      (ofText 12 f.render).result = .ok ⟨[f], []⟩ ∧
      (ofText 4 f.render).result = .ok ⟨[f], []⟩ := by
  intro text f
  have htext : (ofText 4 text).result = .ok ⟨[f], []⟩ := by decide +kernel
  have hright : f.NestsRight := ⟨⟨trivial, by decide, by decide⟩, by decide, by decide⟩
  obtain ⟨hread, hdeepest, hnests⟩ := ofText_render_deepest htext f (List.mem_singleton.mpr rfl)
  exact ⟨htext, hright, hread, hdeepest 12 (by decide), hnests hright⟩

/-- A conjunction that stands bare under a disjunction is written in parentheses, and these take one
level more than there are: with two levels the statement is read, and its written form is not. -/
theorem ofText_render_ne :
    let text := "A \\lor B \\land C"
    let f : Formula := .binary .disj (.prop "A" []) (.binary .conj (.prop "B" []) (.prop "C" []))
    (ofText 2 text).result = .ok ⟨[f], []⟩ ∧ f.render = "A \\lor (B \\land C)" ∧
      (ofText 2 f.render).result = .ok ⟨[.prop "C" []],
        [⟨.nestingTooDeep 2, 10⟩, ⟨.unexpectedToken .closeParen, 17⟩]⟩ ∧
      ¬ ∀ limit text p, (ofText limit text).result = .ok p →
        ∀ f ∈ p.statements, (ofText limit f.render).result = .ok ⟨[f], []⟩ := by
  intro text f
  have htext : (ofText 2 text).result = .ok ⟨[f], []⟩ := by decide +kernel
  have hrender : f.render = "A \\lor (B \\land C)" := by decide +kernel
  have hread : (ofText 2 f.render).result = .ok ⟨[.prop "C" []],
      [⟨.nestingTooDeep 2, 10⟩, ⟨.unexpectedToken .closeParen, 17⟩]⟩ := by decide +kernel
  refine ⟨htext, hrender, hread, fun h => ?_⟩
  have hsame := h 2 text _ htext f (List.mem_singleton.mpr rfl)
  rw [hread] at hsame
  have hdiagnostics := congrArg diagnostics (Except.ok.inj hsame)
  cases hdiagnostics

end Program

end ClausalForm
