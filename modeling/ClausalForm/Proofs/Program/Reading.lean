import ClausalForm.Program.Reading
import ClausalForm.Proofs.Formula.Written

/-!
# Reading formulas and writing them

A formula that is read has the names of the tokens that it was read from. The tokens of a written
formula are read as the formula if there are as many nesting levels left as its writing takes, and
as a fault if there are fewer.

## Main definitions

* `Reply.IsLexable`: every name in a reply is one that the notation knows
* `Reply.Returns`: a formula if there are levels enough for it, a fault otherwise
* `ReadsPrimary`, `ReadsExpression`: tokens that are read as a formula in every place
* `ReadsBack`: what the tokens of a written formula are read as in the places where it can stand

## Main results

* `isLexable_expression`: the names in what is read
* `readsBack`: a written formula is read from its tokens
-/

namespace ClausalForm.Reading

/-! ### Names -/

/-- Every name in the tokens is one that the notation knows. -/
def AllLexable (ts : List Located) : Prop :=
  ∀ t ∈ ts, t.token.isLexable

/-- Every name in a reply is one that the notation knows, in the formula that was read and in the
tokens that are left. -/
def Reply.IsLexable : Reply → Prop
  | formula f rest _ => f.isLexable ∧ AllLexable rest
  | nothing rest _ | fault _ rest _ => AllLexable rest

namespace Reply.IsLexable

variable {r : Reply}

theorem after (h : r.IsLexable) (ds : List Diagnostic) : (r.after ds).IsLexable := by
  cases r <;> exact h

theorem andThen {next : Formula → List Located → Reply} (h : r.IsLexable)
    (hnext : ∀ f rest, f.isLexable → AllLexable rest → (next f rest).IsLexable) :
    (r.andThen next).IsLexable := by
  cases r with
  | formula f rest passed => exact (hnext f rest h.1 h.2).after passed
  | nothing | fault => exact h

theorem operand (h : r.IsLexable) (c : Command) (offset : Nat) (build : Formula → Formula)
    (hbuild : ∀ f : Formula, f.isLexable → (build f).isLexable) :
    (r.operand c offset build).IsLexable := by
  cases r with
  | formula f rest passed => exact ⟨hbuild f h.1, h.2⟩
  | nothing | fault => exact h

theorem closed (h : r.IsLexable) (offset : Nat) : (r.closed offset).IsLexable := by
  unfold Reply.closed
  split
  · exact ⟨h.1, fun t ht => h.2 t (List.mem_cons_of_mem _ ht)⟩
  · exact h
  · exact h
  · exact h

end Reply.IsLexable

theorem AllLexable.tail {t : Located} {ts : List Located} (h : AllLexable (t :: ts)) :
    AllLexable ts :=
  fun t' ht' => h t' (List.mem_cons_of_mem t ht')

theorem AllLexable.dropStrays {ts : List Located} (h : AllLexable ts) :
    AllLexable (dropStrays ts) :=
  fun t ht => h t ((List.dropWhile_suffix _).mem ht)

/-- An argument list of lexable names is one of lexable terms. -/
theorem isLexable_map_var {args : List String} (h : args.all isVariableName) :
    (args.map Term.var).all Term.isLexable := by
  rw [List.all_map]
  exact h

/-- A primary has lexable names if on the level below everything that is read has. -/
theorem isLexable_primary_of_below {limit last n : Nat}
    (hprimary : ∀ m < n, ∀ ts, AllLexable ts → (primary limit last m ts).IsLexable)
    (hconnectives : ∀ m < n, ∀ strength left ts, left.isLexable → AllLexable ts →
      (connectives limit last m strength left ts).IsLexable)
    {ts : List Located} (hts : AllLexable ts) : (primary limit last n ts).IsLexable := by
  unfold primary
  -- the tokens that are passed over leave names behind in no formula
  apply Reply.IsLexable.after
  have hdrop := hts.dropStrays
  split
  case h_1 p args text offset rest h =>
    rw [h] at hdrop
    have hprop := hdrop _ List.mem_cons_self
    rw [Token.isLexable, Bool.and_eq_true] at hprop
    refine ⟨?_, hdrop.tail⟩
    rw [Formula.isLexable, hprop.1, isLexable_map_var hprop.2]
    rfl
  case h_2 x offset rest h =>
    rw [h] at hdrop
    exact ⟨hdrop _ List.mem_cons_self, hdrop.tail⟩
  case h_3 offset rest h =>
    -- a negation, and without a level left a fault
    rw [h] at hdrop
    cases n with
    | zero => exact hdrop.tail
    | succ n =>
      have hoperand := hprimary n (Nat.lt_succ_self n) rest hdrop.tail
      exact hoperand.operand .neg offset .neg fun f hf => hf
  case h_4 q offset x offset' rest h =>
    -- a quantifier, whose variable is a token as well
    rw [h] at hdrop
    cases n with
    | zero => exact hdrop.tail.tail
    | succ n =>
      have hbody := hprimary n (Nat.lt_succ_self n) rest hdrop.tail.tail
      have hx : isVariableName x := hdrop.tail _ List.mem_cons_self
      refine hbody.operand (.quantifier q) offset (.quant q x) fun f hf => ?_
      rw [Formula.isLexable, hx, hf]
      rfl
  case h_5 q offset rest h hrest =>
    -- a quantifier without its variable
    rw [hrest] at hdrop
    exact hdrop.tail
  case h_6 offset rest h =>
    -- an expression in parentheses
    rw [h] at hdrop
    cases n with
    | zero => exact hdrop.tail
    | succ n =>
      have hinner := (hprimary n (Nat.lt_succ_self n) rest hdrop.tail).andThen
        (hconnectives n (Nat.lt_succ_self n) 0)
      exact hinner.closed offset
  case h_7 => exact hdrop

/-- A chain of connectives has lexable names if on the level below everything that is read has. -/
theorem isLexable_connectives_of_below {limit last n : Nat}
    (hprimary : ∀ m < n, ∀ ts, AllLexable ts → (primary limit last m ts).IsLexable)
    (hconnectives : ∀ m < n, ∀ strength left ts, left.isLexable → AllLexable ts →
      (connectives limit last m strength left ts).IsLexable)
    (strength : Nat) {left : Formula} {ts : List Located} (hleft : left.isLexable)
    (hts : AllLexable ts) : (connectives limit last n strength left ts).IsLexable := by
  unfold connectives
  split
  · rename_i op offset rest
    split
    · cases n with
      | zero => exact hts.tail
      | succ n =>
        -- the right operand comes first, then the rest of the chain after the joined formula
        have hright := (hprimary n (Nat.lt_succ_self n) rest hts.tail).andThen
          (hconnectives n (Nat.lt_succ_self n) op.rightStrength)
        simp only
        split
        · rename_i right rest' passed heq
          rw [heq] at hright
          have hjoined : (Formula.binary op left right).isLexable := by
            rw [Formula.isLexable, hleft, hright.1]
            rfl
          have hnext := hconnectives n (Nat.lt_succ_self n) strength _ rest' hjoined hright.2
          exact hnext.after passed
        · -- the right operand is missing
          rename_i rest' passed heq
          rw [heq] at hright
          exact ⟨hleft, hright⟩
        · exact hright
    · -- the connective belongs to a chain outside
      exact ⟨hleft, hts⟩
  · exact ⟨hleft, hts⟩

theorem isLexable_primary_and_connectives (limit last n : Nat) :
    (∀ ts, AllLexable ts → (primary limit last n ts).IsLexable) ∧
      ∀ strength left ts, left.isLexable → AllLexable ts →
        (connectives limit last n strength left ts).IsLexable := by
  -- Induction on the levels left, for both at once.
  induction n using Nat.strongRecOn with
  | ind n ih =>
    have hprimary := fun m hm => (ih m hm).1
    have hconnectives := fun m hm => (ih m hm).2
    constructor
    · intro ts hts
      exact isLexable_primary_of_below hprimary hconnectives hts
    · intro strength left ts hleft hts
      exact isLexable_connectives_of_below hprimary hconnectives strength hleft hts

/-- A formula that is read has names that the notation knows. -/
theorem isLexable_expression (limit last n strength : Nat) {ts : List Located}
    (hts : AllLexable ts) : (expression limit last n strength ts).IsLexable := by
  obtain ⟨hprimary, hconnectives⟩ := isLexable_primary_and_connectives limit last n
  exact (hprimary ts hts).andThen (hconnectives strength)

/-! ### Formulas and faults -/

/-- The formula `f` with the tokens `rest` after it if `need` levels are among the `n` that are
left, and a fault otherwise. -/
def Reply.Returns (need n : Nat) (f : Formula) (rest : List Located) (r : Reply) : Prop :=
  need ≤ n ∧ r = .formula f rest [] ∨ n < need ∧ ∃ d rest' passed, r = .fault d rest' passed

@[simp] theorem Reply.after_nil (r : Reply) : r.after [] = r := by
  cases r <;> rfl

namespace Reply.Returns

variable {need n : Nat} {f : Formula} {rest : List Located} {r : Reply}

theorem eq_formula (h : r.Returns need n f rest) (hle : need ≤ n) : r = .formula f rest [] := by
  rcases h with ⟨_, heq⟩ | ⟨hlt, _⟩
  · exact heq
  · exact absurd hle (Nat.not_le.mpr hlt)

theorem operand (h : r.Returns need n f rest) (c : Command) (offset : Nat)
    (build : Formula → Formula) : (r.operand c offset build).Returns need n (build f) rest := by
  rcases h with ⟨hle, rfl⟩ | ⟨hlt, d, rest', passed, rfl⟩
  · exact .inl ⟨hle, rfl⟩
  · exact .inr ⟨hlt, d, rest', passed, rfl⟩

theorem closed {offset' : Nat} (h : r.Returns need n f (⟨.closeParen, offset'⟩ :: rest))
    (offset : Nat) : (r.closed offset).Returns need n f rest := by
  rcases h with ⟨hle, rfl⟩ | ⟨hlt, d, rest', passed, rfl⟩
  · exact .inl ⟨hle, rfl⟩
  · exact .inr ⟨hlt, d, rest', passed, rfl⟩

/-- What follows the formula takes levels of its own. -/
theorem andThen {need' : Nat} {g : Formula} {rest' : List Located}
    {next : Formula → List Located → Reply} (h : r.Returns need n f rest)
    (hnext : (next f rest).Returns need' n g rest') :
    (r.andThen next).Returns (max need need') n g rest' := by
  rcases h with ⟨hle, rfl⟩ | ⟨hlt, d, rest'', passed, rfl⟩
  · -- the formula is read, and so what follows decides
    rw [Reply.andThen, after_nil]
    rcases hnext with ⟨hle', heq⟩ | ⟨hlt', hfault⟩
    · exact .inl ⟨by omega, heq⟩
    · exact .inr ⟨by omega, hfault⟩
  · exact .inr ⟨by omega, d, rest'', passed, rfl⟩

/-- What is read on the level below takes one level more. -/
theorem deeper (r : Nat → Reply) (hzero : ∃ d rest' passed, r 0 = .fault d rest' passed)
    (hsucc : ∀ n, (r (n + 1)).Returns need n f rest) : (r n).Returns (1 + need) n f rest := by
  cases n with
  | zero => exact .inr ⟨by omega, hzero⟩
  | succ n =>
    rcases hsucc n with ⟨hle, heq⟩ | ⟨hlt, hfault⟩
    · exact .inl ⟨by omega, heq⟩
    · exact .inr ⟨by omega, hfault⟩

end Reply.Returns

/-! ### Written formulas -/

section Written

variable {limit last : Nat}

/-- At the end no formula is read. -/
theorem Reply.Returns.frontToken_ne_eof {need n strength : Nat} {f : Formula}
    {ts rest : List Located}
    (h : (expression limit last n strength ts).Returns need n f rest) : frontToken ts ≠ .eof := by
  intro hfront
  -- no primary starts with the end, which is left where it is
  have hnothing : primary limit last n ts = .nothing ts [] := by
    unfold primary
    cases ts with
    | nil => rfl
    | cons t ts =>
      obtain ⟨token, offset⟩ := t
      obtain rfl : token = .eof := hfront
      rfl
  rw [expression, hnothing] at h
  rcases h with ⟨_, heq⟩ | ⟨_, _, _, _, heq⟩
  · cases heq
  · cases heq

/-- Before any other tokens, the tokens `us` are read as the primary `f`. -/
def ReadsPrimary (limit last need : Nat) (f : Formula) (us : List Token) : Prop :=
  ∀ (n : Nat) (ts rest : List Located), ts.map Located.token = us →
    (primary limit last n (ts ++ rest)).Returns need n f rest

/-- No connective stands at the front. -/
def Stops (ts : List Located) : Prop :=
  ∀ op offset rest, ts ≠ ⟨.command (.connective op), offset⟩ :: rest

/-- Before tokens that do not go on with a connective, the tokens `us` are read as the expression
`f`. -/
def ReadsExpression (limit last strength need : Nat) (f : Formula) (us : List Token) : Prop :=
  ∀ (n : Nat) (ts rest : List Located), ts.map Located.token = us → Stops rest →
    (expression limit last n strength (ts ++ rest)).Returns need n f rest

theorem connectives_of_stops {n strength : Nat} {left : Formula} {ts : List Located}
    (h : Stops ts) : connectives limit last n strength left ts = .formula left ts [] := by
  unfold connectives
  split
  · rename_i op offset rest
    exact absurd rfl (h op offset rest)
  · rfl

/-- A connective that is strong enough takes one level for itself, its right operand and the chain
that goes on after this operand. -/
theorem Reply.Returns.join {need need' strength offset : Nat} {op : Connective}
    {left right f : Formula} {ts rest rest' : List Located} (hstrength : strength ≤ op.precedence)
    (hright : ∀ n, (expression limit last n op.rightStrength ts).Returns need n right rest)
    (hnext : ∀ n, (connectives limit last n strength (.binary op left right) rest).Returns
      need' n f rest') (n : Nat) :
    (connectives limit last n strength left
      (⟨.command (.connective op), offset⟩ :: ts)).Returns (1 + max need need') n f rest' := by
  refine Reply.Returns.deeper (fun n => connectives limit last n strength left
    (⟨.command (.connective op), offset⟩ :: ts)) ?_ (fun n => ?_)
  · exact ⟨_, _, _, by unfold connectives; rw [if_pos hstrength]⟩
  · have hright := hright n
    unfold expression at hright
    unfold connectives
    rw [if_pos hstrength]
    rcases hright with ⟨hle, heq⟩ | ⟨hlt, d, rest'', passed, heq⟩
    · -- the right operand is read, and so what follows decides
      simp only [heq, after_nil]
      rcases hnext n with ⟨hle', heq'⟩ | ⟨hlt', hfault⟩
      · exact .inl ⟨by omega, heq'⟩
      · exact .inr ⟨by omega, hfault⟩
    · simp only [heq]
      exact .inr ⟨by omega, d, rest'', passed, rfl⟩

variable {need : Nat} {f : Formula} {us : List Token}

/-- A primary is an expression of any strength. -/
theorem ReadsPrimary.readsExpression (h : ReadsPrimary limit last need f us) (strength : Nat) :
    ReadsExpression limit last strength need f us := by
  intro n ts rest hts hrest
  have hread : (expression limit last n strength (ts ++ rest)).Returns (max need 0) n f rest :=
    (h n ts rest hts).andThen (.inl ⟨Nat.zero_le n, connectives_of_stops hrest⟩)
  rwa [Nat.max_zero] at hread

theorem exists_eq_cons_of_map {t : Token} {ts : List Located}
    (h : ts.map Located.token = t :: us) :
    ∃ offset ts', ts = ⟨t, offset⟩ :: ts' ∧ ts'.map Located.token = us := by
  obtain ⟨⟨token, offset⟩, ts', rfl, rfl, hts'⟩ := List.map_eq_cons_iff.mp h
  exact ⟨offset, ts', rfl, hts'⟩

theorem readsPrimary_prop (p : String) (args : List String) (text : String) :
    ReadsPrimary limit last 0 (.prop p (args.map .var)) [.prop p args text] := by
  intro n ts rest hts
  obtain ⟨offset, ts', rfl, hts'⟩ := exists_eq_cons_of_map hts
  obtain rfl := List.map_eq_nil_iff.mp hts'
  refine .inl ⟨Nat.zero_le n, ?_⟩
  unfold primary
  rfl

theorem readsPrimary_var (x : String) : ReadsPrimary limit last 0 (.var x) [.var x] := by
  intro n ts rest hts
  obtain ⟨offset, ts', rfl, hts'⟩ := exists_eq_cons_of_map hts
  obtain rfl := List.map_eq_nil_iff.mp hts'
  refine .inl ⟨Nat.zero_le n, ?_⟩
  unfold primary
  rfl

theorem ReadsPrimary.neg (h : ReadsPrimary limit last need f us) :
    ReadsPrimary limit last (1 + need) (.neg f) (.command .neg :: us) := by
  intro n ts' rest hts'
  obtain ⟨offset, ts, rfl, hts⟩ := exists_eq_cons_of_map hts'
  refine Reply.Returns.deeper
    (fun n => primary limit last n (⟨.command .neg, offset⟩ :: (ts ++ rest))) ?_ fun n => ?_
  · exact ⟨_, _, _, by unfold primary; rfl⟩
  · -- no token stands before the negation that could be passed over
    have hoperand := (h n ts rest hts).operand .neg offset .neg
    rw [← Reply.after_nil (Reply.operand ..)] at hoperand
    unfold primary
    exact hoperand

theorem ReadsPrimary.quant (h : ReadsPrimary limit last need f us) (q : Quantifier) (x : String) :
    ReadsPrimary limit last (1 + need) (.quant q x f)
      (.command (.quantifier q) :: .var x :: us) := by
  intro n ts₀ rest hts₀
  obtain ⟨offset, ts₁, rfl, hts₁⟩ := exists_eq_cons_of_map hts₀
  obtain ⟨offset', ts, rfl, hts⟩ := exists_eq_cons_of_map hts₁
  refine Reply.Returns.deeper (fun n => primary limit last n
    (⟨.command (.quantifier q), offset⟩ :: ⟨.var x, offset'⟩ :: (ts ++ rest))) ?_ fun n => ?_
  · exact ⟨_, _, _, by unfold primary; rfl⟩
  · have hbody := (h n ts rest hts).operand (.quantifier q) offset (.quant q x)
    rw [← Reply.after_nil (Reply.operand ..)] at hbody
    unfold primary
    exact hbody

/-- An expression in parentheses is a primary, for one level more. -/
theorem ReadsExpression.inParentheses (h : ReadsExpression limit last 0 need f us) :
    ReadsPrimary limit last (1 + need) f (.openParen :: (us ++ [.closeParen])) := by
  intro n ts₀ rest hts₀
  obtain ⟨offset, ts₁, rfl, hts₁⟩ := exists_eq_cons_of_map hts₀
  obtain ⟨ts, closing, rfl, hts, hclosing⟩ := List.map_eq_append_iff.mp hts₁
  obtain ⟨offset', ts', rfl, hts'⟩ := exists_eq_cons_of_map hclosing
  obtain rfl := List.map_eq_nil_iff.mp hts'
  -- the closing parenthesis ends the expression, whatever stands after it
  have hstops : Stops (⟨.closeParen, offset'⟩ :: rest) := nofun
  rw [List.cons_append, List.append_assoc, List.singleton_append]
  refine Reply.Returns.deeper (fun n => primary limit last n
    (⟨.openParen, offset⟩ :: (ts ++ ⟨.closeParen, offset'⟩ :: rest))) ?_ fun n => ?_
  · exact ⟨_, _, _, by unfold primary; rfl⟩
  · have hinner := (h n ts (⟨.closeParen, offset'⟩ :: rest) hts hstops).closed offset
    rw [← Reply.after_nil (Reply.closed ..)] at hinner
    unfold primary
    exact hinner

/-- A connective after a primary takes one level for itself and its right operand. -/
theorem ReadsPrimary.binary {need' strength : Nat} {op : Connective} {g : Formula}
    {vs : List Token} (hf : ReadsPrimary limit last need f us)
    (hg : ReadsExpression limit last op.rightStrength need' g vs)
    (hstrength : strength ≤ op.precedence) :
    ReadsExpression limit last strength (max need (1 + need')) (.binary op f g)
      (us ++ .command (.connective op) :: vs) := by
  intro n ts₀ rest hts₀ hrest
  obtain ⟨ts, ts₁, rfl, hts, hts₁⟩ := List.map_eq_append_iff.mp hts₀
  obtain ⟨offset, ts', rfl, hts'⟩ := exists_eq_cons_of_map hts₁
  rw [List.append_assoc, List.cons_append]
  refine Reply.Returns.andThen (hf n ts _ hts) ?_
  -- after the right operand no connective is left to join
  have hjoined : (connectives limit last n strength f
      (⟨.command (.connective op), offset⟩ :: (ts' ++ rest))).Returns (1 + max need' 0) n
        (.binary op f g) rest :=
    .join hstrength (fun n => hg n ts' rest hts' hrest)
      (fun n => .inl ⟨Nat.zero_le n, connectives_of_stops hrest⟩) n
  rwa [Nat.max_zero] at hjoined

/-- The tokens of a written formula are read as the formula: as a primary unless it is an
application of a connective, and as an expression of any strength that this connective has. -/
structure ReadsBack (limit last : Nat) (f : Formula) : Prop where
  primary : f.isBinary = false → ReadsPrimary limit last f.nesting f f.tokens
  expression : ∀ strength, (∀ op l r, f = .binary op l r → strength ≤ op.precedence) →
    ReadsExpression limit last strength f.nesting f f.tokens

namespace ReadsBack

theorem of_primary (h : ReadsPrimary limit last f.nesting f f.tokens) : ReadsBack limit last f :=
  ⟨fun _ => h, fun strength _ => h.readsExpression strength⟩

/-- In parentheses any connective may be at the root. -/
theorem inParentheses (h : ReadsBack limit last f) :
    ReadsPrimary limit last (1 + f.nesting) f (.openParen :: (f.tokens ++ [.closeParen])) :=
  (h.expression 0 fun _ _ _ _ => Nat.zero_le _).inParentheses

/-- What is written in parentheses at least if it is an application of a connective is a primary. -/
theorem operand (h : ReadsBack limit last f) {wanted : Bool}
    (hwanted : wanted = false → f.isBinary = false) :
    ReadsPrimary limit last (wanted.toNat + f.nesting) f
      (Formula.parenthesizeTokens wanted f.tokens) := by
  cases wanted with
  | false =>
    rw [Bool.toNat_false, Nat.zero_add]
    exact h.primary (hwanted rfl)
  | true => exact h.inParentheses

/-- A left operand is a primary, as connectives are written in parentheses there. -/
theorem leftOperand (h : ReadsBack limit last f) (op : Connective) :
    ReadsPrimary limit last ((f.needsParentheses op .left).toNat + f.nesting) f
      (Formula.parenthesizeTokens (f.needsParentheses op .left) f.tokens) := by
  refine h.operand fun hbare => ?_
  cases f with
  -- a connective without parentheses stands on the right
  | binary => cases (Formula.eq_of_not_needsParentheses hbare).1
  | prop | var | neg | quant => rfl

/-- A right operand is an expression of the strength that is asked for there: a connective that is
written bare is the one that groups to the right. -/
theorem rightOperand (h : ReadsBack limit last f) (op : Connective) :
    ReadsExpression limit last op.rightStrength
      ((f.needsParentheses op .right).toNat + f.nesting) f
      (Formula.parenthesizeTokens (f.needsParentheses op .right) f.tokens) := by
  cases hneeds : f.needsParentheses op .right with
  | false =>
    rw [Bool.toNat_false, Nat.zero_add]
    refine h.expression op.rightStrength fun op' l r hf => ?_
    rw [hf] at hneeds
    obtain ⟨-, hassoc, hprecedence⟩ := Formula.eq_of_not_needsParentheses hneeds
    exact Nat.le_of_eq ((if_pos hassoc).trans hprecedence.symm)
  | true => exact h.inParentheses.readsExpression op.rightStrength

end ReadsBack

/-- A formula that can be written is read back from its tokens. -/
theorem readsBack {f : Formula} (hf : f.isLexable) : ReadsBack limit last f := by
  -- Induction on the formula. Only a connective at the root is no primary, and it is the only case
  -- in which the strength that is asked for matters.
  induction f with
  | prop p args =>
    rw [Formula.isLexable, Bool.and_eq_true] at hf
    have hprimary : ReadsPrimary limit last 0 (.prop p ((Term.renderAll args).map .var))
        (Formula.prop p args).tokens :=
      readsPrimary_prop p _ _
    rw [Formula.map_var_renderAll hf.2] at hprimary
    exact .of_primary hprimary
  | var x => exact .of_primary (readsPrimary_var x)
  | neg f ih =>
    have hneg := ((ih hf).operand fun hbinary => hbinary).neg
    rw [← Nat.add_assoc] at hneg
    exact .of_primary hneg
  | binary op l r ihl ihr =>
    rw [Formula.isLexable, Bool.and_eq_true] at hf
    refine ⟨fun hbinary => (by cases hbinary), fun strength hstrength => ?_⟩
    have hbinary :=
      ((ihl hf.1).leftOperand op).binary ((ihr hf.2).rightOperand op) (hstrength op l r rfl)
    rw [← Nat.add_assoc] at hbinary
    exact hbinary
  | quant q x f ih =>
    rw [Formula.isLexable, Bool.and_eq_true] at hf
    have hquant := ((ih hf.2).operand fun hbinary => hbinary).quant q x
    rw [← Nat.add_assoc] at hquant
    exact .of_primary hquant

end Written

end ClausalForm.Reading
