import ClausalForm.Formula
import ClausalForm.Token

/-!
# The grammar of formulas

The phrases of the notation, from the primaries down to chains of the loosest connective, as
derivation trees. A chain of a connective has the phrases of the next tighter level as its operands.
Conjunctions and disjunctions are grouped to the left, implications and biconditionals to the right.
A phrase is determined by its tokens, also where other tokens follow.

## Main definitions

* `Category`, `Phrase`: the levels of the grammar, and its derivations
* `Phrase.tokens`, `Phrase.formula`: what a phrase is written with, and what it says
* `Phrase.group`: a chain from its operands
* `EndsChain`: tokens before which a phrase comes to an end

## Main results

* `Phrase.operandInduction`: induction over primaries and over chains with their operands
* `Phrase.append_inj`: a phrase is determined by its tokens
* `Phrase.flatMap_tokens_inj`: so is a sequence of phrases
-/

namespace ClausalForm

/-- The levels of the grammar: primaries, and chains of one connective. -/
inductive Category where
  | primary
  | chain (op : Connective)
deriving DecidableEq, Repr

/-- The level that the operands of a chain belong to. -/
def Connective.operand : Connective → Category
  | conj => .primary
  | disj => .chain .conj
  | implies => .chain .disj
  | iff => .chain .implies

/-- The derivations of the grammar. -/
inductive Phrase : Category → Type where
  /-- A proposition with its arguments. -/
  | prop (name : String) (args : List String) (text : String) : Phrase .primary
  /-- A variable that stands as a formula. -/
  | var (x : String) : Phrase .primary
  /-- A negation, which scopes over one primary. -/
  | neg (p : Phrase .primary) : Phrase .primary
  /-- A quantifier with its variable, which scopes over one primary. -/
  | quant (q : Quantifier) (x : String) (p : Phrase .primary) : Phrase .primary
  /-- A chain of the loosest connective in parentheses. -/
  | parens (p : Phrase (.chain .iff)) : Phrase .primary
  /-- A chain of a single operand. -/
  | single {op : Connective} (p : Phrase op.operand) : Phrase (.chain op)
  /-- A chain that is grouped to the left, and one more operand. -/
  | joinLeft {op : Connective} (h : op.isRightAssociative = false) (l : Phrase (.chain op))
    (r : Phrase op.operand) : Phrase (.chain op)
  /-- An operand, and a chain that is grouped to the right. -/
  | joinRight {op : Connective} (h : op.isRightAssociative = true) (l : Phrase op.operand)
    (r : Phrase (.chain op)) : Phrase (.chain op)

namespace Phrase

/-- The tokens that a phrase is written with. -/
def tokens {c : Category} : Phrase c → List Token
  | prop name args text => [.prop name args text]
  | var x => [.var x]
  | neg p => .command .neg :: p.tokens
  | quant q x p => .command (.quantifier q) :: .var x :: p.tokens
  | parens p => .openParen :: (p.tokens ++ [.closeParen])
  | single p => p.tokens
  | @joinLeft op _ l r => l.tokens ++ .command (.connective op) :: r.tokens
  | @joinRight op _ l r => l.tokens ++ .command (.connective op) :: r.tokens

/-- The formula that a phrase says. -/
def formula {c : Category} : Phrase c → Formula
  | prop name args _ => .prop name (args.map .var)
  | var x => .var x
  | neg p => .neg p.formula
  | quant q x p => .quant q x p.formula
  | parens p => p.formula
  | single p => p.formula
  | @joinLeft op _ l r => .binary op l.formula r.formula
  | @joinRight op _ l r => .binary op l.formula r.formula

/-- A phrase starts with something else than a connective. -/
theorem exists_tokens_eq_cons {c : Category} (p : Phrase c) :
    ∃ t us, p.tokens = t :: us ∧ ∀ op, t ≠ .command (.connective op) := by
  induction p with
  | prop | var | neg | quant | parens => exact ⟨_, _, rfl, nofun⟩
  | single p ih => exact ih
  | joinLeft h l r ihl | joinRight h l r ihl =>
    obtain ⟨t, us, htokens, ht⟩ := ihl
    rw [tokens, htokens]
    exact ⟨t, _, rfl, ht⟩

theorem eof_not_mem_tokens {c : Category} (p : Phrase c) : Token.eof ∉ p.tokens := by
  induction p with
  | prop | var => simp [tokens]
  | neg p ih | quant q x p ih | parens p ih => simp [tokens, ih]
  | single p ih => exact ih
  | joinLeft h l r ihl ihr | joinRight h l r ihl ihr => simp [tokens, ihl, ihr]

/-! ### Chains -/

section Group

variable {op : Connective}

/-- A chain that is grouped to the right, from its operands. -/
def groupRight (h : op.isRightAssociative = true) :
    (x : Phrase op.operand) → List (Phrase op.operand) → Phrase (.chain op)
  | x, [] => single x
  | x, y :: ys => joinRight h x (groupRight h y ys)

/-- A chain from its operands, the first of them apart. -/
def group (op : Connective) (x : Phrase op.operand) (xs : List (Phrase op.operand)) :
    Phrase (.chain op) :=
  match h : op.isRightAssociative with
  | true => groupRight h x xs
  | false => xs.foldl (joinLeft h) (single x)

theorem group_of_left (h : op.isRightAssociative = false) (x : Phrase op.operand)
    (xs : List (Phrase op.operand)) : group op x xs = xs.foldl (joinLeft h) (single x) := by
  unfold group
  split
  · rename_i h'
    cases h.symm.trans h'
  · rfl

theorem group_of_right (h : op.isRightAssociative = true) (x : Phrase op.operand)
    (xs : List (Phrase op.operand)) : group op x xs = groupRight h x xs := by
  unfold group
  split
  · rfl
  · rename_i h'
    cases h.symm.trans h'

theorem group_nil (x : Phrase op.operand) : group op x [] = single x := by
  cases h : op.isRightAssociative with
  | true => exact group_of_right h x []
  | false => exact group_of_left h x []

theorem joinLeft_group (h : op.isRightAssociative = false) (x r : Phrase op.operand)
    (xs : List (Phrase op.operand)) : joinLeft h (group op x xs) r = group op x (xs ++ [r]) := by
  rw [group_of_left h, group_of_left h, List.foldl_append]
  rfl

theorem joinRight_group (h : op.isRightAssociative = true) (l x : Phrase op.operand)
    (xs : List (Phrase op.operand)) : joinRight h l (group op x xs) = group op l (x :: xs) := by
  rw [group_of_right h, group_of_right h]
  rfl

/-- The tokens of operands, each of them after the connective. -/
def operandTokens (xs : List (Phrase op.operand)) : List Token :=
  xs.flatMap fun x => .command (.connective op) :: x.tokens

theorem operandTokens_cons (x : Phrase op.operand) (xs : List (Phrase op.operand)) :
    operandTokens (x :: xs) = .command (.connective op) :: (x.tokens ++ operandTokens xs) := rfl

theorem tokens_foldl_joinLeft (h : op.isRightAssociative = false) (l : Phrase (.chain op))
    (xs : List (Phrase op.operand)) :
    (xs.foldl (joinLeft h) l).tokens = l.tokens ++ operandTokens xs := by
  induction xs generalizing l with
  | nil => exact (List.append_nil _).symm
  | cons x xs ih => rw [List.foldl_cons, ih, tokens, operandTokens_cons, List.append_assoc]; rfl

/-- The tokens of a chain are those of its operands with the connective between them. -/
theorem tokens_group (x : Phrase op.operand) (xs : List (Phrase op.operand)) :
    (group op x xs).tokens = x.tokens ++ operandTokens xs := by
  cases h : op.isRightAssociative with
  | false =>
    rw [group_of_left h]
    exact tokens_foldl_joinLeft h (single x) xs
  | true =>
    induction xs generalizing x with
    | nil =>
      rw [group_nil]
      exact (List.append_nil _).symm
    | cons y ys ih => rw [← joinRight_group h, tokens, ih, operandTokens_cons]

end Group

/-- What is true of every phrase of a level by way of its operands. -/
def ByOperands (motive : (c : Category) → Phrase c → Prop) : (c : Category) → Phrase c → Prop
  | .primary, p => motive .primary p
  | .chain op, p => ∃ x xs, p = group op x xs ∧ ∀ y ∈ x :: xs, motive op.operand y

/-- Induction over primaries, and over chains with all their operands at once. -/
theorem operandInduction {motive : (c : Category) → Phrase c → Prop}
    (prop : ∀ name args text, motive .primary (prop name args text))
    (var : ∀ x, motive .primary (var x))
    (neg : ∀ p, motive .primary p → motive .primary (neg p))
    (quant : ∀ q x p, motive .primary p → motive .primary (quant q x p))
    (parens : ∀ p, motive (.chain .iff) p → motive .primary (parens p))
    (group : ∀ op x xs, (∀ y ∈ x :: xs, motive op.operand y) →
      motive (.chain op) (group op x xs))
    {c : Category} (p : Phrase c) : motive c p := by
  have hmotive {c : Category} {p : Phrase c} (h : ByOperands motive c p) : motive c p := by
    cases c with
    | primary => exact h
    | chain op =>
      obtain ⟨x, xs, rfl, hxs⟩ := h
      exact group op x xs hxs
  refine hmotive ?_
  induction p with
  | prop name args text => exact prop name args text
  | var x => exact var x
  | neg p ih => exact neg p ih
  | quant q x p ih => exact quant q x p ih
  | parens p ih => exact parens p (hmotive ih)
  | single p ih => exact ⟨p, [], (group_nil p).symm, by simpa using hmotive ih⟩
  | joinLeft h l r ihl ihr =>
    obtain ⟨x, xs, rfl, hxs⟩ := ihl
    refine ⟨x, xs ++ [r], joinLeft_group h x r xs, fun y hy => ?_⟩
    rw [← List.cons_append, List.mem_append, List.mem_singleton] at hy
    rcases hy with hy | rfl
    · exact hxs y hy
    · exact hmotive ihr
  | joinRight h l r ihl ihr =>
    obtain ⟨x, xs, rfl, hxs⟩ := ihr
    refine ⟨l, x :: xs, joinRight_group h l x xs, fun y hy => ?_⟩
    rcases List.mem_cons.mp hy with rfl | hy
    · exact hmotive ihl
    · exact hxs y hy

theorem exists_eq_group {op : Connective} (p : Phrase (.chain op)) :
    ∃ x xs, p = group op x xs := by
  have h : ByOperands (fun _ _ => True) (.chain op) p :=
    operandInduction (motive := ByOperands fun _ _ => True) (fun _ _ _ => trivial)
      (fun _ => trivial) (fun _ _ => trivial) (fun _ _ _ _ => trivial) (fun _ _ => trivial)
      (fun _ x xs _ => ⟨x, xs, rfl, fun _ _ => trivial⟩) p
  obtain ⟨x, xs, hp, _⟩ := h
  exact ⟨x, xs, hp⟩

end Phrase

/-! ### Where phrases end -/

/-- The binding strength of a level: the least strength that a connective has outside parentheses,
and for primaries more than that of every connective. -/
def Category.strength : Category → Nat
  | primary => 5
  | chain op => op.precedence

@[simp] theorem Category.strength_primary : primary.strength = 5 := rfl

@[simp] theorem Category.strength_chain (op : Connective) :
    (chain op).strength = op.precedence := rfl

/-- The operands of a chain bind one step tighter than the chain. -/
theorem Connective.strength_operand (op : Connective) :
    op.operand.strength = op.precedence + 1 := by
  cases op <;> rfl

/-- A connective that stands at the front has less than the given strength. -/
def EndsChain (strength : Nat) (us : List Token) : Prop :=
  ∀ op vs, us = .command (.connective op) :: vs → op.precedence < strength

namespace EndsChain

variable {s s' : Nat} {us : List Token} {op : Connective}

theorem mono (h : EndsChain s us) (hs : s ≤ s') : EndsChain s' us :=
  fun op vs hus => Nat.lt_of_lt_of_le (h op vs hus) hs

theorem of_not_connective {t : Token} (ht : ∀ op, t ≠ .command (.connective op))
    (us : List Token) : EndsChain s (t :: us) := by
  intro op vs h
  cases h
  exact absurd rfl (ht op)

theorem closeParen (us : List Token) : EndsChain s (.closeParen :: us) :=
  of_not_connective (t := .closeParen) nofun us

theorem cons_connective_iff :
    EndsChain s (.command (.connective op) :: us) ↔ op.precedence < s := by
  refine ⟨fun h => h op us rfl, fun hop op' vs h => ?_⟩
  cases h
  exact hop

end EndsChain

namespace Phrase

/-- Operands go on with their connective, and so they end every operand before them. -/
theorem endsChain_operandTokens {op : Connective} {us : List Token}
    (hus : EndsChain op.precedence us) (xs : List (Phrase op.operand)) :
    EndsChain op.operand.strength (operandTokens xs ++ us) := by
  rw [op.strength_operand]
  cases xs with
  | nil => exact hus.mono (Nat.le_succ _)
  | cons x xs => exact EndsChain.cons_connective_iff.mpr (Nat.lt_succ_self _)

/-! ### Phrases from their tokens -/

/-- A phrase that is determined by its tokens, before any tokens that end it. -/
def IsDetermined (c : Category) (p : Phrase c) : Prop :=
  ∀ (q : Phrase c) (us vs : List Token), EndsChain c.strength us → EndsChain c.strength vs →
    p.tokens ++ us = q.tokens ++ vs → p = q ∧ us = vs

/-- Operands that are determined one by one are determined together. -/
theorem operands_inj {op : Connective} {xs ys : List (Phrase op.operand)} {us vs : List Token}
    (hxs : ∀ x ∈ xs, IsDetermined op.operand x) (hus : EndsChain op.precedence us)
    (hvs : EndsChain op.precedence vs) (h : operandTokens xs ++ us = operandTokens ys ++ vs) :
    xs = ys ∧ us = vs := by
  induction xs generalizing ys with
  | nil =>
    cases ys with
    | nil => exact ⟨rfl, h⟩
    | cons y ys => exact absurd (hus op _ h) (Nat.lt_irrefl _)
  | cons x xs ih =>
    cases ys with
    | nil => exact absurd (hvs op _ h.symm) (Nat.lt_irrefl _)
    | cons y ys =>
      rw [List.forall_mem_cons] at hxs
      simp only [operandTokens_cons, List.cons_append, List.append_assoc, List.cons.injEq,
        true_and] at h
      obtain ⟨rfl, hrest⟩ :=
        hxs.1 y _ _ (endsChain_operandTokens hus xs) (endsChain_operandTokens hvs ys) h
      obtain ⟨rfl, rfl⟩ := ih hxs.2 hrest
      exact ⟨rfl, rfl⟩

theorem isDetermined_group {op : Connective} {x : Phrase op.operand}
    {xs : List (Phrase op.operand)} (hxs : ∀ y ∈ x :: xs, IsDetermined op.operand y) :
    IsDetermined (.chain op) (group op x xs) := by
  intro q us vs hus hvs h
  obtain ⟨y, ys, rfl⟩ := q.exists_eq_group
  rw [tokens_group, tokens_group] at h
  -- one connective more at the front makes the first operand one of the others
  have hcons : operandTokens (x :: xs) ++ us = operandTokens (y :: ys) ++ vs := by
    rw [operandTokens_cons, operandTokens_cons, List.cons_append, h, List.cons_append]
  obtain ⟨hoperands, hrest⟩ := operands_inj hxs hus hvs hcons
  cases hoperands
  exact ⟨rfl, hrest⟩

theorem isDetermined {c : Category} (p : Phrase c) : IsDetermined c p := by
  induction p using operandInduction with
  | prop name args text =>
    intro q us vs _ _ h
    cases q <;> simp_all [tokens]
  | var x =>
    intro q us vs _ _ h
    cases q <;> simp_all [tokens]
  | neg p ih =>
    intro q us vs hus hvs h
    cases q with
    | neg q =>
      obtain ⟨rfl, hrest⟩ := ih q us vs hus hvs (List.cons.inj h).2
      exact ⟨rfl, hrest⟩
    | prop | var | quant | parens => cases h
  | quant q x p ih =>
    intro q' us vs hus hvs h
    cases q' with
    | quant q' x' p' =>
      injection h with hq h
      injection h with hx h
      obtain ⟨rfl, hrest⟩ := ih p' us vs hus hvs h
      cases hq
      cases hx
      exact ⟨rfl, hrest⟩
    | prop | var | neg | parens => cases h
  | parens p ih =>
    intro q us vs hus hvs h
    cases q with
    | parens q =>
      simp only [tokens, List.cons_append, List.append_assoc, List.cons.injEq, true_and] at h
      -- the closing parenthesis ends what is inside
      obtain ⟨rfl, hrest⟩ := ih q _ _ (.closeParen us) (.closeParen vs) h
      exact ⟨rfl, (List.cons.inj hrest).2⟩
    | prop | var | neg | quant => cases h
  | group op x xs ih => exact isDetermined_group ih

/-- A phrase is determined by its tokens, whatever tokens that end it come after them. -/
theorem append_inj {c : Category} {p q : Phrase c} {us vs : List Token}
    (hus : EndsChain c.strength us) (hvs : EndsChain c.strength vs)
    (h : p.tokens ++ us = q.tokens ++ vs) : p = q ∧ us = vs :=
  p.isDetermined q us vs hus hvs h

/-- Phrases one after the other end every phrase before them. -/
theorem endsChain_flatMap_tokens {c : Category} {s : Nat} (ps : List (Phrase c)) {us : List Token}
    (hus : EndsChain s us) : EndsChain s (ps.flatMap tokens ++ us) := by
  cases ps with
  | nil => exact hus
  | cons p ps =>
    obtain ⟨t, vs, htokens, ht⟩ := p.exists_tokens_eq_cons
    rw [List.flatMap_cons, htokens]
    exact .of_not_connective ht _

/-- A sequence of phrases is determined by its tokens. -/
theorem flatMap_tokens_inj {c : Category} {ps qs : List (Phrase c)}
    (h : ps.flatMap tokens = qs.flatMap tokens) : ps = qs := by
  have hends (rs : List (Phrase c)) : EndsChain c.strength (rs.flatMap tokens) := by
    rw [← List.append_nil (rs.flatMap tokens)]
    exact endsChain_flatMap_tokens rs nofun
  induction ps generalizing qs with
  | nil =>
    cases qs with
    | nil => rfl
    | cons q qs =>
      obtain ⟨t, us, htokens, -⟩ := q.exists_tokens_eq_cons
      rw [List.flatMap_nil, List.flatMap_cons, htokens] at h
      cases h
  | cons p ps ih =>
    cases qs with
    | nil =>
      obtain ⟨t, us, htokens, -⟩ := p.exists_tokens_eq_cons
      rw [List.flatMap_nil, List.flatMap_cons, htokens] at h
      cases h
    | cons q qs =>
      rw [List.flatMap_cons, List.flatMap_cons] at h
      obtain ⟨rfl, hrest⟩ := append_inj (hends ps) (hends qs) h
      rw [ih hrest]

end Phrase

end ClausalForm
