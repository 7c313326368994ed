import ClausalForm.Proofs.Program.Parsing

/-!
# Chains

The connectives after a formula are joined one by one, until none is left that is strong enough. The
levels that the left operand of a connective took are free again when the connective is joined to
it. So a chain in which a connective that groups to the left joins one atom after the other to a
formula takes a level for each atom, whatever the formula took.

## Main definitions

* `Reading.ChainReply`: one step of a chain, and what is left to do
* `Reading.chainAtoms`, `Reading.chainTokens`: a formula with atoms joined to it, and their tokens

## Main results

* `Reading.chainReply_connectives`: reading a chain takes such steps
* `Reading.endsChain_of_expression`: where an expression comes to an end
* `Reading.returns_chainTokens`: the levels that joining atoms takes
-/

namespace ClausalForm

/-- No connective is left where even a biconditional would have been joined. -/
theorem EndsChain.of_one {s : Nat} {us : List Token} (h : EndsChain 1 us) : EndsChain s us := by
  intro op vs hus
  have hlt := h op vs hus
  cases op <;> exact absurd hlt (by decide)

namespace Reading

variable {limit last n s : Nat}

/-! ### Where an expression ends -/

theorem leavesEnd_expression (limit last n s : Nat) (ts : List Located) :
    (expression limit last n s ts).LeavesEnd :=
  (attempt limit last n (.expression s) ts).leavesEnd.1

theorem endsChain_of_frontToken {ts : List Located} (h : frontToken ts = .eof) :
    EndsChain s (ts.map Located.token) := by
  cases ts with
  | nil => nofun
  | cons t ts =>
    refine .of_not_connective ?_ _
    rw [show t.token = .eof from h]
    nofun

theorem Reply.exists_of_after_eq_formula {r : Reply} {f : Formula} {rest : List Located}
    {ds passed : List Diagnostic} (h : r.after ds = .formula f rest passed) :
    ∃ passed', r = .formula f rest passed' := by
  cases r <;> cases h
  exact ⟨_, rfl⟩

/-- What reading the connectives after `left` comes to. -/
inductive ChainReply (limit last s : Nat) (left : Formula) :
    (n : Nat) → (ts : List Located) → Reply → Prop
  /-- No connective can be joined: none follows, or one that is not strong enough, or one without
  a right operand in front of the end. -/
  | stop {n : Nat} {ts rest : List Located} {passed : List Diagnostic}
    (hends : EndsChain s (rest.map Located.token)) :
    ChainReply limit last s left n ts (.formula left rest passed)
  /-- A fault in a right operand, or no level left for it. -/
  | fault {n : Nat} {ts rest : List Located} {d : Diagnostic} {passed : List Diagnostic} :
    ChainReply limit last s left n ts (.fault d rest passed)
  /-- A connective is joined, and the chain goes on. -/
  | join {n offset : Nat} {op : Connective} {right : Formula} {rest rest' : List Located}
    {passed : List Diagnostic} (hs : s ≤ op.precedence)
    (hright : expression limit last n op.rightStrength rest = .formula right rest' passed) :
    ChainReply limit last s left (n + 1) (⟨.command (.connective op), offset⟩ :: rest)
      ((connectives limit last n s (.binary op left right) rest').after passed)

theorem chainReply_connectives (limit last n s : Nat) (left : Formula) (ts : List Located) :
    ChainReply limit last s left n ts (connectives limit last n s left ts) := by
  unfold connectives
  split
  · rename_i op offset rest
    split
    · rename_i hstrength
      cases n with
      | zero => exact .fault
      | succ n =>
        have hend := leavesEnd_expression limit last n op.rightStrength rest
        cases hright : expression limit last n op.rightStrength rest with
        | formula right rest' passed =>
          have hjoin : ChainReply limit last s left (n + 1)
              (⟨.command (.connective op), offset⟩ :: rest) _ := .join hstrength hright
          rw [expression] at hright
          simpa only [hright] using hjoin
        | nothing rest' passed =>
          rw [hright] at hend
          rw [expression] at hright
          simp only [hright]
          exact .stop (endsChain_of_frontToken (hend rfl))
        | fault =>
          rw [expression] at hright
          simp only [hright]
          exact .fault
    · rename_i hstrength
      exact .stop (EndsChain.cons_connective_iff.mpr (Nat.lt_of_not_le hstrength))
  · rename_i hfront
    exact .stop (Stops.endsChain fun op offset rest heq => hfront op offset rest heq)

/-- After a chain no connective is left that could have been joined. -/
theorem endsChain_of_connectives {left f : Formula} {ts rest : List Located}
    {passed : List Diagnostic} (h : connectives limit last n s left ts = .formula f rest passed) :
    EndsChain s (rest.map Located.token) := by
  induction n using Nat.strongRecOn generalizing left ts passed with
  | ind n ih =>
    have hreply := chainReply_connectives limit last n s left ts
    generalize hr : connectives limit last n s left ts = r at hreply h
    cases hreply with
    | stop hends =>
      cases h
      exact hends
    | fault => cases h
    | join =>
      obtain ⟨_, hnext⟩ := Reply.exists_of_after_eq_formula h
      exact ih _ (Nat.lt_succ_self _) hnext

/-- After an expression no connective is left that could have been joined. -/
theorem endsChain_of_expression {f : Formula} {ts rest : List Located} {passed : List Diagnostic}
    (h : expression limit last n s ts = .formula f rest passed) :
    EndsChain s (rest.map Located.token) := by
  rw [expression] at h
  cases hprimary : primary limit last n ts with
  | formula g mid passed' =>
    rw [hprimary] at h
    obtain ⟨_, hnext⟩ := Reply.exists_of_after_eq_formula h
    exact endsChain_of_connectives hnext
  | nothing | fault =>
    rw [hprimary] at h
    cases h

/-! ### Chains of atoms -/

/-- The formula with `k` atoms joined to it, one after the other. -/
def chainAtoms (op : Connective) (f : Formula) : Nat → Formula
  | 0 => f
  | k + 1 => chainAtoms op (.binary op f (.prop "P" [])) k

/-- The tokens that join `k` atoms to what is before them. -/
def chainTokens (op : Connective) : Nat → List Token
  | 0 => []
  | k + 1 => .command (.connective op) :: .prop "P" [] "P" :: chainTokens op k

variable {op : Connective}

/-- Tokens that are read as a primary are a whole expression before tokens that end it. -/
theorem ReadsPrimary.expression_append {need strength : Nat} {f : Formula} {us : List Token}
    (h : ReadsPrimary limit last need f us) {ts rest : List Located}
    (hts : ts.map Located.token = us) (hrest : EndsChain strength (rest.map Located.token)) :
    (expression limit last n strength (ts ++ rest)).Returns need n f rest := by
  have hread : (expression limit last n strength (ts ++ rest)).Returns (max need 0) n f rest :=
    (h n ts rest hts).andThen (.inl ⟨Nat.zero_le n, connectives_of_ends hrest⟩)
  rwa [Nat.max_zero] at hread

theorem endsChain_chainTokens {us : List Token} {strength : Nat}
    (hstrength : op.precedence < strength) (hus : EndsChain strength us) (k : Nat) :
    EndsChain strength (chainTokens op k ++ us) := by
  cases k with
  | zero => exact hus
  | succ k => exact EndsChain.cons_connective_iff.mpr hstrength

/-- Joining atoms by a connective that groups to the left takes a level for each of them. -/
theorem returns_chainTokens (hop : op.isRightAssociative = false) {strength k : Nat}
    (hstrength : strength ≤ op.precedence) {left : Formula} {ts rest : List Located}
    (hts : ts.map Located.token = chainTokens op k)
    (hrest : EndsChain strength (rest.map Located.token)) :
    (connectives limit last n strength left (ts ++ rest)).Returns k n (chainAtoms op left k)
      rest := by
  induction k generalizing n left ts with
  | zero =>
    obtain rfl := List.map_eq_nil_iff.mp hts
    exact .inl ⟨Nat.zero_le n, connectives_of_ends hrest⟩
  | succ k ih =>
    obtain ⟨offset, ts₁, rfl, hts₁⟩ := exists_eq_cons_of_map hts
    obtain ⟨offset', ts₂, rfl, hts₂⟩ := exists_eq_cons_of_map hts₁
    -- the atom is the whole right operand: what goes on after it is the chain
    have hright : op.rightStrength = op.precedence + 1 := if_neg (by simp [hop])
    have hends : EndsChain op.rightStrength ((ts₂ ++ rest).map Located.token) := by
      rw [List.map_append, hts₂, hright]
      exact endsChain_chainTokens (Nat.lt_succ_self _) (hrest.mono (by omega)) k
    have hatom (n : Nat) : (expression limit last n op.rightStrength
        (⟨.prop "P" [] "P", offset'⟩ :: (ts₂ ++ rest))).Returns 0 n (.prop "P" []) (ts₂ ++ rest) :=
      (readsPrimary_prop "P" [] "P").expression_append (show [_].map Located.token = _ from rfl)
        hends
    have hchain : (connectives limit last n strength left (⟨.command (.connective op), offset⟩ ::
        ⟨.prop "P" [] "P", offset'⟩ :: (ts₂ ++ rest))).Returns (1 + max 0 k) n
          (chainAtoms op (.binary op left (.prop "P" [])) k) rest :=
      .join hstrength hatom (fun n => ih hts₂) n
    rwa [Nat.zero_max, Nat.add_comm] at hchain

/-- A primary and the atoms that are joined to it share their levels. -/
theorem ReadsPrimary.readsExpression_chain {need : Nat} {f : Formula} {us : List Token}
    (h : ReadsPrimary limit last need f us) (op : Connective) (hop : op.isRightAssociative = false)
    (k : Nat) :
    ReadsExpression limit last 0 (max need k) (chainAtoms op f k) (us ++ chainTokens op k) := by
  intro n ts rest hts hrest
  obtain ⟨ts₁, ts₂, rfl, hts₁, hts₂⟩ := List.map_eq_append_iff.mp hts
  rw [List.append_assoc]
  exact (h n ts₁ (ts₂ ++ rest) hts₁).andThen
    (returns_chainTokens hop (Nat.zero_le _) hts₂ hrest.endsChain)

end Reading

end ClausalForm
