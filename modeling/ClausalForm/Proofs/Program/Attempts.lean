import ClausalForm.Proofs.Program.Grammar
import ClausalForm.Proofs.Program.Reading

/-!
# Attempts

What the reader does at the front of the tokens, one rule for each way of going on: the tokens that
it takes, what it asks for next, and the reply that it makes of the reply to that. Every reply comes
about by these rules, so what they preserve holds of all replies, and the functions that read need
not be opened again.

## Main definitions

* `Task`: what is to be read
* `Attempt`: the rules by which a task comes to its reply
* `Leaves`: what is left of tokens of which some have been taken
* `beforeEnd`, `fromEnd`: the tokens before the first end, and the others

## Main results

* `attempt`: the reply to every task comes about by the rules
* `Attempt.leaves`: no attempt goes past the end
* `Attempt.leavesEnd`: where nothing is read, the end is at the front
-/

namespace ClausalForm.Reading

/-- What is to be read. -/
inductive Task where
  /-- A primary. -/
  | primary
  /-- An expression whose connectives outside parentheses have at least the given strength. -/
  | expression (strength : Nat)
  /-- The connectives after `left` of at least the given strength, with their right operands. -/
  | connectives (strength : Nat) (left : Formula)

/-- The reply to a task. -/
def Task.reply (limit last n : Nat) (ts : List Located) : Task → Reply
  | .primary => Reading.primary limit last n ts
  | .expression s => Reading.expression limit last n s ts
  | .connectives s left => Reading.connectives limit last n s left ts

/-- How a task comes to its reply, with `n` nesting levels left out of `limit`. -/
inductive Attempt (limit last : Nat) : Task → (n : Nat) → (ts : List Located) → Reply → Prop
  /-- A token that can neither start a formula nor end the text is passed over. -/
  | stray {n : Nat} {t : Located} {ts : List Located} {r : Reply} (ht : isStray t.token)
    (h : Attempt limit last .primary n ts r) :
    Attempt limit last .primary n (t :: ts) (r.after [⟨.unexpectedToken t.token, t.offset⟩])
  | prop {n offset : Nat} {name : String} {args : List String} {text : String}
    {ts : List Located} :
    Attempt limit last .primary n (⟨.prop name args text, offset⟩ :: ts)
      (.formula (.prop name (args.map .var)) ts [])
  | var {n offset : Nat} {x : String} {ts : List Located} :
    Attempt limit last .primary n (⟨.var x, offset⟩ :: ts) (.formula (.var x) ts [])
  | neg {n offset : Nat} {ts : List Located} {r : Reply}
    (h : Attempt limit last .primary n ts r) :
    Attempt limit last .primary (n + 1) (⟨.command .neg, offset⟩ :: ts)
      (r.operand .neg offset .neg)
  | negTooDeep {offset : Nat} {ts : List Located} :
    Attempt limit last .primary 0 (⟨.command .neg, offset⟩ :: ts)
      (.fault ⟨.nestingTooDeep limit, frontOffset last ts⟩ ts [])
  | quant {n offset offset' : Nat} {q : Quantifier} {x : String} {ts : List Located} {r : Reply}
    (h : Attempt limit last .primary n ts r) :
    Attempt limit last .primary (n + 1)
      (⟨.command (.quantifier q), offset⟩ :: ⟨.var x, offset'⟩ :: ts)
      (r.operand (.quantifier q) offset (.quant q x))
  | quantTooDeep {offset offset' : Nat} {q : Quantifier} {x : String} {ts : List Located} :
    Attempt limit last .primary 0 (⟨.command (.quantifier q), offset⟩ :: ⟨.var x, offset'⟩ :: ts)
      (.fault ⟨.nestingTooDeep limit, frontOffset last ts⟩ ts [])
  /-- A quantifier without its variable. -/
  | quantUnbound {n offset : Nat} {q : Quantifier} {ts : List Located}
    (hts : ∀ x, frontToken ts ≠ .var x) :
    Attempt limit last .primary n (⟨.command (.quantifier q), offset⟩ :: ts)
      (.fault ⟨.missingBoundVariable q (frontToken ts), frontOffset last ts⟩ ts [])
  | parens {n offset : Nat} {ts : List Located} {r : Reply}
    (h : Attempt limit last (.expression 0) n ts r) :
    Attempt limit last .primary (n + 1) (⟨.openParen, offset⟩ :: ts) (r.closed offset)
  | parensTooDeep {offset : Nat} {ts : List Located} :
    Attempt limit last .primary 0 (⟨.openParen, offset⟩ :: ts)
      (.fault ⟨.nestingTooDeep limit, frontOffset last ts⟩ ts [])
  /-- The end. -/
  | nothing {n : Nat} {ts : List Located} (hts : frontToken ts = .eof) :
    Attempt limit last .primary n ts (.nothing ts [])
  /-- A primary that is read, and the connectives after it. -/
  | chain {n s : Nat} {f : Formula} {ts mid : List Located} {passed : List Diagnostic} {r : Reply}
    (hfirst : Attempt limit last .primary n ts (.formula f mid passed))
    (hrest : Attempt limit last (.connectives s f) n mid r) :
    Attempt limit last (.expression s) n ts (r.after passed)
  /-- No primary is read, and so no expression. -/
  | noChain {n s : Nat} {ts : List Located} {r : Reply}
    (hr : ∀ f rest passed, r ≠ .formula f rest passed)
    (hfirst : Attempt limit last .primary n ts r) : Attempt limit last (.expression s) n ts r
  /-- No connective at the front is strong enough. -/
  | stop {n s : Nat} {left : Formula} {ts : List Located}
    (hts : EndsChain s (ts.map Located.token)) :
    Attempt limit last (.connectives s left) n ts (.formula left ts [])
  | joinTooDeep {s offset : Nat} {op : Connective} {left : Formula} {ts : List Located}
    (hs : s ≤ op.precedence) :
    Attempt limit last (.connectives s left) 0 (⟨.command (.connective op), offset⟩ :: ts)
      (.fault ⟨.nestingTooDeep limit, offset⟩ ts [])
  /-- A connective whose right operand is read is joined, and the chain goes on. -/
  | join {n s offset : Nat} {op : Connective} {left right : Formula} {ts mid : List Located}
    {passed : List Diagnostic} {r : Reply} (hs : s ≤ op.precedence)
    (hright : Attempt limit last (.expression op.rightStrength) n ts (.formula right mid passed))
    (hrest : Attempt limit last (.connectives s (.binary op left right)) n mid r) :
    Attempt limit last (.connectives s left) (n + 1) (⟨.command (.connective op), offset⟩ :: ts)
      (r.after passed)
  /-- A connective in front of the end is left out. -/
  | joinNothing {n s offset : Nat} {op : Connective} {left : Formula} {ts rest : List Located}
    {passed : List Diagnostic} (hs : s ≤ op.precedence)
    (hright : Attempt limit last (.expression op.rightStrength) n ts (.nothing rest passed)) :
    Attempt limit last (.connectives s left) (n + 1) (⟨.command (.connective op), offset⟩ :: ts)
      (.formula left rest (passed ++ [⟨.missingOperand (.connective op), offset⟩]))
  | joinFault {n s offset : Nat} {op : Connective} {left : Formula} {ts rest : List Located}
    {d : Diagnostic} {passed : List Diagnostic} (hs : s ≤ op.precedence)
    (hright : Attempt limit last (.expression op.rightStrength) n ts (.fault d rest passed)) :
    Attempt limit last (.connectives s left) (n + 1) (⟨.command (.connective op), offset⟩ :: ts)
      (.fault d rest passed)

variable {limit last n : Nat}

theorem Reply.after_after (r : Reply) (ds ds' : List Diagnostic) :
    (r.after ds').after ds = r.after (ds ++ ds') := by
  cases r <;> simp only [Reply.after, List.append_assoc]

theorem primary_cons_of_isStray {t : Located} (ht : isStray t.token) (ts : List Located) :
    primary limit last n (t :: ts) =
      (primary limit last n ts).after [⟨.unexpectedToken t.token, t.offset⟩] := by
  have hfaults : strayFaults (t :: ts) =
      ⟨.unexpectedToken t.token, t.offset⟩ :: strayFaults ts := by
    simp [strayFaults, ht]
  have hdrop : dropStrays (t :: ts) = dropStrays ts := List.dropWhile_cons_of_pos ht
  unfold primary
  rw [Reply.after_after, hfaults, hdrop]
  rfl

/-- A chain comes to an end where no connective of its strength follows. -/
theorem connectives_of_ends {s : Nat} {left : Formula} {ts : List Located}
    (h : EndsChain s (ts.map Located.token)) :
    connectives limit last n s left ts = .formula left ts [] := by
  unfold connectives
  split
  · rename_i op offset rest
    rw [if_neg (Nat.not_le.mpr (h op _ rfl))]
  · rfl

theorem attempt_primary
    (hbelow : ∀ m < n, ∀ task ts, Attempt limit last task m ts (task.reply limit last m ts))
    (ts : List Located) : Attempt limit last .primary n ts (primary limit last n ts) := by
  induction ts with
  | nil =>
    have hreply : primary limit last n [] = .nothing [] [] := by
      unfold primary
      rfl
    rw [hreply]
    exact .nothing rfl
  | cons t ts ih =>
    by_cases ht : isStray t.token
    · rw [primary_cons_of_isStray ht]
      exact .stray ht ih
    -- the token at the front is not passed over, and so it decides
    have hfaults : strayFaults (t :: ts) = [] := by simp [strayFaults, ht]
    have hdrop : dropStrays (t :: ts) = t :: ts := List.dropWhile_cons_of_neg ht
    unfold primary
    rw [hfaults, hdrop, Reply.after_nil]
    obtain ⟨token, offset⟩ := t
    cases token with
    | closeParen => exact absurd rfl ht
    | prop name args text => exact .prop
    | var x => exact .var
    | eof => exact .nothing rfl
    | openParen =>
      cases n with
      | zero => exact .parensTooDeep
      | succ n => exact .parens (hbelow n n.lt_succ_self (.expression 0) ts)
    | command c =>
      cases c with
      | connective op => exact absurd rfl ht
      | neg =>
        cases n with
        | zero => exact .negTooDeep
        | succ n => exact .neg (hbelow n n.lt_succ_self .primary ts)
      | quantifier q =>
        cases ts with
        | nil => exact .quantUnbound fun x h => by cases h
        | cons t ts =>
          obtain ⟨token, offset'⟩ := t
          cases token with
          | var x =>
            cases n with
            | zero => exact .quantTooDeep
            | succ n => exact .quant (hbelow n n.lt_succ_self .primary ts)
          | prop | openParen | closeParen | command | eof =>
            exact .quantUnbound fun x h => by cases h

theorem attempt_connectives
    (hbelow : ∀ m < n, ∀ task ts, Attempt limit last task m ts (task.reply limit last m ts))
    (s : Nat) (left : Formula) (ts : List Located) :
    Attempt limit last (.connectives s left) n ts (connectives limit last n s left ts) := by
  unfold connectives
  split
  · rename_i op offset ts
    split
    · rename_i hs
      cases n with
      | zero => exact .joinTooDeep hs
      | succ n =>
        have hright := hbelow n n.lt_succ_self (.expression op.rightStrength) ts
        rw [Task.reply, expression] at hright
        simp only
        split
        · rename_i right mid passed heq
          rw [heq] at hright
          exact .join hs hright
            (hbelow n n.lt_succ_self (.connectives s (.binary op left right)) mid)
        · rename_i rest passed heq
          rw [heq] at hright
          exact .joinNothing hs hright
        · -- neither a formula nor nothing
          rename_i hformula hnothing
          generalize Reply.andThen _ _ = r at *
          cases r with
          | formula f rest passed => exact absurd rfl (hformula f rest passed)
          | nothing rest passed => exact absurd rfl (hnothing rest passed)
          | fault d rest passed => exact .joinFault hs hright
    · rename_i hs
      exact .stop (EndsChain.cons_connective_iff.mpr (Nat.lt_of_not_le hs))
  · rename_i hfront
    refine .stop fun op us hus => ?_
    obtain ⟨⟨token, offset⟩, rest, rfl, rfl, -⟩ := List.map_eq_cons_iff.mp hus
    exact absurd rfl (hfront op offset rest)

theorem attempt_expression
    (hprimary : ∀ ts, Attempt limit last .primary n ts (primary limit last n ts))
    (hconnectives : ∀ s left ts,
      Attempt limit last (.connectives s left) n ts (connectives limit last n s left ts))
    (s : Nat) (ts : List Located) :
    Attempt limit last (.expression s) n ts (expression limit last n s ts) := by
  have hfirst := hprimary ts
  rw [expression]
  cases hreply : primary limit last n ts with
  | formula f mid passed =>
    rw [hreply] at hfirst
    exact .chain hfirst (hconnectives s f mid)
  | nothing | fault =>
    rw [hreply] at hfirst
    exact .noChain (fun f rest passed h => by cases h) hfirst

/-- The reply to every task comes about by the rules. -/
theorem attempt (limit last n : Nat) (task : Task) (ts : List Located) :
    Attempt limit last task n ts (task.reply limit last n ts) := by
  -- Induction on the levels left, for all tasks at once.
  induction n using Nat.strongRecOn generalizing task ts with
  | ind n ih =>
    have hprimary := attempt_primary ih
    have hconnectives := attempt_connectives ih
    cases task with
    | primary => exact hprimary ts
    | expression s => exact attempt_expression hprimary hconnectives s ts
    | connectives s left => exact hconnectives s left ts

/-- A task has no other reply that comes about by the rules. -/
theorem Attempt.reply_eq {task : Task} {ts : List Located} {r : Reply}
    (h : Attempt limit last task n ts r) : task.reply limit last n ts = r := by
  -- each rule is one way through the definitions
  induction h with
  | stray ht _ ih => exact (primary_cons_of_isStray ht _).trans (congrArg _ ih)
  | prop | var | negTooDeep | quantTooDeep | parensTooDeep =>
    simp only [Task.reply]
    unfold primary
    rfl
  | @neg n offset ts r _ ih =>
    simp only [Task.reply] at ih ⊢
    unfold primary
    show Reply.after [] ((primary limit last n ts).operand .neg offset .neg) = _
    rw [ih, Reply.after_nil]
  | @quant n offset offset' q x ts r _ ih =>
    simp only [Task.reply] at ih ⊢
    unfold primary
    show Reply.after [] ((primary limit last n ts).operand (.quantifier q) offset (.quant q x)) = _
    rw [ih, Reply.after_nil]
  | @quantUnbound n offset q ts hts =>
    simp only [Task.reply]
    unfold primary
    cases ts with
    | nil => rfl
    | cons t ts =>
      obtain ⟨token, offset'⟩ := t
      cases token with
      | var x => exact absurd rfl (hts x)
      | prop | openParen | closeParen | command | eof => rfl
  | @parens n offset ts r _ ih =>
    simp only [Task.reply] at ih ⊢
    unfold primary
    show Reply.after [] ((expression limit last n 0 ts).closed offset) = _
    rw [ih, Reply.after_nil]
  | @nothing n ts hts =>
    simp only [Task.reply]
    unfold primary
    cases ts with
    | nil => rfl
    | cons t ts =>
      obtain ⟨token, offset⟩ := t
      obtain rfl : token = .eof := hts
      rfl
  | chain _ _ ihfirst ihrest =>
    simp only [Task.reply] at ihfirst ihrest ⊢
    rw [expression, ihfirst, Reply.andThen, ihrest]
  | @noChain n s ts r hr _ ih =>
    simp only [Task.reply] at ih ⊢
    rw [expression, ih]
    cases r with
    | formula f rest passed => exact absurd rfl (hr f rest passed)
    | nothing | fault => rfl
  | stop hts => exact connectives_of_ends hts
  | joinTooDeep hs =>
    simp only [Task.reply]
    unfold connectives
    rw [if_pos hs]
  | join hs _ _ ihright ihrest =>
    simp only [Task.reply] at ihright ihrest ⊢
    rw [expression] at ihright
    unfold connectives
    simp only [if_pos hs, ihright, ihrest]
  | joinNothing hs _ ihright | joinFault hs _ ihright =>
    simp only [Task.reply] at ihright ⊢
    rw [expression] at ihright
    unfold connectives
    simp only [if_pos hs, ihright]

theorem attempt_iff {task : Task} {ts : List Located} {r : Reply} :
    Attempt limit last task n ts r ↔ task.reply limit last n ts = r :=
  ⟨Attempt.reply_eq, fun h => h ▸ attempt limit last n task ts⟩

/-! ### The tokens that are left -/

/-- After some tokens of `ts`, none of which is the end, `rest` is left. -/
def Leaves (ts rest : List Located) : Prop :=
  ∃ used, ts = used ++ rest ∧ ∀ t ∈ used, t.token ≠ .eof

namespace Leaves

variable {t : Located} {ts mid rest : List Located}

theorem refl (ts : List Located) : Leaves ts ts := ⟨[], rfl, List.forall_mem_nil _⟩

theorem cons (ht : t.token ≠ .eof) (h : Leaves ts rest) : Leaves (t :: ts) rest := by
  obtain ⟨used, rfl, hused⟩ := h
  exact ⟨t :: used, rfl, List.forall_mem_cons.mpr ⟨ht, hused⟩⟩

theorem trans (h : Leaves ts mid) (h' : Leaves mid rest) : Leaves ts rest := by
  obtain ⟨used, rfl, hused⟩ := h
  obtain ⟨used', rfl, hused'⟩ := h'
  exact ⟨used ++ used', (List.append_assoc ..).symm, List.forall_mem_append.mpr ⟨hused, hused'⟩⟩

theorem isSuffix (h : Leaves ts rest) : rest <:+ ts := by
  obtain ⟨used, rfl, -⟩ := h
  exact List.suffix_append used rest

end Leaves

/-- The tokens before the first end. -/
def beforeEnd (ts : List Located) : List Located :=
  ts.takeWhile fun t => t.token != .eof

/-- The tokens from the first end on. -/
def fromEnd (ts : List Located) : List Located :=
  ts.dropWhile fun t => t.token != .eof

theorem beforeEnd_append_fromEnd (ts : List Located) : beforeEnd ts ++ fromEnd ts = ts :=
  List.takeWhile_append_dropWhile

theorem fromEnd_of_frontToken {ts : List Located} (h : frontToken ts = .eof) : fromEnd ts = ts := by
  cases ts with
  | nil => rfl
  | cons t ts => exact List.dropWhile_cons_of_neg (by simpa [frontToken] using h)

theorem Leaves.fromEnd_eq {ts rest : List Located} (h : Leaves ts rest) :
    fromEnd ts = fromEnd rest := by
  obtain ⟨used, rfl, hused⟩ := h
  exact List.dropWhile_append_of_pos fun t ht => by simpa using hused t ht

theorem leaves_closed (offset : Nat) (r : Reply) : Leaves r.rest (r.closed offset).rest := by
  unfold Reply.closed
  split
  · exact .cons nofun (.refl _)
  · exact .refl _
  · exact .refl _
  · exact .refl _

/-- Where nothing is left but the end, it is at the front. -/
def Reply.LeavesEnd (r : Reply) : Prop :=
  r.isNothing → frontToken r.rest = .eof

namespace Reply.LeavesEnd

variable {r : Reply}

theorem after (h : r.LeavesEnd) (ds : List Diagnostic) : (r.after ds).LeavesEnd := by
  rwa [LeavesEnd, isNothing_after, rest_after]

theorem operand (r : Reply) (c : Command) (offset : Nat) (build : Formula → Formula) :
    (r.operand c offset build).LeavesEnd := by
  cases r <;> nofun

theorem closed (h : r.LeavesEnd) (offset : Nat) : (r.closed offset).LeavesEnd := by
  unfold Reply.closed
  split
  · nofun
  · nofun
  · exact h
  · exact h

end Reply.LeavesEnd

theorem token_ne_eof_of_isStray {t : Located} (ht : isStray t.token) : t.token ≠ .eof := by
  intro heof
  rw [heof] at ht
  cases ht

section Left

variable {task : Task} {ts : List Located} {r : Reply}

/-- No attempt goes past the end. -/
theorem Attempt.leaves (h : Attempt limit last task n ts r) : Leaves ts r.rest := by
  induction h with
  | stray ht _ ih =>
    rw [Reply.rest_after]
    exact .cons (token_ne_eof_of_isStray ht) ih
  | prop | var | negTooDeep | quantUnbound | parensTooDeep | joinTooDeep =>
    exact .cons nofun (.refl _)
  | quantTooDeep => exact .cons nofun (.cons nofun (.refl _))
  | neg _ ih =>
    rw [Reply.rest_operand]
    exact .cons nofun ih
  | quant _ ih =>
    rw [Reply.rest_operand]
    exact .cons nofun (.cons nofun ih)
  | parens _ ih => exact .cons nofun (ih.trans (leaves_closed _ _))
  | nothing | stop => exact .refl _
  | chain _ _ ihfirst ihrest =>
    rw [Reply.rest_after]
    exact ihfirst.trans ihrest
  | noChain _ _ ih => exact ih
  | join _ _ _ ihright ihrest =>
    rw [Reply.rest_after]
    exact .cons nofun (ihright.trans ihrest)
  | joinNothing _ _ ih | joinFault _ _ ih => exact .cons nofun ih

/-- A chain of connectives comes to a formula or a fault, and elsewhere nothing is read only where
the end is at the front. -/
theorem Attempt.leavesEnd (h : Attempt limit last task n ts r) :
    r.LeavesEnd ∧ ∀ s left, task = .connectives s left → r.isNothing = false := by
  induction h with
  | stray _ _ ih => exact ⟨ih.1.after _, nofun⟩
  | prop | var | negTooDeep | quantTooDeep | quantUnbound | parensTooDeep => exact ⟨nofun, nofun⟩
  | neg | quant => exact ⟨.operand _ _ _ _, nofun⟩
  | parens _ ih => exact ⟨ih.1.closed _, nofun⟩
  | nothing hts => exact ⟨fun _ => hts, nofun⟩
  | chain _ _ _ ih => exact ⟨ih.1.after _, nofun⟩
  | noChain _ _ ih => exact ⟨ih.1, nofun⟩
  | stop | joinTooDeep | joinNothing | joinFault => exact ⟨nofun, fun _ _ _ => rfl⟩
  | join _ _ _ _ ih =>
    refine ⟨ih.1.after _, fun _ _ _ => ?_⟩
    rw [Reply.isNothing_after]
    exact ih.2 _ _ rfl

end Left

end ClausalForm.Reading
