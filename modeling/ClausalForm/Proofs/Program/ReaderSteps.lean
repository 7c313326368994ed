import ClausalForm.Program.Reader
import ClausalForm.Proofs.Program.Attempts

/-!
# Steps of readers

The rules of an attempt say step by step what a reader does. The tokens of the attempt are those in
front of the reader and ahead of it, and the levels that are left are those between its counter and
the limit. So the reader comes to the reply of the attempt: its run ends, and it does not break
down.

Connectives that are joined raise the counter and do not lower it again. What they belong to does:
an expression sets the counter back to where it was after its first primary.

## Main definitions

* `Reader.Comes`: a run comes to an end and does not break down
* `Reader.place`: the reader in front of given tokens
* `Reader.Reads`, `Reader.ReadsOn`: a run comes to a reply

## Main results

* `Reader.readsTask_of_attempt`: a reader comes to the reply of an attempt
-/

namespace ClausalForm

namespace Reading.Reply

/-- The answer of a reader that comes to a reply. -/
def answer : Reply → Reader.Answer
  | formula f _ _ => .ok (some f)
  | nothing _ _ => .ok none
  | fault d _ _ => .error d

/-- The faults that were passed over before a reply. -/
def faults : Reply → List Diagnostic
  | formula _ _ passed | nothing _ passed | fault _ _ passed => passed

theorem answer_after (ds : List Diagnostic) (r : Reply) : (r.after ds).answer = r.answer := by
  cases r <;> rfl

theorem faults_after (ds : List Diagnostic) (r : Reply) :
    (r.after ds).faults = ds ++ r.faults := by
  cases r <;> rfl

theorem answer_operand (c : Command) (offset : Nat) (build : Formula → Formula) (r : Reply) :
    (r.operand c offset build).answer = r.answer.operand c offset build := by
  cases r <;> rfl

theorem faults_operand (c : Command) (offset : Nat) (build : Formula → Formula) (r : Reply) :
    (r.operand c offset build).faults = r.faults := by
  cases r <;> rfl

end Reading.Reply

namespace Reader

open Reading (Attempt Task Reply frontToken frontOffset isStray)

/-! ### Runs that come to an end -/

/-- Given fuel enough, the run comes to an end and does not break down: it returns `a` and leaves
the reader as `c'`. -/
def Comes {α : Type} (x : (fuel : Nat) → Run α) (c : Reader) (a : α) (c' : Reader) : Prop :=
  ∃ k, ∀ n ≥ k, x n c = .ok (a, c')

namespace Comes

variable {α β : Type} {x : Nat → Run α} {f : α → Nat → Run β} {a : α} {b : β} {c c' c'' : Reader}

theorem pure (a : α) (c : Reader) : Comes (fun _ => pure a) c a c := ⟨0, fun _ _ => rfl⟩

theorem bind (h : Comes x c a c') (h' : Comes (f a) c' b c'') :
    Comes (fun n => x n >>= fun a => f a n) c b c'' := by
  obtain ⟨k, hk⟩ := h
  obtain ⟨k', hk'⟩ := h'
  refine ⟨max k k', fun n hn => ?_⟩
  have hbind : (x n >>= fun a => f a n) c = Except.bind (x n c) fun p => f p.1 n p.2 := rfl
  show (x n >>= fun a => f a n) c = _
  rw [hbind, hk n (by omega)]
  exact hk' n (by omega)

theorem get_bind {f : Reader → Nat → Run β} (h : Comes (f c) c b c') :
    Comes (fun n => get >>= fun c => f c n) c b c' :=
  bind (x := fun _ => get) ⟨0, fun _ _ => rfl⟩ h

/-- A call takes one unit of fuel. -/
theorem call (h : Comes (fun n => x (n + 1)) c a c') : Comes x c a c' := by
  obtain ⟨k, hk⟩ := h
  refine ⟨k + 1, fun n hn => ?_⟩
  obtain ⟨n, rfl⟩ := Nat.exists_eq_add_of_le' (Nat.le_trans (Nat.le_add_left 1 k) hn)
  exact hk n (by omega)

end Comes

theorem comes_warn (d : Diagnostic) (c : Reader) :
    Comes (fun _ => warn d) c () { c with passed := c.passed ++ [d] } := ⟨0, fun _ _ => rfl⟩

theorem comes_raise (c : Reader) :
    Comes (fun _ => raise) c () { c with depth := c.depth + 1 } := ⟨0, fun _ _ => rfl⟩

theorem comes_setDepth (n : Nat) (c : Reader) :
    Comes (fun _ => setDepth n) c () { c with depth := n } := ⟨0, fun _ _ => rfl⟩

theorem comes_lower {c : Reader} {n : Nat} (h : c.depth = n + 1) :
    Comes (fun _ => lower) c () { c with depth := n } := by
  refine Comes.get_bind ?_
  simp only [h]
  exact comes_setDepth n c

/-! ### Readers in front of tokens -/

/-- The reader in front of the tokens `ts`, the last of which is at `last`. -/
def place (last : Nat) (ts : List Located) (depth : Nat) (passed : List Diagnostic) : Reader :=
  ⟨⟨frontToken ts, frontOffset last ts⟩, ts.tail, depth, passed⟩

/-- The last of the tokens is at `last`. -/
def EndsAt (last : Nat) (ts : List Located) : Prop :=
  ∀ t ∈ ts.getLast?, t.offset = last

theorem EndsAt.of_suffix {last : Nat} {ts rest : List Located} (h : EndsAt last ts)
    (hrest : rest <:+ ts) : EndsAt last rest := by
  obtain ⟨used, rfl⟩ := hrest
  intro t ht
  refine h t ?_
  rw [List.getLast?_append, Option.mem_def.mp ht]
  rfl

theorem EndsAt.tail {last : Nat} {t : Located} {ts : List Located} (h : EndsAt last (t :: ts)) :
    EndsAt last ts :=
  h.of_suffix (List.suffix_cons t ts)

variable {limit last depth : Nat} {t : Located} {ts : List Located} {passed : List Diagnostic}

theorem comes_next (h : EndsAt last (t :: ts)) :
    Comes (fun _ => next) (place last (t :: ts) depth passed) t (place last ts depth passed) := by
  refine ⟨0, fun _ _ => ?_⟩
  cases ts with
  | nil =>
    have hlast : t.offset = last := h t rfl
    subst hlast
    rfl
  | cons => rfl

theorem comes_skip (h : EndsAt last (t :: ts)) :
    Comes (fun _ => skip) (place last (t :: ts) depth passed) ()
      (place last ts depth passed) :=
  .bind (comes_next h) (.pure () _)

section Nested

variable {x : Nat → Run Answer} {answer : Answer}

/-- What is attempted one level deeper leaves the counter where it was, if it does so itself. -/
theorem comes_nested {rest : List Located} {passed' : List Diagnostic} (h : depth < limit)
    (hx : Comes x (place last ts (depth + 1) passed) answer (place last rest (depth + 1) passed')) :
    Comes (fun n => nested limit (x n)) (place last ts depth passed) answer
      (place last rest depth passed') := by
  refine .get_bind ?_
  have hdepth : ¬limit ≤ (place last ts depth passed).depth := Nat.not_le.mpr h
  simp only [if_neg hdepth]
  exact .bind (comes_raise _) (.bind hx (.bind (comes_lower rfl) (.pure answer _)))

theorem comes_nested_of_le (h : limit ≤ depth) :
    Comes (fun n => nested limit (x n)) (place last ts depth passed)
      (.error ⟨.nestingTooDeep limit, frontOffset last ts⟩) (place last ts depth passed) := by
  refine .get_bind ?_
  have hdepth : limit ≤ (place last ts depth passed).depth := h
  simp only [if_pos hdepth]
  exact .pure _ _

end Nested

/-! ### Formulas -/

section Steps

variable {r : Reply} {offset offset' : Nat}

/-- A reader in front of `ts` comes to the reply `r`, and its counter is where it was. -/
def Reads (last depth : Nat) (x : Nat → Run Answer) (ts : List Located) (r : Reply) : Prop :=
  ∀ passed, Comes x (place last ts depth passed) r.answer
    (place last r.rest depth (passed ++ r.faults))

theorem reads_stray (ht : isStray t.token) (hts : EndsAt last (t :: ts))
    (h : Reads last depth (primary limit) ts r) :
    Reads last depth (primary limit) (t :: ts)
      (r.after [⟨.unexpectedToken t.token, t.offset⟩]) := by
  intro passed
  rw [Reply.answer_after, Reply.faults_after, Reply.rest_after, ← List.append_assoc]
  refine .call ?_
  simp only [primary]
  refine .get_bind ?_
  obtain ⟨token, offset⟩ := t
  cases token with
  | closeParen => exact .bind (comes_next hts) (.bind (comes_warn _ _) (h _))
  | command c =>
    cases c with
    | connective op => exact .bind (comes_next hts) (.bind (comes_warn _ _) (h _))
    | neg | quantifier => cases ht
  | openParen | prop | var | eof => cases ht

theorem reads_prop {name text : String} {args : List String}
    (hts : EndsAt last (⟨.prop name args text, offset⟩ :: ts)) :
    Reads last depth (primary limit) (⟨.prop name args text, offset⟩ :: ts)
      (.formula (.prop name (args.map .var)) ts []) := by
  intro passed
  rw [Reply.faults, List.append_nil]
  refine .call ?_
  simp only [primary]
  exact .get_bind (.bind (.bind (comes_next hts) (.pure _ _)) (.pure _ _))

theorem reads_var {x : String} (hts : EndsAt last (⟨.var x, offset⟩ :: ts)) :
    Reads last depth (primary limit) (⟨.var x, offset⟩ :: ts) (.formula (.var x) ts []) := by
  intro passed
  rw [Reply.faults, List.append_nil]
  refine .call ?_
  simp only [primary]
  exact .get_bind (.bind (.bind (comes_next hts) (.pure _ _)) (.pure _ _))

theorem reads_nothing (hts : frontToken ts = .eof) :
    Reads last depth (primary limit) ts (.nothing ts []) := by
  intro passed
  rw [Reply.faults, List.append_nil]
  refine .call ?_
  simp only [primary]
  refine .get_bind ?_
  cases ts with
  | nil => exact .pure _ _
  | cons t ts =>
    obtain ⟨token, offset⟩ := t
    obtain rfl : token = .eof := hts
    exact .pure _ _

theorem reads_neg (hts : EndsAt last (⟨.command .neg, offset⟩ :: ts)) (hdepth : depth < limit)
    (h : Reads last (depth + 1) (primary limit) ts r) :
    Reads last depth (primary limit) (⟨.command .neg, offset⟩ :: ts)
      (r.operand .neg offset .neg) := by
  intro passed
  rw [Reply.answer_operand, Reply.faults_operand, Reply.rest_operand]
  refine .call ?_
  simp only [primary]
  refine .get_bind ?_
  exact .bind (comes_next hts) (.bind (comes_nested hdepth (h passed)) (.pure _ _))

theorem reads_neg_tooDeep (hts : EndsAt last (⟨.command .neg, offset⟩ :: ts))
    (hdepth : limit ≤ depth) :
    Reads last depth (primary limit) (⟨.command .neg, offset⟩ :: ts)
      (.fault ⟨.nestingTooDeep limit, frontOffset last ts⟩ ts []) := by
  intro passed
  rw [Reply.faults, List.append_nil]
  refine .call ?_
  simp only [primary]
  refine .get_bind ?_
  exact .bind (comes_next hts) (.bind (comes_nested_of_le hdepth) (.pure _ _))

/-- An expression is a primary with the connectives that follow; the counter is set back. -/
theorem comes_expression {s : Nat} {f : Formula} {a : Except Diagnostic Formula}
    {c c' c'' : Reader} (hfirst : Comes (primary limit) c (.ok (some f)) c')
    (hrest : Comes (connectives limit s f) c' a c'') :
    Comes (expression limit s) c (a.map some) { c'' with depth := c'.depth } := by
  refine .call ?_
  simp only [expression]
  refine .bind hfirst (.get_bind ?_)
  exact .bind hrest (.bind (comes_setDepth _ _) (.pure _ _))

/-- Without a primary there is no expression. -/
theorem comes_expression_of_ne {s : Nat} {a : Answer} {c c' : Reader} (ha : ∀ f, a ≠ .ok (some f))
    (hfirst : Comes (primary limit) c a c') : Comes (expression limit s) c a c' := by
  refine .call ?_
  simp only [expression]
  refine .bind hfirst ?_
  match a, ha with
  | .ok (some f), ha => exact absurd rfl (ha f)
  | .ok none, _ => exact .pure _ _
  | .error d, _ => exact .pure _ _

theorem comes_connectives_of_ends {s : Nat} {left : Formula}
    (h : EndsChain s (ts.map Located.token)) :
    Comes (connectives limit s left) (place last ts depth passed) (.ok left)
      (place last ts depth passed) := by
  refine .call ?_
  simp only [connectives]
  refine .get_bind ?_
  cases ts with
  | nil => exact .pure _ _
  | cons t ts =>
    obtain ⟨token, offset⟩ := t
    cases token with
    | command c =>
      cases c with
      | connective op =>
        have hlt := EndsChain.cons_connective_iff.mp h
        show Comes (fun n => if s ≤ op.precedence then _ else _) _ _ _
        simp only [if_neg (Nat.not_le.mpr hlt)]
        exact .pure _ _
      | neg | quantifier => exact .pure _ _
    | openParen | closeParen | prop | var | eof => exact .pure _ _

/-- No connective is tight enough to go on after the body of a quantifier. -/
theorem reads_body (h : Reads last depth (primary limit) ts r) :
    Reads last depth (expression limit (Quantifier.precedence + 1)) ts r := by
  intro passed
  cases r with
  | formula f rest passed' =>
    have hends : EndsChain (Quantifier.precedence + 1) (rest.map Located.token) :=
      fun op _ _ => Nat.lt_succ_of_lt op.precedence_lt_quantifier
    exact comes_expression (h passed) (comes_connectives_of_ends hends)
  | nothing | fault => exact comes_expression_of_ne nofun (h passed)

theorem reads_primary_of_quantified {q : Quantifier}
    (h : Reads last depth (quantified limit q) (⟨.command (.quantifier q), offset⟩ :: ts) r) :
    Reads last depth (primary limit) (⟨.command (.quantifier q), offset⟩ :: ts) r := by
  intro passed
  refine .call ?_
  simp only [primary]
  exact .get_bind (h passed)

theorem reads_quant {q : Quantifier} {x : String} (hts : EndsAt last (t :: ⟨.var x, offset'⟩ :: ts))
    (hdepth : depth < limit) (h : Reads last (depth + 1) (primary limit) ts r) :
    Reads last depth (quantified limit q) (t :: ⟨.var x, offset'⟩ :: ts)
      (r.operand (.quantifier q) t.offset (.quant q x)) := by
  intro passed
  rw [Reply.answer_operand, Reply.faults_operand, Reply.rest_operand]
  refine .call ?_
  simp only [quantified]
  refine .bind (comes_next hts) (.get_bind ?_)
  exact .bind (comes_skip hts.tail) (.bind (comes_nested hdepth (reads_body h passed)) (.pure _ _))

theorem reads_quant_tooDeep {q : Quantifier} {x : String}
    (hts : EndsAt last (t :: ⟨.var x, offset'⟩ :: ts)) (hdepth : limit ≤ depth) :
    Reads last depth (quantified limit q) (t :: ⟨.var x, offset'⟩ :: ts)
      (.fault ⟨.nestingTooDeep limit, frontOffset last ts⟩ ts []) := by
  intro passed
  rw [Reply.faults, List.append_nil]
  refine .call ?_
  simp only [quantified]
  refine .bind (comes_next hts) (.get_bind ?_)
  exact .bind (comes_skip hts.tail) (.bind (comes_nested_of_le hdepth) (.pure _ _))

theorem reads_quantUnbound {q : Quantifier} (hts : EndsAt last (t :: ts))
    (hvar : ∀ x, frontToken ts ≠ .var x) :
    Reads last depth (quantified limit q) (t :: ts)
      (.fault ⟨.missingBoundVariable q (frontToken ts), frontOffset last ts⟩ ts []) := by
  intro passed
  rw [Reply.faults, List.append_nil]
  refine .call ?_
  simp only [quantified]
  refine .bind (comes_next hts) (.get_bind ?_)
  cases ts with
  | nil => exact .pure _ _
  | cons t ts =>
    obtain ⟨token, offset⟩ := t
    cases token with
    | var x => exact absurd rfl (hvar x)
    | openParen | closeParen | prop | command | eof => exact .pure _ _

theorem comes_close (hts : EndsAt last (⟨.closeParen, offset'⟩ :: ts)) (offset : Nat) :
    Comes (fun _ => close offset) (place last (⟨.closeParen, offset'⟩ :: ts) depth passed) ()
      (place last ts depth passed) :=
  .get_bind (comes_skip hts)

theorem comes_close_of_ne (h : frontToken ts ≠ .closeParen) (offset : Nat) :
    Comes (fun _ => close offset) (place last ts depth passed) ()
      (place last ts depth (passed ++ [⟨.unclosedParen, offset⟩])) := by
  refine .get_bind ?_
  have hfront : ¬(place last ts depth passed).front.token = .closeParen := h
  simp only [if_neg hfront]
  exact comes_warn _ _

theorem reads_parens (hts : EndsAt last (⟨.openParen, offset⟩ :: ts)) (hrest : EndsAt last r.rest)
    (hend : r.LeavesEnd) (hdepth : depth < limit)
    (h : Reads last (depth + 1) (expression limit 0) ts r) :
    Reads last depth (primary limit) (⟨.openParen, offset⟩ :: ts) (r.closed offset) := by
  intro passed
  refine .call ?_
  simp only [primary]
  refine .get_bind (.bind (comes_next hts) (.bind (comes_nested hdepth (h passed)) ?_))
  -- a parenthesis that is not closed is recorded
  have hopen {ts : List Located} {inside : Option Formula} {ds : List Diagnostic}
      (hfront : frontToken ts ≠ .closeParen) :
      Comes (fun _ => close offset >>= fun _ => pure (.ok inside : Answer))
        (place last ts depth (passed ++ ds)) (.ok inside)
        (place last ts depth (passed ++ (ds ++ [⟨.unclosedParen, offset⟩]))) := by
    rw [← List.append_assoc]
    exact .bind (comes_close_of_ne hfront offset) (.pure _ _)
  cases r with
  | fault => exact .pure _ _
  | nothing rest ds =>
    have hfront : frontToken rest = .eof := hend rfl
    exact hopen fun hclose => by cases hfront.symm.trans hclose
  | formula f rest ds =>
    cases rest with
    | nil => exact hopen nofun
    | cons t rest =>
      obtain ⟨token, offset'⟩ := t
      cases token with
      | closeParen => exact .bind (comes_close hrest offset) (.pure _ _)
      | openParen | prop | var | command | eof => exact hopen nofun

theorem reads_parens_tooDeep (hts : EndsAt last (⟨.openParen, offset⟩ :: ts))
    (hdepth : limit ≤ depth) :
    Reads last depth (primary limit) (⟨.openParen, offset⟩ :: ts)
      (.fault ⟨.nestingTooDeep limit, frontOffset last ts⟩ ts []) := by
  intro passed
  rw [Reply.faults, List.append_nil]
  refine .call ?_
  simp only [primary]
  refine .get_bind ?_
  exact .bind (comes_next hts) (.bind (comes_nested_of_le hdepth) (.pure _ _))

/-- A reader in front of `ts` joins connectives until it comes to the reply `r`, and its counter is
not lower than it was. -/
def ReadsOn (last depth : Nat) (x : Nat → Run (Except Diagnostic Formula)) (ts : List Located)
    (r : Reply) : Prop :=
  ∀ passed, ∃ a depth', a.map some = r.answer ∧ depth ≤ depth' ∧
    Comes x (place last ts depth passed) a (place last r.rest depth' (passed ++ r.faults))

variable {s : Nat} {op : Connective} {left right f : Formula} {mid : List Located}
  {ds : List Diagnostic}

theorem reads_chain (hfirst : Reads last depth (primary limit) ts (.formula f mid ds))
    (hrest : ReadsOn last depth (connectives limit s f) mid r) :
    Reads last depth (expression limit s) ts (r.after ds) := by
  intro passed
  obtain ⟨a, depth', ha, -, hcomes⟩ := hrest (passed ++ ds)
  rw [Reply.answer_after, Reply.faults_after, Reply.rest_after, ← List.append_assoc, ← ha]
  exact comes_expression (hfirst passed) hcomes

theorem reads_noChain (hr : ∀ f rest ds, r ≠ .formula f rest ds)
    (hfirst : Reads last depth (primary limit) ts r) :
    Reads last depth (expression limit s) ts r := by
  intro passed
  refine comes_expression_of_ne (fun f heq => ?_) (hfirst passed)
  cases r with
  | formula f rest ds => exact hr f rest ds rfl
  | nothing | fault => cases heq

theorem readsOn_stop (hts : EndsChain s (ts.map Located.token)) :
    ReadsOn last depth (connectives limit s left) ts (.formula left ts []) := by
  intro passed
  rw [Reply.faults, List.append_nil]
  exact ⟨.ok left, depth, rfl, Nat.le_refl _, comes_connectives_of_ends hts⟩

/-- A connective that is strong enough is taken, and then it depends on the levels that are left. -/
theorem comes_connectives {a : Except Diagnostic Formula} {c : Reader}
    (hts : EndsAt last (⟨.command (.connective op), offset⟩ :: ts)) (hs : s ≤ op.precedence)
    (h : Comes (fun n =>
      if limit ≤ depth then pure (.error ⟨.nestingTooDeep limit, offset⟩) else do
        match ← nested limit (expression limit op.rightStrength n) with
        | .ok (some right) =>
          raise
          connectives limit s (.binary op left right) n
        | .ok none =>
          warn ⟨.missingOperand (.connective op), offset⟩
          return .ok left
        | .error d => return .error d) (place last ts depth passed) a c) :
    Comes (connectives limit s left)
      (place last (⟨.command (.connective op), offset⟩ :: ts) depth passed) a c := by
  refine .call ?_
  simp only [connectives]
  refine .get_bind ?_
  show Comes (fun n => if s ≤ op.precedence then _ else _) _ _ _
  simp only [if_pos hs]
  exact .bind (comes_next hts) (.get_bind h)

theorem readsOn_joinTooDeep (hts : EndsAt last (⟨.command (.connective op), offset⟩ :: ts))
    (hs : s ≤ op.precedence) (hdepth : limit ≤ depth) :
    ReadsOn last depth (connectives limit s left) (⟨.command (.connective op), offset⟩ :: ts)
      (.fault ⟨.nestingTooDeep limit, offset⟩ ts []) := by
  intro passed
  rw [Reply.faults, List.append_nil]
  refine ⟨.error ⟨.nestingTooDeep limit, offset⟩, depth, rfl, Nat.le_refl _,
    comes_connectives hts hs ?_⟩
  simp only [if_pos hdepth]
  exact .pure _ _

theorem readsOn_join (hts : EndsAt last (⟨.command (.connective op), offset⟩ :: ts))
    (hs : s ≤ op.precedence) (hdepth : depth < limit)
    (hright : Reads last (depth + 1) (expression limit op.rightStrength) ts
      (.formula right mid ds))
    (hrest : ReadsOn last (depth + 1) (connectives limit s (.binary op left right)) mid r) :
    ReadsOn last depth (connectives limit s left) (⟨.command (.connective op), offset⟩ :: ts)
      (r.after ds) := by
  intro passed
  obtain ⟨a, depth', ha, hle, hcomes⟩ := hrest (passed ++ ds)
  rw [Reply.answer_after, Reply.faults_after, Reply.rest_after, ← List.append_assoc]
  refine ⟨a, depth', ha, Nat.le_of_succ_le hle, comes_connectives hts hs ?_⟩
  simp only [if_neg (Nat.not_le.mpr hdepth)]
  exact .bind (comes_nested hdepth (hright passed)) (.bind (comes_raise _) hcomes)

theorem readsOn_joinNothing (hts : EndsAt last (⟨.command (.connective op), offset⟩ :: ts))
    (hs : s ≤ op.precedence) (hdepth : depth < limit)
    (hright : Reads last (depth + 1) (expression limit op.rightStrength) ts (.nothing mid ds)) :
    ReadsOn last depth (connectives limit s left) (⟨.command (.connective op), offset⟩ :: ts)
      (.formula left mid (ds ++ [⟨.missingOperand (.connective op), offset⟩])) := by
  intro passed
  rw [Reply.faults, ← List.append_assoc]
  refine ⟨.ok left, depth, rfl, Nat.le_refl _, comes_connectives hts hs ?_⟩
  simp only [if_neg (Nat.not_le.mpr hdepth)]
  exact .bind (comes_nested hdepth (hright passed)) (.bind (comes_warn _ _) (.pure _ _))

theorem readsOn_joinFault {d : Diagnostic}
    (hts : EndsAt last (⟨.command (.connective op), offset⟩ :: ts))
    (hs : s ≤ op.precedence) (hdepth : depth < limit)
    (hright : Reads last (depth + 1) (expression limit op.rightStrength) ts (.fault d mid ds)) :
    ReadsOn last depth (connectives limit s left) (⟨.command (.connective op), offset⟩ :: ts)
      (.fault d mid ds) := by
  intro passed
  refine ⟨.error d, depth, rfl, Nat.le_refl _, comes_connectives hts hs ?_⟩
  simp only [if_neg (Nat.not_le.mpr hdepth)]
  exact .bind (comes_nested hdepth (hright passed)) (.pure _ _)

end Steps

/-- A reader in front of `ts` comes to the reply `r` in a task. -/
def ReadsTask (limit last depth : Nat) (ts : List Located) (r : Reply) : Task → Prop
  | .primary => Reads last depth (primary limit) ts r
  | .expression s => Reads last depth (expression limit s) ts r
  | .connectives s left => ReadsOn last depth (connectives limit s left) ts r

/-- A reader comes to the reply that the rules lead to. -/
theorem readsTask_of_attempt {n : Nat} {task : Task} {r : Reply}
    (h : Attempt limit last task n ts r) (hn : n = limit - depth) (hts : EndsAt last ts) :
    ReadsTask limit last depth ts r task := by
  -- Induction on the rules; at a greater depth fewer levels are left.
  induction h generalizing depth with
  | stray ht _ ih => exact reads_stray ht hts (ih hn hts.tail)
  | prop => exact reads_prop hts
  | var => exact reads_var hts
  | neg _ ih => exact reads_neg hts (by omega) (ih (by omega) hts.tail)
  | negTooDeep => exact reads_neg_tooDeep hts (by omega)
  | quant _ ih =>
    refine reads_primary_of_quantified (reads_quant hts (by omega) ?_)
    exact ih (by omega) hts.tail.tail
  | quantTooDeep => exact reads_primary_of_quantified (reads_quant_tooDeep hts (by omega))
  | quantUnbound hvar => exact reads_primary_of_quantified (reads_quantUnbound hts hvar)
  | parens h ih =>
    exact reads_parens hts (hts.tail.of_suffix h.leaves.isSuffix) h.leavesEnd.1 (by omega)
      (ih (by omega) hts.tail)
  | parensTooDeep => exact reads_parens_tooDeep hts (by omega)
  | nothing hend => exact reads_nothing hend
  | chain hfirst _ ihfirst ihrest =>
    exact reads_chain (ihfirst hn hts) (ihrest hn (hts.of_suffix hfirst.leaves.isSuffix))
  | noChain hr _ ih => exact reads_noChain hr (ih hn hts)
  | stop hends => exact readsOn_stop hends
  | joinTooDeep hs => exact readsOn_joinTooDeep hts hs (by omega)
  | join hs hright _ ihright ihrest =>
    exact readsOn_join hts hs (by omega) (ihright (by omega) hts.tail)
      (ihrest (by omega) (hts.tail.of_suffix hright.leaves.isSuffix))
  | joinNothing hs _ ih => exact readsOn_joinNothing hts hs (by omega) (ih (by omega) hts.tail)
  | joinFault hs _ ih => exact readsOn_joinFault hts hs (by omega) (ih (by omega) hts.tail)

/-- A reader comes to the reply to a task. -/
theorem readsTask (limit : Nat) (depth : Nat) (hts : EndsAt last ts) (task : Task) :
    ReadsTask limit last depth ts (task.reply limit last (limit - depth) ts) task :=
  readsTask_of_attempt (Reading.attempt limit last (limit - depth) task ts) rfl hts

end Reader

end ClausalForm
