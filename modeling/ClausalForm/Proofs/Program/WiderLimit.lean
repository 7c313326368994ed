import ClausalForm.Proofs.Program.Attempts
import ClausalForm.Proofs.Program.RoundTrip

/-!
# Reading with more levels

Reading ends early only by the fault that there are no levels left. A reply that is not this fault
has used none of the levels that it would get from a wider limit, and stays as it is: the formula,
the tokens that are left and the faults that were passed over. The same goes for a program in whose
diagnostics there is no such fault.

## Main definitions

* `Reply.IsCut`: the fault that there are no levels left
* `Reply.Persists`: a reply that is this fault, or another one that stays as it is

## Main results

* `Attempt.of_le`: what the reader does with more levels, if it was not cut short
* `persistsWithin`: replies with some levels persist with more of them
* `read_eq_of_le`: a program without this fault stays as it is
-/

namespace ClausalForm

namespace Reading

/-- The reply is the fault that there are no levels left. -/
def Reply.IsCut : Reply → Prop
  | fault d _ _ => ∃ k, d.error = .nestingTooDeep k
  | formula .. | nothing .. => False

/-- The reply `r'` is `r`, unless there were no levels left for `r`. -/
def Reply.Persists (r r' : Reply) : Prop := r.IsCut ∨ r' = r

namespace Reply

variable {r r' : Reply}

theorem IsCut.after (h : r.IsCut) (ds : List Diagnostic) : (r.after ds).IsCut := by
  cases r with
  | fault => exact h
  | formula | nothing => cases h

theorem IsCut.andThen (h : r.IsCut) (next : Formula → List Located → Reply) :
    (r.andThen next).IsCut := by
  cases r with
  | fault => exact h
  | formula | nothing => cases h

theorem IsCut.operand (h : r.IsCut) (c : Command) (offset : Nat) (build : Formula → Formula) :
    (r.operand c offset build).IsCut := by
  cases r with
  | fault => exact h
  | formula | nothing => cases h

theorem IsCut.closed (h : r.IsCut) (offset : Nat) : (r.closed offset).IsCut := by
  cases r with
  | fault => exact h
  | formula | nothing => cases h

namespace Persists

theorem after (h : r.Persists r') (ds : List Diagnostic) : (r.after ds).Persists (r'.after ds) :=
  h.imp (fun hcut => hcut.after ds) (congrArg _)

theorem andThen {next next' : Formula → List Located → Reply} (h : r.Persists r')
    (hnext : ∀ f rest, (next f rest).Persists (next' f rest)) :
    (r.andThen next).Persists (r'.andThen next') := by
  rcases h with hcut | rfl
  · exact .inl (hcut.andThen next)
  · cases r' with
    | formula f rest passed => exact (hnext f rest).after passed
    | nothing | fault => exact .inr rfl

end Persists

end Reply

/-! ### Formulas -/

/-- What is read with `n` levels out of `limit` persists with `n'` levels out of `limit'`. -/
structure PersistsWithin (limit limit' last n n' : Nat) : Prop where
  primary : ∀ ts, (primary limit last n ts).Persists (primary limit' last n' ts)
  connectives : ∀ strength left ts, (connectives limit last n strength left ts).Persists
    (connectives limit' last n' strength left ts)

variable {limit limit' last n n' : Nat}

theorem PersistsWithin.expression (h : PersistsWithin limit limit' last n n') (strength : Nat)
    (ts : List Located) :
    (expression limit last n strength ts).Persists (expression limit' last n' strength ts) :=
  (h.primary ts).andThen fun f rest => h.connectives strength f rest

/-- An attempt that is not cut short comes to the same with more levels. -/
theorem Attempt.of_le {task : Task} {ts : List Located} {r : Reply}
    (h : Attempt limit last task n ts r) (hr : ¬r.IsCut) (hle : n ≤ n') :
    Attempt limit' last task n' ts r := by
  induction h generalizing n' with
  | stray ht _ ih => exact .stray ht (ih (fun hcut => hr (hcut.after _)) hle)
  | prop => exact .prop
  | var => exact .var
  | neg _ ih =>
    obtain ⟨n', rfl⟩ := Nat.exists_eq_add_of_le' (Nat.le_of_add_left_le hle)
    exact .neg (ih (fun hcut => hr (hcut.operand ..)) (Nat.le_of_succ_le_succ hle))
  | quant _ ih =>
    obtain ⟨n', rfl⟩ := Nat.exists_eq_add_of_le' (Nat.le_of_add_left_le hle)
    exact .quant (ih (fun hcut => hr (hcut.operand ..)) (Nat.le_of_succ_le_succ hle))
  | negTooDeep | quantTooDeep | parensTooDeep | joinTooDeep => exact absurd ⟨limit, rfl⟩ hr
  | quantUnbound hts => exact .quantUnbound hts
  | parens _ ih =>
    obtain ⟨n', rfl⟩ := Nat.exists_eq_add_of_le' (Nat.le_of_add_left_le hle)
    exact .parens (ih (fun hcut => hr (hcut.closed _)) (Nat.le_of_succ_le_succ hle))
  | nothing hts => exact .nothing hts
  | chain _ _ ihfirst ihrest =>
    exact .chain (ihfirst id hle) (ihrest (fun hcut => hr (hcut.after _)) hle)
  | noChain hformula _ ih => exact .noChain hformula (ih hr hle)
  | stop hts => exact .stop hts
  | join hs _ _ ihright ihrest =>
    obtain ⟨n', rfl⟩ := Nat.exists_eq_add_of_le' (Nat.le_of_add_left_le hle)
    have hle := Nat.le_of_succ_le_succ hle
    exact .join hs (ihright id hle) (ihrest (fun hcut => hr (hcut.after _)) hle)
  | joinNothing hs _ ih =>
    obtain ⟨n', rfl⟩ := Nat.exists_eq_add_of_le' (Nat.le_of_add_left_le hle)
    exact .joinNothing hs (ih id (Nat.le_of_succ_le_succ hle))
  | joinFault hs _ ih =>
    obtain ⟨n', rfl⟩ := Nat.exists_eq_add_of_le' (Nat.le_of_add_left_le hle)
    exact .joinFault hs (ih hr (Nat.le_of_succ_le_succ hle))

/-- Replies persist with more levels. -/
theorem persistsWithin (hle : n ≤ n') : PersistsWithin limit limit' last n n' := by
  have hpersists (task : Task) (ts : List Located) :
      (task.reply limit last n ts).Persists (task.reply limit' last n' ts) := by
    by_cases hcut : (task.reply limit last n ts).IsCut
    · exact .inl hcut
    · exact .inr ((attempt limit last n task ts).of_le hcut hle).reply_eq
  exact ⟨hpersists .primary, fun s left => hpersists (.connectives s left)⟩

/-- Within a wider limit the reply to a statement is the same, unless it was cut short. -/
theorem expression_eq_of_le (hle : limit ≤ limit') {ts : List Located} {r : Reply}
    (h : expression limit last limit 0 ts = r) (hr : ¬ r.IsCut) :
    expression limit' last limit' 0 ts = r := by
  subst h
  exact ((persistsWithin hle).expression 0 ts).resolve_left hr

end Reading

/-! ### Programs -/

namespace Program

open Reading (expression_eq_of_le)

/-- A program without the fault that there are no levels left is the same within a wider limit. -/
theorem read_eq_of_le {limit limit' last : Nat} (hle : limit ≤ limit') {ts : List Located}
    (h : ∀ d ∈ (read limit last ts).diagnostics, ∀ k, d.error ≠ .nestingTooDeep k) :
    read limit' last ts = read limit last ts := by
  fun_induction read limit last ts with
  | case1 ts hfront => exact read_of_front_eof hfront
  | case2 ts hfront f rest passed hread ih =>
    rw [read_of_formula hfront (expression_eq_of_le hle hread id), ih fun d hd => h d ?_]
    exact List.mem_append_right passed hd
  | case3 ts hfront rest passed hread =>
    exact read_of_nothing hfront (expression_eq_of_le hle hread id)
  | case4 ts hfront d rest passed hread ih =>
    -- the fault is among the diagnostics, and so another one
    have hcut : ¬ (Reading.Reply.fault d rest passed).IsCut := by
      rintro ⟨k, hk⟩
      exact h d (List.mem_append_left _ (List.mem_append_right _ List.mem_cons_self)) k hk
    rw [read_of_fault hfront (expression_eq_of_le hle hread hcut), ih fun d hd => h d ?_]
    exact List.mem_append_right _ hd

end Program

end ClausalForm
