import ClausalForm.Proofs.Program.Parsing

/-!
# Statements by themselves

A formula that is read without a fault ends where no connective follows, whatever follows otherwise.
So statements that are read without a fault stay what they are in front of any other tokens that do
not start with a connective, and leave no trace in how those are read. The other tokens start anew:
nothing but the tokens ahead is handed from one statement to the next.

Where the tokens end is as much a part of them as what they are. Of an end and what comes after it,
only its offset can be seen, and where there is no end, it is at the offset of the last token.

## Main definitions

* `withEnd`: tokens up to their first end, which is added where there is none
* `Reading.Reply.mapRest`: a reply with other tokens left

## Main results

* `Reading.Attempt.append`: what is read without a fault is read so in front of other tokens
* `Reading.Attempt.withEnd`: what comes after the end cannot be seen
* `Program.ofTokens_independent`: programs one after the other
-/

namespace ClausalForm

/-! ### What comes after a formula -/

namespace Reading

variable {limit last n : Nat}

theorem endsChain_append {s : Nat} {ts us : List Located} (hts : EndsChain s (ts.map Located.token))
    (hus : Stops us) : EndsChain s ((ts ++ us).map Located.token) := by
  cases ts with
  | nil => exact hus.endsChain
  | cons t ts =>
    intro op vs h
    obtain ⟨ht, -⟩ := List.cons.inj h
    exact hts op _ (congrArg (· :: ts.map Located.token) ht)

/-- What is read without a fault is read in front of other tokens as well, if they do not go on with
a connective. -/
theorem Attempt.append {task : Task} {ts us rest : List Located} {r : Reply} {f : Formula}
    (h : Attempt limit last task n ts r) (hr : r = .formula f rest []) (hus : Stops us)
    (last' : Nat) : Attempt limit last' task n (ts ++ us) (.formula f (rest ++ us) []) := by
  induction h generalizing f rest with
  | stray => cases (Reply.after_eq_formula_nil.mp hr).1
  | prop =>
    cases hr
    exact .prop
  | var =>
    cases hr
    exact .var
  | neg _ ih =>
    obtain ⟨g, hg, rfl⟩ := Reply.exists_of_operand_eq_formula hr
    exact .neg (ih hg)
  | quant _ ih =>
    obtain ⟨g, hg, rfl⟩ := Reply.exists_of_operand_eq_formula hr
    exact .quant (ih hg)
  | parens _ ih =>
    -- the closing parenthesis is still among the tokens
    obtain ⟨offset', hclosed⟩ := Reply.exists_of_closed_eq_formula hr
    exact .parens (ih hclosed)
  | negTooDeep | quantTooDeep | quantUnbound | parensTooDeep | nothing | joinTooDeep => cases hr
  | chain _ _ ihfirst ihrest =>
    obtain ⟨rfl, rfl⟩ := Reply.after_eq_formula_nil.mp hr
    exact .chain (ihfirst rfl) (ihrest rfl)
  | noChain hformula => exact absurd hr (hformula f rest [])
  | stop hts =>
    cases hr
    exact .stop (endsChain_append hts hus)
  | join hs _ _ ihright ihrest =>
    obtain ⟨rfl, rfl⟩ := Reply.after_eq_formula_nil.mp hr
    exact .join hs (ihright rfl) (ihrest rfl)
  | joinNothing => simp at hr
  | joinFault => cases hr

end Reading

/-! ### What comes after the end -/

/-- The tokens up to the first end, where there is none with an end at the offset `last`. -/
def withEnd (last : Nat) : List Located → List Located
  | [] => [⟨.eof, last⟩]
  | t :: ts => if t.token = .eof then [t] else t :: withEnd last ts

variable {last : Nat} {t : Located} {ts : List Located}

theorem withEnd_cons (ht : t.token ≠ .eof) : withEnd last (t :: ts) = t :: withEnd last ts :=
  if_neg ht

theorem withEnd_cons_eof (ht : t.token = .eof) : withEnd last (t :: ts) = [t] :=
  if_pos ht

theorem frontToken_withEnd (last : Nat) (ts : List Located) :
    Reading.frontToken (withEnd last ts) = Reading.frontToken ts := by
  cases ts with
  | nil => rfl
  | cons t ts =>
    rw [withEnd]
    split <;> rfl

theorem frontOffset_withEnd (last' : Nat) :
    Reading.frontOffset last' (withEnd last ts) = Reading.frontOffset last ts := by
  cases ts with
  | nil => rfl
  | cons t ts =>
    rw [withEnd]
    split <;> rfl

theorem endsChain_withEnd {s : Nat} (h : EndsChain s (ts.map Located.token)) :
    EndsChain s ((withEnd last ts).map Located.token) := by
  cases ts with
  | nil => exact .of_not_connective (t := .eof) nofun _
  | cons t ts =>
    rw [withEnd]
    split
    · exact fun op us heq => h op _ (congrArg (· :: ts.map Located.token) (List.cons.inj heq).1)
    · exact fun op us heq => h op _ (congrArg (· :: ts.map Located.token) (List.cons.inj heq).1)

/-- Nothing after an end is left. -/
theorem withEnd_append_eof {last' : Nat} (ht : t.token = .eof) (us : List Located) :
    withEnd last (ts ++ t :: us) = withEnd last' (ts ++ [t]) := by
  induction ts with
  | nil => rw [List.nil_append, List.nil_append, withEnd_cons_eof ht, withEnd_cons_eof ht]
  | cons t' ts ih => rw [List.cons_append, List.cons_append, withEnd, withEnd, ih]

/-- An end that is added is the first. -/
theorem withEnd_append_last (hts : ∀ t ∈ ts, t.token ≠ .eof) (last' : Nat) :
    withEnd last' (ts ++ [⟨.eof, last⟩]) = withEnd last ts := by
  induction ts with
  | nil => rfl
  | cons t ts ih =>
    rw [List.forall_mem_cons] at hts
    rw [List.cons_append, withEnd_cons hts.1, withEnd_cons hts.1, ih hts.2]

namespace Reading

/-- The reply with other tokens left. -/
def Reply.mapRest (φ : List Located → List Located) : Reply → Reply
  | formula f rest passed => formula f (φ rest) passed
  | nothing rest passed => nothing (φ rest) passed
  | fault d rest passed => fault d (φ rest) passed

namespace Reply

theorem mapRest_after (φ : List Located → List Located) (ds : List Diagnostic) (r : Reply) :
    (r.after ds).mapRest φ = (r.mapRest φ).after ds := by
  cases r <;> rfl

theorem mapRest_operand (φ : List Located → List Located) (c : Command) (offset : Nat)
    (build : Formula → Formula) (r : Reply) :
    (r.operand c offset build).mapRest φ = (r.mapRest φ).operand c offset build := by
  cases r <;> rfl

theorem closed_withEnd (offset : Nat) (r : Reply) :
    (r.closed offset).mapRest (withEnd last) = (r.mapRest (withEnd last)).closed offset := by
  cases r with
  | formula f rest passed =>
    cases rest with
    | nil => rfl
    | cons t rest =>
      obtain ⟨token, offset'⟩ := t
      cases token <;> rfl
  | nothing | fault => rfl

end Reply

variable {limit n : Nat}

/-- What comes after the end cannot be seen. -/
theorem Attempt.withEnd {task : Task} {ts : List Located} {r : Reply}
    (h : Attempt limit last task n ts r) (last' : Nat) :
    Attempt limit last' task n (withEnd last ts) (r.mapRest (ClausalForm.withEnd last)) := by
  induction h with
  | stray ht _ ih =>
    rw [Reply.mapRest_after, withEnd_cons (token_ne_eof_of_isStray ht)]
    exact .stray ht ih
  | prop => exact .prop
  | var => exact .var
  | neg _ ih =>
    rw [Reply.mapRest_operand]
    exact .neg ih
  | quant _ ih =>
    rw [Reply.mapRest_operand]
    exact .quant ih
  | negTooDeep =>
    rw [← frontOffset_withEnd last']
    exact .negTooDeep
  | quantTooDeep =>
    rw [← frontOffset_withEnd last']
    exact .quantTooDeep
  | @quantUnbound n offset q ts hts =>
    rw [← frontOffset_withEnd last', ← frontToken_withEnd last]
    exact .quantUnbound (by rwa [frontToken_withEnd])
  | parens _ ih =>
    rw [Reply.closed_withEnd]
    exact .parens ih
  | parensTooDeep =>
    rw [← frontOffset_withEnd last']
    exact .parensTooDeep
  | nothing hts => exact .nothing ((frontToken_withEnd _ _).trans hts)
  | chain _ _ ihfirst ihrest =>
    rw [Reply.mapRest_after]
    exact .chain ihfirst ihrest
  | @noChain n s ts r hr _ ih =>
    refine .noChain (fun f rest passed heq => ?_) ih
    cases r with
    | formula f rest passed => exact hr f rest passed rfl
    | nothing | fault => cases heq
  | stop hts => exact .stop (endsChain_withEnd hts)
  | joinTooDeep hs => exact .joinTooDeep hs
  | join hs _ _ ihright ihrest =>
    rw [Reply.mapRest_after]
    exact .join hs ihright ihrest
  | joinNothing hs _ ih => exact .joinNothing hs ih
  | joinFault hs _ ih => exact .joinFault hs ih

end Reading

/-! ### Programs -/

namespace Program

open Reading (Attempt Stops attempt_iff frontToken)

variable {limit : Nat}

/-- Statements that are read without a fault are read in front of other tokens as well, if these do
not start with a connective, and the other tokens are read as they are without them. -/
theorem read_append {us : List Located} (hts : ∀ t ∈ ts, t.token ≠ .eof)
    (h : (read limit last ts).diagnostics = []) (hus : Stops us) (last' : Nat) :
    read limit last' (ts ++ us) =
      (read limit last' us).after (read limit last ts).statements [] := by
  fun_induction read limit last ts with
  | case1 ts hfront =>
    -- the end cannot be at the front of other tokens
    cases ts with
    | nil => rfl
    | cons t ts => exact absurd hfront (List.forall_mem_cons.mp hts).1
  | case2 ts hfront f rest passed hread ih =>
    obtain ⟨rfl, hrest⟩ := List.append_eq_nil_iff.mp h
    have hattempt : Attempt limit last (.expression 0) limit ts (.formula f rest []) :=
      attempt_iff.mpr hread
    have hrestTokens : ∀ t ∈ rest, t.token ≠ .eof :=
      fun t ht => hts t (hattempt.leaves.isSuffix.mem ht)
    have hexpression := (hattempt.append rfl hus last').reply_eq
    have hfront' : frontToken (ts ++ us) ≠ .eof := by
      cases ts with
      | nil => exact absurd rfl hfront
      | cons t ts => exact hfront
    rw [read_of_formula hfront' hexpression, ih hrestTokens hrest]
    rfl
  | case3 ts hfront rest passed hread =>
    cases h
    have hattempt : Attempt limit last (.expression 0) limit ts (.nothing rest []) :=
      attempt_iff.mpr hread
    exact absurd (hattempt.frontToken_eq_eof rfl) hfront
  | case4 ts hfront d rest passed hread ih => simp [after] at h

theorem dropCloseParens_withEnd (ts : List Located) :
    dropCloseParens (withEnd last ts) = withEnd last (dropCloseParens ts) := by
  induction ts with
  | nil => rfl
  | cons t ts ih =>
    obtain ⟨token, offset⟩ := t
    cases token with
    | closeParen => exact ih
    | openParen | prop | var | command | eof => rfl

/-- What comes after the end makes no difference. -/
theorem read_withEnd (last' : Nat) (ts : List Located) :
    read limit last' (withEnd last ts) = read limit last ts := by
  have hreply {r : Reading.Reply} {ts : List Located}
      (h : Reading.expression limit last limit 0 ts = r) :
      Reading.expression limit last' limit 0 (withEnd last ts) = r.mapRest (withEnd last) := by
    have hattempt : Attempt limit last (.expression 0) limit ts r := attempt_iff.mpr h
    exact (hattempt.withEnd last').reply_eq
  fun_induction read limit last ts with
  | case1 ts hfront => exact read_of_front_eof ((frontToken_withEnd last ts).trans hfront)
  | case2 ts hfront f rest passed hread ih =>
    rw [← frontToken_withEnd last] at hfront
    rw [read_of_formula hfront (hreply hread), ih]
  | case3 ts hfront rest passed hread =>
    rw [← frontToken_withEnd last] at hfront
    exact read_of_nothing hfront (hreply hread)
  | case4 ts hfront d rest passed hread ih =>
    rw [← frontToken_withEnd last] at hfront
    rw [read_of_fault hfront (hreply hread), dropCloseParens_withEnd, ih]

/-- Programs one after the other: a program without a fault in front of tokens that do not start
with a connective adds its statements and nothing else. What comes after the first end makes no
difference, and where there is no end, it is as if there were one at the offset of the last
token. -/
theorem ofTokens_independent (limit : Nat) :
    (∀ (ts us : List Located) (e : Located), (∀ t ∈ ts, t.token ≠ .eof) → e.token = .eof →
      (ofTokens limit ts).diagnostics = [] → Stops us →
        ofTokens limit (ts ++ us ++ [e]) =
          (ofTokens limit (us ++ [e])).after (ofTokens limit ts).statements []) ∧
    (∀ (ts us : List Located) (e : Located), e.token = .eof →
      ofTokens limit (ts ++ e :: us) = ofTokens limit (ts ++ [e])) ∧
    ∀ ts : List Located, (∀ t ∈ ts, t.token ≠ .eof) →
      ofTokens limit ts = ofTokens limit (ts ++ [⟨.eof, lastOffset ts⟩]) := by
  refine ⟨fun ts us e hts he h hus => ?_, fun ts us e he => ?_, fun ts hts => ?_⟩
  · have hstops : Stops (us ++ [e]) := by
      cases us with
      | nil =>
        rintro op offset rest heq
        cases heq
        cases he
      | cons u us => exact fun op offset rest heq => hus op offset us (by cases heq; rfl)
    have hlast : lastOffset (ts ++ (us ++ [e])) = lastOffset (us ++ [e]) := by simp [lastOffset]
    rw [List.append_assoc, ofTokens, hlast]
    exact read_append hts h hstops _
  · rw [ofTokens, ofTokens, ← read_withEnd 0, withEnd_append_eof he, read_withEnd]
  · rw [ofTokens, ofTokens, ← read_withEnd 0, ← withEnd_append_last hts, read_withEnd]

/-- Two statements in front of tokens that have all kinds of faults. -/
theorem ofTokens_independent_faulty :
    let located (us : List Token) : List Located := us.map fun t => ⟨t, 0⟩
    let ts := located [.prop "P" [] "P", .command (.connective .conj), .var "x",
      .command .neg, .prop "Q" [] "Q"]
    let us := located [.closeParen, .openParen, .var "y", .command (.quantifier .universal),
      .openParen, .command (.connective .iff), .command .neg]
    let p := ofTokens 4 (us ++ [⟨.eof, 7⟩])
    (ofTokens 4 ts).diagnostics = [] ∧ (ofTokens 4 ts).statements.length = 2 ∧
      p.diagnostics.length = 5 ∧
      ofTokens 4 (ts ++ us ++ [⟨.eof, 7⟩]) = p.after (ofTokens 4 ts).statements [] ∧
      ofTokens 4 (us ++ ⟨.eof, 7⟩ :: ts) = p ∧
      ofTokens 4 ts = ofTokens 4 (ts ++ [⟨.eof, 0⟩]) := by
  intro located ts us p
  obtain ⟨happend, hend, hlast⟩ := ofTokens_independent 4
  have hts : ∀ t ∈ ts, t.token ≠ .eof := by decide
  have hdiagnostics : (ofTokens 4 ts).diagnostics = [] := by decide +kernel
  have hstops : Stops us := fun op offset rest h => by simp [us, located] at h
  exact ⟨hdiagnostics, by decide +kernel, by decide +kernel,
    happend ts us ⟨.eof, 7⟩ hts rfl hdiagnostics hstops, hend us ts ⟨.eof, 7⟩ rfl, hlast ts hts⟩

end Program

end ClausalForm
