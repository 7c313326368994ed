import ClausalForm.Proofs.Program.Attempts
import ClausalForm.Proofs.Program.RoundTrip
import ClausalForm.Proofs.Token.Spacing

/-!
# Offsets

The offsets of the tokens go nowhere but into the diagnostics: when every token is moved, the
statements that are read stay the same, and the diagnostics move along. So the layout of a text, the
words that its commands are named by and the characters in its gaps make no difference to what is
read from it.

## Main definitions

* `Located.move`, `Diagnostic.move`, `Reading.Reply.move`, `Program.move`: the same at other offsets

## Main results

* `Reading.Attempt.move`: what the reader does with tokens that were moved
* `Reading.moves`: a reply to tokens that were moved
* `Program.read_move`: a program of tokens that were moved
* `Program.ofText_spaced`: a text whose tokens are written apart
-/

namespace ClausalForm

/-- The token at another offset. -/
def Located.move (φ : Nat → Nat) (t : Located) : Located :=
  { t with offset := φ t.offset }

/-- The diagnostic at another offset. -/
def Diagnostic.move (φ : Nat → Nat) (d : Diagnostic) : Diagnostic :=
  { d with offset := φ d.offset }

variable {φ : Nat → Nat}

namespace Reading

/-- The reply at other offsets. -/
def Reply.move (φ : Nat → Nat) : Reply → Reply
  | formula f rest passed => formula f (rest.map (Located.move φ)) (passed.map (Diagnostic.move φ))
  | nothing rest passed => nothing (rest.map (Located.move φ)) (passed.map (Diagnostic.move φ))
  | fault d rest passed =>
    fault (d.move φ) (rest.map (Located.move φ)) (passed.map (Diagnostic.move φ))

namespace Reply

theorem move_after (ds : List Diagnostic) (r : Reply) :
    (r.after ds).move φ = (r.move φ).after (ds.map (Diagnostic.move φ)) := by
  cases r <;> simp only [after, move, List.map_append]

theorem move_andThen {next next' : Formula → List Located → Reply}
    (hnext : ∀ f rest, next' f (rest.map (Located.move φ)) = (next f rest).move φ) (r : Reply) :
    (r.andThen next).move φ = (r.move φ).andThen next' := by
  cases r with
  | formula f rest passed =>
    rw [andThen, move_after, ← hnext]
    rfl
  | nothing | fault => rfl

theorem move_operand (c : Command) (offset : Nat) (build : Formula → Formula) (r : Reply) :
    (r.operand c offset build).move φ = (r.move φ).operand c (φ offset) build := by
  cases r <;> rfl

theorem move_closed (offset : Nat) (r : Reply) :
    (r.closed offset).move φ = (r.move φ).closed (φ offset) := by
  cases r with
  | formula f rest passed =>
    cases rest with
    | nil => simp [closed, move, Diagnostic.move]
    | cons t rest =>
      obtain ⟨token, offset'⟩ := t
      cases token <;> simp [closed, move, Diagnostic.move, Located.move]
  | nothing rest passed => simp [closed, move, Diagnostic.move]
  | fault => rfl

end Reply

theorem frontToken_move (ts : List Located) :
    frontToken (ts.map (Located.move φ)) = frontToken ts := by
  cases ts <;> rfl

theorem frontOffset_move (last : Nat) (ts : List Located) :
    frontOffset (φ last) (ts.map (Located.move φ)) = φ (frontOffset last ts) := by
  cases ts <;> rfl

/-- With `n` levels the reply to tokens that were moved is the reply to the tokens, moved along. -/
structure Moves (φ : Nat → Nat) (limit last n : Nat) : Prop where
  primary : ∀ ts, primary limit (φ last) n (ts.map (Located.move φ)) =
    (primary limit last n ts).move φ
  connectives : ∀ strength left ts,
    connectives limit (φ last) n strength left (ts.map (Located.move φ)) =
      (connectives limit last n strength left ts).move φ

variable {limit last n : Nat}

theorem Moves.expression (h : Moves φ limit last n) (strength : Nat) (ts : List Located) :
    expression limit (φ last) n strength (ts.map (Located.move φ)) =
      (expression limit last n strength ts).move φ := by
  rw [Reading.expression, Reading.expression, h.primary]
  exact (Reply.move_andThen (h.connectives strength) _).symm

/-- Attempts move along with the tokens. -/
theorem Attempt.move {task : Task} {ts : List Located} {r : Reply}
    (h : Attempt limit last task n ts r) (φ : Nat → Nat) :
    Attempt limit (φ last) task n (ts.map (Located.move φ)) (r.move φ) := by
  induction h with
  | stray ht _ ih =>
    rw [Reply.move_after]
    exact .stray ht ih
  | prop => exact .prop
  | var => exact .var
  | neg _ ih =>
    rw [Reply.move_operand]
    exact .neg ih
  | quant _ ih =>
    rw [Reply.move_operand]
    exact .quant ih
  | negTooDeep =>
    rw [Reply.move, Diagnostic.move, ← frontOffset_move (φ := φ)]
    exact .negTooDeep
  | quantTooDeep =>
    rw [Reply.move, Diagnostic.move, ← frontOffset_move (φ := φ)]
    exact .quantTooDeep
  | parensTooDeep =>
    rw [Reply.move, Diagnostic.move, ← frontOffset_move (φ := φ)]
    exact .parensTooDeep
  | @quantUnbound n offset q ts hts =>
    rw [← frontToken_move (φ := φ)] at hts ⊢
    rw [Reply.move, Diagnostic.move, ← frontOffset_move (φ := φ)]
    exact .quantUnbound hts
  | parens _ ih =>
    rw [Reply.move_closed]
    exact .parens ih
  | nothing hts => exact .nothing ((frontToken_move _).trans hts)
  | chain _ _ ihfirst ihrest =>
    rw [Reply.move_after]
    exact .chain ihfirst ihrest
  | @noChain n s ts r hr _ ih =>
    refine .noChain (fun f rest passed heq => ?_) ih
    cases r with
    | formula f rest passed => exact hr f rest passed rfl
    | nothing | fault => cases heq
  | stop hts => exact .stop (by simpa [Located.move, Function.comp_def] using hts)
  | joinTooDeep hs => exact .joinTooDeep hs
  | join hs _ _ ihright ihrest =>
    rw [Reply.move_after]
    exact .join hs ihright ihrest
  | joinNothing hs _ ih =>
    rw [Reply.move, List.map_append]
    exact .joinNothing hs ih
  | joinFault hs _ ih => exact .joinFault hs ih

/-- The reply to tokens that were moved is the reply to the tokens, moved along. -/
theorem moves (φ : Nat → Nat) (limit last n : Nat) : Moves φ limit last n :=
  ⟨fun ts => ((attempt limit last n .primary ts).move φ).reply_eq,
    fun s left ts => ((attempt limit last n (.connectives s left) ts).move φ).reply_eq⟩

end Reading

/-! ### Programs -/

namespace Program

open Reading (expression frontToken frontToken_move moves)

/-- The program with its diagnostics at other offsets. -/
def move (φ : Nat → Nat) (p : Program) : Program :=
  ⟨p.statements, p.diagnostics.map (Diagnostic.move φ)⟩

theorem move_after (fs : List Formula) (ds : List Diagnostic) (p : Program) :
    (p.after fs ds).move φ = (p.move φ).after fs (ds.map (Diagnostic.move φ)) := by
  rw [after, move, List.map_append]
  rfl

theorem dropCloseParens_move (ts : List Located) :
    dropCloseParens (ts.map (Located.move φ)) = (dropCloseParens ts).map (Located.move φ) :=
  List.dropWhile_map ..

/-- The program of tokens that were moved has the same statements, and its diagnostics are moved
along. -/
theorem read_move (φ : Nat → Nat) (limit last : Nat) (ts : List Located) :
    read limit (φ last) (ts.map (Located.move φ)) = (read limit last ts).move φ := by
  have hreply {ts : List Located} {r : Reading.Reply} (h : expression limit last limit 0 ts = r) :
      expression limit (φ last) limit 0 (ts.map (Located.move φ)) = r.move φ := by
    rw [(moves φ limit last limit).expression, h]
  fun_induction read limit last ts with
  | case1 ts hfront =>
    rw [← frontToken_move] at hfront
    exact read_of_front_eof hfront
  | case2 ts hfront f rest passed hread ih =>
    rw [← frontToken_move] at hfront
    rw [read_of_formula hfront (hreply hread), ih, move_after]
  | case3 ts hfront rest passed hread =>
    rw [← frontToken_move] at hfront
    exact read_of_nothing hfront (hreply hread)
  | case4 ts hfront d rest passed hread ih =>
    rw [← frontToken_move] at hfront
    rw [read_of_fault hfront (hreply hread), dropCloseParens_move, ih, move_after, List.map_append]
    rfl

/-- Tokens that differ at most in their offsets have programs that differ at most in the offsets of
their diagnostics. -/
theorem ofTokens_congr {ts ts' : List Located}
    (h : ts'.map Located.token = ts.map Located.token) (limit : Nat) :
    (ofTokens limit ts').statements = (ofTokens limit ts).statements ∧
      (ofTokens limit ts').diagnostics.map (·.error) =
        (ofTokens limit ts).diagnostics.map (·.error) := by
  -- all tokens are moved to the same place
  let φ : Nat → Nat := fun _ => 0
  have hmove : ts'.map (Located.move φ) = ts.map (Located.move φ) := by
    have hplaced := congrArg (List.map fun t => Located.mk t 0) h
    rwa [List.map_map, List.map_map] at hplaced
  have hread : (ofTokens limit ts').move φ = (ofTokens limit ts).move φ := by
    rw [ofTokens, ofTokens, ← read_move, ← read_move, hmove]
  constructor
  · have hstatements := congrArg statements hread
    exact hstatements
  · have herrors := congrArg (fun p => p.diagnostics.map (·.error)) hread
    simp only [move, List.map_map] at herrors
    exact herrors

/-- When the tokens of a text are written apart, commands by their canonical words, then this text
has the same tokens, and within every limit the same statements and the same faults in the same
order. -/
theorem ofText_spaced {text : String} {ts : List Located}
    (h : (tokenize text).result = .ok ts) :
    let text' := spaced (ts.dropLast.map Located.token)
    (∃ ts', (tokenize text').result = .ok ts' ∧
      ts'.map Located.token = ts.map Located.token) ∧
    ∀ limit, ∃ p p', (ofText limit text).result = .ok p ∧ (ofText limit text').result = .ok p' ∧
      p'.statements = p.statements ∧
      p'.diagnostics.map (·.error) = p.diagnostics.map (·.error) := by
  intro text'
  obtain ⟨ts', hts', htokens⟩ := exists_tokenize_spaced h
  refine ⟨⟨ts', hts', htokens⟩, fun limit => ?_⟩
  exact ⟨ofTokens limit ts, ofTokens limit ts', result_ofText h, result_ofText hts',
    ofTokens_congr htokens limit⟩

/-- A text without blanks around its command, with another word for it, a character that belongs to
no token, a stray parenthesis, and an argument list that the end of the text closes. -/
theorem ofText_spaced_unclosed :
    let text := "P\\wedge)é  Q(x,\ty"
    let ts : List Located := [⟨.prop "P" [] "P", 0⟩, ⟨.command (.connective .conj), 1⟩,
      ⟨.closeParen, 7⟩, ⟨.prop "Q" ["x", "y"] "Q(x,\ty", 11⟩, ⟨.eof, 17⟩]
    let text' := "P \\land ) Q(x,\ty"
    (tokenize text).result = .ok ts ∧ spaced (ts.dropLast.map Located.token) = text' ∧
      (∃ ts', (tokenize text').result = .ok ts' ∧ ts'.map Located.token = ts.map Located.token) ∧
      ∀ limit, ∃ p p', (ofText limit text).result = .ok p ∧ (ofText limit text').result = .ok p' ∧
        p'.statements = p.statements ∧
        p'.diagnostics.map (·.error) = p.diagnostics.map (·.error) := by
  intro text ts text'
  have hts : (tokenize text).result = .ok ts := by decide +kernel
  have htext' : spaced (ts.dropLast.map Located.token) = text' := by decide +kernel
  have hspaced := ofText_spaced hts
  rw [htext'] at hspaced
  exact ⟨hts, htext', hspaced⟩

end Program

end ClausalForm
