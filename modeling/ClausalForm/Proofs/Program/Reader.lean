import ClausalForm.Proofs.Program.Blame
import ClausalForm.Proofs.Program.ReaderSteps

/-!
# What readers come to

A reader comes to the program of its tokens: it comes to an end, its counter is never lowered below
zero, and what it takes for an atom is one. It gets there statement by statement, and each of them,
also one that is dropped, costs at least one token. The state that it starts in makes no difference
to any of this.

## Main definitions

* `Reader.resumption`: where the next statement is looked for
* `Reader.Settles`: a run comes to an end in a state with a property

## Main results

* `Reader.exists_program_eq`: a reader comes to the program
* `Reader.settles_turn`: every statement costs a token
* `Reader.settles_and_blames`: readers in every state, and what their diagnostics are about
-/

namespace ClausalForm.Reader

open Reading (Attempt Reply frontToken)

variable {limit last depth : Nat} {ts : List Located} {passed : List Diagnostic}

/-! ### Statements -/

theorem comes_recover (hts : EndsAt last ts) :
    Comes recover (place last ts depth passed) ()
      (place last (Program.dropCloseParens ts) depth passed) := by
  induction ts with
  | nil =>
    refine .call (.get_bind ?_)
    exact .pure _ _
  | cons t ts ih =>
    obtain ⟨token, offset⟩ := t
    refine .call (.get_bind ?_)
    cases token with
    | closeParen => exact .bind (comes_skip hts) (ih hts.tail)
    | openParen | prop | var | command | eof => exact .pure _ _

/-- Where reading is resumed after a reply. -/
def resumption : Reply → List Located
  | .formula _ rest _ | .nothing rest _ => rest
  | .fault _ rest _ => Program.dropCloseParens rest

theorem resumption_suffix (r : Reply) : resumption r <:+ r.rest := by
  cases r with
  | formula | nothing => exact List.suffix_rfl
  | fault => exact (Program.leaves_dropCloseParens _).isSuffix

/-- The statement that a reply adds to a program. -/
def statement? : Reply → Option Formula
  | .formula f _ _ => some f
  | .nothing _ _ | .fault _ _ _ => none

/-- A turn of the loop starts with the counter at zero, wherever it was. -/
theorem comes_turn {r : Reply} (hts : EndsAt last ts)
    (hr : Reading.expression limit last limit 0 ts = r) :
    Comes (turn limit) (place last ts depth passed) (statement? r)
      (place last (resumption r) 0 (passed ++ r.diagnostics)) := by
  have hattempt : Attempt limit last (.expression 0) limit ts r := Reading.attempt_iff.mpr hr
  have hreads : Reads last 0 (expression limit 0) ts r := readsTask_of_attempt hattempt rfl hts
  have hrest : EndsAt last r.rest := hts.of_suffix hattempt.leaves.isSuffix
  refine .bind (comes_setDepth 0 _) (.bind (hreads passed) ?_)
  cases r with
  | formula | nothing => exact .pure _ _
  | fault d rest ds =>
    rw [Reply.diagnostics, ← List.append_assoc]
    exact .bind (comes_warn d _) (.bind (comes_recover hrest) (.pure _ _))

theorem suffix_of_expression {n s : Nat} {r : Reply}
    (h : Reading.expression limit last n s ts = r) : r.rest <:+ ts := by
  have hattempt : Attempt limit last (.expression s) n ts r := Reading.attempt_iff.mpr h
  exact hattempt.leaves.isSuffix

theorem comes_statements_of_eof (h : frontToken ts = .eof) :
    Comes (statements limit) (place last ts depth passed) [] (place last ts depth passed) := by
  refine .call (.get_bind ?_)
  have hfront : (place last ts depth passed).front.token = .eof := h
  simp only [if_pos hfront]
  exact .pure _ _

theorem comes_statements_of_turn {f : Option Formula} {fs : List Formula} {c c' : Reader}
    (h : frontToken ts ≠ .eof) (hfirst : Comes (turn limit) (place last ts depth passed) f c)
    (hrest : Comes (statements limit) c fs c') :
    Comes (statements limit) (place last ts depth passed) (f.toList ++ fs) c' := by
  refine .call (.get_bind ?_)
  have hfront : ¬(place last ts depth passed).front.token = .eof := h
  simp only [if_neg hfront]
  exact .bind hfirst (.bind hrest (.pure _ _))

/-- A reader comes to the statements and the diagnostics of a program. -/
theorem comes_statements (limit : Nat) (hts : EndsAt last ts) (depth : Nat)
    (passed : List Diagnostic) :
    ∃ c, Comes (statements limit) (place last ts depth passed)
        (Program.read limit last ts).statements c ∧
      c.passed = passed ++ (Program.read limit last ts).diagnostics := by
  fun_induction Program.read limit last ts generalizing depth passed with
  | case1 ts hfront => exact ⟨_, comes_statements_of_eof hfront, (List.append_nil _).symm⟩
  | case2 ts hfront f rest ds hread ih =>
    have hrest := hts.of_suffix (suffix_of_expression hread)
    obtain ⟨c, hcomes, hc⟩ := ih hrest 0 (passed ++ ds)
    refine ⟨c, comes_statements_of_turn hfront (comes_turn hts hread) hcomes, ?_⟩
    rw [hc, List.append_assoc]
    rfl
  | case3 ts hfront rest ds hread =>
    have hattempt : Attempt limit last (.expression 0) limit ts (.nothing rest ds) :=
      Reading.attempt_iff.mpr hread
    have hrest : frontToken rest = .eof := hattempt.leavesEnd.1 rfl
    exact ⟨_, comes_statements_of_turn hfront (comes_turn hts hread)
      (comes_statements_of_eof hrest), rfl⟩
  | case4 ts hfront d rest ds hread ih =>
    have hrest := (hts.of_suffix (suffix_of_expression hread)).of_suffix
      (Program.leaves_dropCloseParens rest).isSuffix
    obtain ⟨c, hcomes, hc⟩ := ih hrest 0 (passed ++ (ds ++ [d]))
    refine ⟨c, comes_statements_of_turn hfront (comes_turn hts hread) hcomes, ?_⟩
    rw [hc, List.append_assoc]
    rfl

theorem start_eq_place (ts : List Located) :
    start ts = place (Program.lastOffset ts) ts 0 [] := by
  cases ts <;> rfl

theorem endsAt_lastOffset (ts : List Located) : EndsAt (Program.lastOffset ts) ts := by
  intro t ht
  rw [Program.lastOffset, Option.mem_def.mp ht]
  rfl

/-- A reader comes to the program. -/
theorem exists_program_eq (limit : Nat) (ts : List Located) :
    ∃ k, ∀ n ≥ k, program limit n ts = .ok (Program.ofTokens limit ts) := by
  obtain ⟨c, ⟨k, hk⟩, hc⟩ := comes_statements limit (endsAt_lastOffset ts) 0 []
  refine ⟨k, fun n hn => ?_⟩
  have hrun : (statements limit n).run (start ts) =
      .ok ((Program.ofTokens limit ts).statements, c) := by
    rw [start_eq_place]
    exact hk n hn
  rw [program, hrun]
  show Except.ok (Program.mk _ c.passed) = _
  rw [hc]
  rfl

/-! ### Every state -/

/-- Given fuel enough, the run comes to an end in a state with the property, and does not break
down. -/
def Settles {α : Type} (x : (fuel : Nat) → Run α) (c : Reader) (P : Reader → Prop) : Prop :=
  ∃ a c', Comes x c a c' ∧ P c'

/-- Every reader is in front of some tokens, so what holds in front of all tokens holds in every
state. -/
theorem Reads.settles {x : Nat → Run Answer} {c : Reader} {r : Reply}
    (h : Reads (Program.lastOffset (c.front :: c.ahead)) c.depth x (c.front :: c.ahead) r) :
    Settles x c fun c' => c'.depth = c.depth :=
  ⟨_, _, h c.passed, rfl⟩

theorem settles_primary (limit : Nat) (c : Reader) :
    Settles (primary limit) c fun c' => c'.depth = c.depth :=
  (readsTask limit c.depth (endsAt_lastOffset _) .primary).settles

theorem settles_expression (limit s : Nat) (c : Reader) :
    Settles (expression limit s) c fun c' => c'.depth = c.depth :=
  (readsTask limit c.depth (endsAt_lastOffset _) (.expression s)).settles

theorem settles_connectives (limit s : Nat) (left : Formula) (c : Reader) :
    Settles (connectives limit s left) c fun c' => c.depth ≤ c'.depth := by
  have hts := endsAt_lastOffset (c.front :: c.ahead)
  obtain ⟨a, depth, -, hdepth, hcomes⟩ :=
    readsTask limit c.depth hts (.connectives s left) c.passed
  exact ⟨a, _, hcomes, hdepth⟩

theorem settles_quantified (limit : Nat) (q : Quantifier) (c : Reader) :
    Settles (quantified limit q) c fun c' => c'.depth = c.depth := by
  have hts := endsAt_lastOffset (c.front :: c.ahead)
  by_cases hvar : ∃ x, frontToken c.ahead = .var x
  · obtain ⟨x, hx⟩ := hvar
    obtain ⟨front, ahead, depth, passed⟩ := c
    cases ahead with
    | nil => cases hx
    | cons t ts =>
      obtain ⟨token, offset⟩ := t
      obtain rfl : token = .var x := hx
      by_cases hdepth : depth < limit
      · have hbody := readsTask limit (depth + 1) hts.tail.tail .primary
        exact (reads_quant hts hdepth hbody).settles
      · exact (reads_quant_tooDeep hts (Nat.not_lt.mp hdepth)).settles
  · exact (reads_quantUnbound hts fun x hx => hvar ⟨x, hx⟩).settles

theorem depth_of_atom {c c' : Reader} {f : Formula} (h : atom c = .ok (f, c')) :
    c'.depth = c.depth := by
  obtain ⟨⟨token, offset⟩, ahead, depth, passed⟩ := c
  cases token with
  | prop | var =>
    cases h
    rfl
  | openParen | closeParen | command | eof => cases h

theorem unread_place (last : Nat) (ts : List Located) (depth : Nat) (passed : List Diagnostic) :
    (place last ts depth passed).unread = if frontToken ts = .eof then [] else ts := by
  cases ts <;> rfl

/-- There is less to read where reading is resumed, unless the end is there. -/
theorem length_resumption_lt {r : Reply} (hr : Reading.expression limit last limit 0 ts = r)
    (h : frontToken (resumption r) ≠ .eof) : (resumption r).length < ts.length := by
  have hprogress := (Reading.expression_progress limit last limit 0 ts).2
  rw [hr] at hprogress
  refine Nat.lt_of_le_of_lt (resumption_suffix r).length_le (hprogress ?_)
  cases r with
  | formula | fault => rfl
  | nothing rest ds =>
    have hattempt : Attempt limit last (.expression 0) limit ts (.nothing rest ds) :=
      Reading.attempt_iff.mpr hr
    exact absurd (hattempt.leavesEnd.1 rfl) h

/-- Every turn of the loop takes a token, whether it comes to a statement or not. -/
theorem settles_turn (limit : Nat) {c : Reader} (h : c.front.token ≠ .eof) :
    Settles (turn limit) c fun c' =>
      c'.unread <:+ c.unread ∧ c'.unread.length < c.unread.length := by
  let ts := c.front :: c.ahead
  let r := Reading.expression limit (Program.lastOffset ts) limit 0 ts
  have hturn : Comes (turn limit) c (statement? r)
      (place (Program.lastOffset ts) (resumption r) 0 (c.passed ++ r.diagnostics)) :=
    comes_turn (endsAt_lastOffset ts) rfl
  have hsuffix : resumption r <:+ ts := (resumption_suffix r).trans (suffix_of_expression rfl)
  refine ⟨_, _, hturn, ?_⟩
  show Reader.unread (place ..) <:+ c.unread ∧ (Reader.unread (place ..)).length < c.unread.length
  rw [unread_place, unread, if_neg h]
  split
  · exact ⟨List.nil_suffix, Nat.zero_lt_succ _⟩
  · rename_i hfront
    exact ⟨hsuffix, length_resumption_lt rfl hfront⟩

/-- A reader comes to the program of its tokens. In whatever state it starts, every turn of its loop
takes a token, and it does not break down. The readers of formulas leave the counter as it was: that
of primaries, of quantified formulas, of expressions and of atoms. Joining connectives raises it on
purpose, a level for each, and does not lower it; the reader of the expression sets it back when it
is done with them. Every diagnostic of the program is about a token before the end, and no two of
them are about the same one. -/
theorem settles_and_blames (limit : Nat) :
    (∀ ts, ∃ k, ∀ fuel ≥ k, program limit fuel ts = .ok (Program.ofTokens limit ts)) ∧
    (∀ c : Reader, c.front.token ≠ .eof → Settles (turn limit) c fun c' =>
      c'.unread <:+ c.unread ∧ c'.unread.length < c.unread.length) ∧
    (∀ c : Reader,
      (Settles (primary limit) c fun c' => c'.depth = c.depth) ∧
      (∀ q, Settles (quantified limit q) c fun c' => c'.depth = c.depth) ∧
      (∀ s, Settles (expression limit s) c fun c' => c'.depth = c.depth) ∧
      (∀ s left, Settles (connectives limit s left) c fun c' => c.depth ≤ c'.depth) ∧
      ∀ f c', atom c = .ok (f, c') → c'.depth = c.depth) ∧
    ∀ ts, (∃ places : List Nat, places.Nodup ∧
        (∀ i ∈ places, i < (Reading.beforeEnd ts).length) ∧
        List.Forall₂ (fun d i => Blames limit (Program.lastOffset ts) d (ts.drop i))
          (Program.ofTokens limit ts).diagnostics places) ∧
      (Program.ofTokens limit ts).diagnostics.length ≤ (Reading.beforeEnd ts).length := by
  refine ⟨exists_program_eq limit, fun c hc => settles_turn limit hc, fun c => ?_, fun ts => ?_⟩
  · exact ⟨settles_primary limit c, fun q => settles_quantified limit q c,
      fun s => settles_expression limit s c, fun s left => settles_connectives limit s left c,
      fun f c' => depth_of_atom⟩
  · exact Program.exists_places_of_ofTokens limit ts

/-- Five tokens with four faults, two of which cost a statement. -/
theorem settles_and_blames_faulty :
    let us : List Token := [.closeParen, .openParen, .command .neg,
      .command (.quantifier .universal), .command (.connective .conj)]
    let ts : List Located := us.mapIdx fun i t => ⟨t, i⟩
    let p := Program.ofTokens 1 ts
    p.diagnostics.map Diagnostic.error = [.unexpectedToken .closeParen, .nestingTooDeep 1,
        .missingBoundVariable .universal (.command (.connective .conj)),
        .unexpectedToken (.command (.connective .conj))] ∧
      program 1 8 ts = .ok p ∧
      (∃ k, ∀ fuel ≥ k, program 1 fuel ts = .ok p) ∧
      (start ts).front.token ≠ .eof ∧
      (Settles (turn 1) (start ts) fun c =>
        c.unread <:+ (start ts).unread ∧ c.unread.length < (start ts).unread.length) ∧
      (Settles (expression 1 0) (start ts) fun c => c.depth = 0) ∧
      p.diagnostics.length ≤ 5 := by
  intro us ts p
  obtain ⟨hprogram, hturn, hdepth, hblames⟩ := settles_and_blames 1
  have hfront : (start ts).front.token ≠ .eof := nofun
  exact ⟨by decide +kernel, by decide +kernel, hprogram ts, hfront, hturn _ hfront,
    (hdepth (start ts)).2.2.1 0, (hblames ts).2⟩

end ClausalForm.Reader
