import ClausalForm.Program
import ClausalForm.Proofs.Program.Reading
import ClausalForm.Proofs.Token.Scanning

/-!
# Programs that are written formulas

Every statement of a program has names that the notation knows. Conversely, the written form of a
formula with such names is a program of this one statement and without a fault, provided that
statements may have as many nesting levels as its writing takes.

## Main results

* `isLexable_of_mem_statements`: the names in the statements of a text
* `ofText_render_eq_iff`: when a written formula is read back
* `ofText_render`: both in one statement
-/

namespace ClausalForm.Program

open Reading (AllLexable expression frontToken isLexable_expression)

/-! ### Statements one after the other -/

section Read

variable {limit last : Nat} {ts : List Located}

theorem read_of_front_eof (h : frontToken ts = .eof) : read limit last ts = ⟨[], []⟩ := by
  rw [read, if_pos h]

theorem read_of_formula (hfront : frontToken ts ≠ .eof) {f : Formula} {rest : List Located}
    {passed : List Diagnostic} (h : expression limit last limit 0 ts = .formula f rest passed) :
    read limit last ts = (read limit last rest).after [f] passed := by
  rw [read, if_neg hfront]
  split <;> rename_i heq <;> cases heq.symm.trans h
  rfl

theorem read_of_nothing (hfront : frontToken ts ≠ .eof) {rest : List Located}
    {passed : List Diagnostic} (h : expression limit last limit 0 ts = .nothing rest passed) :
    read limit last ts = ⟨[], passed⟩ := by
  rw [read, if_neg hfront]
  split <;> rename_i heq <;> cases heq.symm.trans h
  rfl

theorem read_of_fault (hfront : frontToken ts ≠ .eof) {d : Diagnostic} {rest : List Located}
    {passed : List Diagnostic} (h : expression limit last limit 0 ts = .fault d rest passed) :
    read limit last ts =
      (read limit last (dropCloseParens rest)).after [] (passed ++ [d]) := by
  rw [read, if_neg hfront]
  split <;> rename_i heq <;> cases heq.symm.trans h
  rfl

end Read

/-- The program of a text is the program of its tokens. -/
theorem result_ofText {limit : Nat} {text : String} {ts : List Located}
    (h : (tokenize text).result = .ok ts) :
    (ofText limit text).result = .ok (ofTokens limit ts) := by
  rw [ofText, Journal.result_bind, h]
  rfl

/-! ### Names -/

theorem isLexable_of_mem_read {limit last : Nat} {ts : List Located} (hts : AllLexable ts) :
    ∀ f ∈ (read limit last ts).statements, f.isLexable := by
  have hreply {ts : List Located} (hts : AllLexable ts) :
      (expression limit last limit 0 ts).IsLexable := isLexable_expression limit last limit 0 hts
  fun_induction read limit last ts with
  | case1 => nofun
  | case2 ts _ f rest passed hread ih =>
    have hf := hreply hts
    rw [hread] at hf
    exact List.forall_mem_cons.mpr ⟨hf.1, ih hf.2⟩
  | case3 => nofun
  | case4 ts _ d rest passed hread ih =>
    have hrest := hreply hts
    rw [hread] at hrest
    exact ih fun t ht => hrest t ((List.dropWhile_suffix _).mem ht)

/-- The statements of a text have names that the notation knows. -/
theorem isLexable_of_mem_statements {limit : Nat} {text : String} {p : Program}
    (h : (ofText limit text).result = .ok p) : ∀ f ∈ p.statements, f.isLexable := by
  rw [ofText, Journal.result_bind, bind_eq_ok_iff] at h
  obtain ⟨ts, hts, h⟩ := h
  cases h
  exact isLexable_of_mem_read (Cursor.isLexable_of_tokens hts)

/-! ### Written formulas -/

/-- Tokens that are read as an expression are a program of this one statement if statements may
have as many levels as reading it takes. -/
theorem read_eq_iff_of_readsExpression {f : Formula} {us : List Token} {need limit last : Nat}
    (h : Reading.ReadsExpression limit last 0 need f us) {ts : List Located}
    (hts : ts.map Located.token = us ++ [.eof]) :
    read limit last ts = ⟨[f], []⟩ ↔ need ≤ limit := by
  obtain ⟨ts', ending, rfl, hts', hending⟩ := List.map_eq_append_iff.mp hts
  obtain ⟨offset, ts'', rfl, hts''⟩ := Reading.exists_eq_cons_of_map hending
  obtain rfl := List.map_eq_nil_iff.mp hts''
  -- after the expression only the end is left, and no connective
  have hstops : Reading.Stops [⟨.eof, offset⟩] := nofun
  have hreply := h limit ts' _ hts' hstops
  have hfront := hreply.frontToken_ne_eof
  rcases hreply with ⟨hle, heq⟩ | ⟨hlt, d, rest, passed, heq⟩
  · rw [read_of_formula hfront heq, read_of_front_eof rfl]
    exact iff_of_true rfl hle
  · -- the fault is among the diagnostics
    rw [read_of_fault hfront heq]
    refine iff_of_false (fun h => ?_) (Nat.not_le.mpr hlt)
    have hdiagnostics := congrArg diagnostics h
    simp [after] at hdiagnostics

theorem read_eq_iff {f : Formula} (hf : f.isLexable) {limit last : Nat} {ts : List Located}
    (hts : ts.map Located.token = f.tokens ++ [.eof]) :
    read limit last ts = ⟨[f], []⟩ ↔ f.nesting ≤ limit :=
  read_eq_iff_of_readsExpression
    ((Reading.readsBack hf).expression 0 fun _ _ _ _ => Nat.zero_le _) hts

/-- A written formula is read back exactly if statements may have the levels of its writing. -/
theorem ofText_render_eq_iff {f : Formula} (hf : f.isLexable) (limit : Nat) :
    (ofText limit f.render).result = .ok ⟨[f], []⟩ ↔ f.nesting ≤ limit := by
  obtain ⟨ts, htokens, hts⟩ := tokenize_render hf
  -- the tokens are there, so that only reading them can fail
  rw [result_ofText htokens, Except.ok.injEq]
  exact read_eq_iff hf hts

/-- Statements of a text can be written, and what can be written is read back exactly if statements
may have the levels of its writing. -/
theorem ofText_render :
    (∀ (limit : Nat) (text : String) (p : Program), (ofText limit text).result = .ok p →
      ∀ f ∈ p.statements, f.isLexable) ∧
    ∀ f : Formula, f.isLexable → ∀ limit : Nat,
      (ofText limit f.render).result = .ok ⟨[f], []⟩ ↔ f.nesting ≤ limit := by
  constructor
  · intro limit text p h
    exact isLexable_of_mem_statements h
  · intro f hf limit
    exact ofText_render_eq_iff hf limit

/-- A formula that takes seven levels, read with seven and with six of them. -/
theorem ofText_render_seven :
    let f : Formula := .quant .universal "x" (.binary .implies (.prop "Man" [.var "x", .var "y"])
      (.binary .implies (.var "b") (.neg (.binary .conj (.prop "A" []) (.prop "B" [])))))
    f.isLexable ∧ (ofText 7 f.render).result = .ok ⟨[f], []⟩ ∧
      (ofText 6 f.render).result ≠ .ok ⟨[f], []⟩ ∧
      ∀ p, (ofText 6 f.render).result = .ok p → ∀ g ∈ p.statements, g.isLexable := by
  intro f
  have hf : f.isLexable := by decide
  have hroundtrip := ofText_render.2 f hf
  refine ⟨hf, (hroundtrip 7).mpr (by decide), fun h => ?_, ofText_render.1 6 f.render⟩
  exact absurd ((hroundtrip 6).mp h) (by decide)

end ClausalForm.Program
