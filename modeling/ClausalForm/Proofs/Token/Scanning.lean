import ClausalForm.Proofs.Formula.Written
import ClausalForm.Proofs.Token.Layout

/-!
# Reading tokens and writing them

Every token that is read from a text has names that the notation knows. Conversely, a written
formula is read as its tokens, whatever stands before and after it, as long as what follows cannot
belong to its last token.

## Main definitions

* `Tokenizes`: what the tokens of some characters are, at any offset
* `Ends`: characters that end the token before them
* `WrittenAs`: the tokens of a text, wherever it stands before such characters

## Main results

* `isLexable_of_tokens`: the names in the tokens of a text
* `tokenizes_render`: the tokens of a written formula
-/

namespace ClausalForm

/-! ### Tokens that are read -/

/-- A token that is written with characters has names that the notation knows. -/
theorem Token.Spelling.isLexable {t : Token} {chars rest : List Char}
    (h : t.Spelling chars rest) : t.isLexable := by
  cases h with
  | openParen | closeParen | command => rfl
  | var hc => exact isVariableName_iff.mpr ⟨_, hc, rfl⟩
  | prop hc hname =>
    rw [Token.isLexable, Bool.and_eq_true, List.all_eq_true]
    refine ⟨isPropositionName_iff.mpr ⟨_, _, hc, hname.forall_mem, rfl⟩, fun x hx => ?_⟩
    obtain ⟨c, hc, rfl⟩ := List.mem_map.mp hx
    exact isVariableName_iff.mpr ⟨c, (List.mem_filter.mp hc).2, rfl⟩

namespace Cursor

/-- The tokens that are read from a place have names that the notation knows. -/
theorem isLexable_of_tokens {c : Cursor} {ls : List Located} (h : c.tokens.result = .ok ls) :
    ∀ l ∈ ls, l.token.isLexable := by
  obtain ⟨layout, -, hfaithful, rfl, -⟩ := exists_layout_of_tokens h
  intro l hl
  rcases Layout.exists_of_mem_tokens hfaithful hl with rfl | ⟨_, _, _, -, -, hspelling⟩
  · rfl
  · exact hspelling.isLexable

/-- The tokens from a place are the next one and, unless it is the end, those after it. -/
theorem result_tokens (c : Cursor) :
    c.tokens.result = c.next.result >>= fun t =>
      if c.next.isEnd then .ok [t] else c.next.cursor.tokens.result.map (t :: ·) := by
  rw [tokens]
  cases c.next.result with
  | error e => rfl
  | ok t =>
    simp only [apply_ite Journal.result]
    rfl

end Cursor

/-! ### Tokens that are written -/

/-- The tokens of the characters `cs` at any offset, the end left out. -/
def Tokenizes (cs : List Char) (ts : List Token) : Prop :=
  ∀ offset, ∃ ls, (Cursor.tokens ⟨offset, cs⟩).result = .ok ls ∧
    ls.map Located.token = ts ++ [.eof]

/-- The characters end any token before them. -/
def Ends (cs : List Char) : Prop :=
  ∀ c ∈ cs.head?, c = ' ' ∨ c = ')'

theorem Ends.not_isLower {cs : List Char} (h : Ends cs) : ∀ c ∈ cs.head?, ¬ c.isLower := by
  intro c hc
  rcases h c hc with rfl | rfl <;> decide

theorem Ends.not_isAlpha {cs : List Char} (h : Ends cs) : ∀ c ∈ cs.head?, ¬ c.isAlpha := by
  intro c hc
  rcases h c hc with rfl | rfl <;> decide

theorem ends_nil : Ends [] := nofun

theorem ends_blank (cs : List Char) : Ends (' ' :: cs) := by
  rintro c ⟨⟩
  exact .inl rfl

/-- A run of characters of one kind is read up to a character of another kind. -/
theorem span_of_forall_mem {p : Char → Bool} {run cs : List Char} (hrun : ∀ x ∈ run, p x)
    (hcs : ∀ c ∈ cs.head?, ¬ p c) :
    (run ++ cs).takeWhile p = run ∧ (run ++ cs).dropWhile p = cs := by
  rw [List.takeWhile_append_of_pos hrun, List.dropWhile_append_of_pos hrun]
  cases cs with
  | nil => exact ⟨List.append_nil run, rfl⟩
  | cons c cs =>
    have hc : ¬ p c := hcs c rfl
    rw [List.takeWhile_cons_of_neg hc, List.dropWhile_cons_of_neg hc]
    exact ⟨List.append_nil run, rfl⟩

namespace Tokenizes

theorem nil : Tokenizes [] [] := by
  intro offset
  refine ⟨[⟨.eof, offset⟩], ?_, rfl⟩
  rw [Cursor.result_tokens]
  rfl

/-- A character that starts no token is skipped. -/
theorem skip {c : Char} {cs : List Char} {ts : List Token} (hc : startsToken c = false)
    (h : Tokenizes cs ts) : Tokenizes (c :: cs) ts := by
  intro offset
  obtain ⟨ls, hls, hts⟩ := h (offset + 1)
  -- the gap has one character more, and the token after it is the same
  have hnext : (Cursor.next ⟨offset, c :: cs⟩).result = (Cursor.next ⟨offset + 1, cs⟩).result ∧
      (Cursor.next ⟨offset, c :: cs⟩).cursor = (Cursor.next ⟨offset + 1, cs⟩).cursor := by
    have hgap : offset + ((c :: cs).takeWhile fun x => !startsToken x).length =
        offset + 1 + (cs.takeWhile fun x => !startsToken x).length := by
      rw [List.takeWhile_cons_of_pos (by simp [hc]), List.length_cons]
      omega
    have hrest : ((c :: cs).dropWhile fun x => !startsToken x) =
        cs.dropWhile fun x => !startsToken x :=
      List.dropWhile_cons_of_pos (by simp [hc])
    simp only [Cursor.next, Cursor.gap, hgap, hrest]
    cases cs.dropWhile fun x => !startsToken x <;> exact ⟨rfl, rfl⟩
  have hend : (Cursor.next ⟨offset, c :: cs⟩).isEnd = (Cursor.next ⟨offset + 1, cs⟩).isEnd := by
    simp only [Cursor.Step.isEnd, hnext.1]
  refine ⟨ls, ?_, hts⟩
  rw [Cursor.result_tokens] at hls ⊢
  rwa [hnext.1, hnext.2, hend]

/-- A token is read, and then those after it. -/
theorem cons {c : Char} {cs : List Char} {t : Token} {ts : List Token} (hc : startsToken c)
    (hread : (Lexeme.read c cs).result = .ok t) (ht : t ≠ .eof)
    (h : Tokenizes (Lexeme.read c cs).rest ts) : Tokenizes (c :: cs) (t :: ts) := by
  intro offset
  -- without a gap the token stands at the offset itself
  have hgap : Cursor.gap ⟨offset, c :: cs⟩ = [] := List.takeWhile_cons_of_neg (by simp [hc])
  have hrest : ((c :: cs).dropWhile fun x => !startsToken x) = c :: cs :=
    List.dropWhile_cons_of_neg (by simp [hc])
  have hnext : (Cursor.next ⟨offset, c :: cs⟩).result = .ok ⟨t, offset⟩ := by
    simp only [Cursor.next, hgap, hrest, hread]
    rfl
  have hcursor : (Cursor.next ⟨offset, c :: cs⟩).cursor =
      ⟨offset + (Lexeme.read c cs).text.length, (Lexeme.read c cs).rest⟩ := by
    simp only [Cursor.next, hgap, hrest]
    rfl
  have hend : (Cursor.next ⟨offset, c :: cs⟩).isEnd = false := by
    simp only [Cursor.Step.isEnd, hnext]
    cases t <;> first | rfl | exact absurd rfl ht
  obtain ⟨ls, hls, hts⟩ := h (offset + (Lexeme.read c cs).text.length)
  refine ⟨⟨t, offset⟩ :: ls, ?_, congrArg (t :: ·) hts⟩
  rw [Cursor.result_tokens, hnext, hend, hcursor, hls]
  rfl

variable {cs : List Char} {ts : List Token}

theorem blank (h : Tokenizes cs ts) : Tokenizes (' ' :: cs) ts := h.skip (by decide)

theorem openParen (h : Tokenizes cs ts) : Tokenizes ('(' :: cs) (.openParen :: ts) :=
  cons (by decide) rfl nofun h

theorem closeParen (h : Tokenizes cs ts) : Tokenizes (')' :: cs) (.closeParen :: ts) :=
  cons (by decide) rfl nofun h

end Tokenizes

/-! ### Variables and commands -/

theorem Lexeme.read_of_isLower {c : Char} (hc : c.isLower) (cs : List Char) :
    Lexeme.read c cs = ⟨.ok (.var c.toString), [c], cs⟩ := by
  -- the characters that are tried first are not small letters
  have hne {d : Char} (hd : d.isLower = false) : (c == d) = false := by
    rw [beq_eq_false_iff_ne]
    rintro rfl
    rw [hc] at hd
    cases hd
  have hupper : c.isUpper = false := Bool.eq_false_iff.mpr fun hupper => by
    obtain ⟨hle, -⟩ := Bool.and_eq_true_iff.mp hc
    obtain ⟨-, hle'⟩ : 'A'.val ≤ c.val ∧ c.val ≤ 'Z'.val := of_decide_eq_true hupper
    have hlt : ¬ 'a'.val ≤ 'Z'.val := by decide
    exact hlt (UInt32.le_trans (of_decide_eq_true hle) hle')
  rw [Lexeme.read, hne rfl, hne rfl, hne rfl, hupper]
  rfl

theorem startsToken_of_isLower {c : Char} (hc : c.isLower) : startsToken c := by
  simp [startsToken, isAlpha_eq, hc]

theorem startsToken_of_isUpper {c : Char} (hc : c.isUpper) : startsToken c := by
  simp [startsToken, isAlpha_eq, hc]

/-- The canonical word of a command names it. -/
theorem Command.exists_word (c : Command) : ∃ word : String,
    c.symbol.toList = '\\' :: word.toList ∧ word.toList.all Char.isAlpha ∧
      Command.ofWord? word = some c := by
  cases c with
  | connective op =>
    cases op with
    | conj => exact ⟨"land", rfl, rfl, rfl⟩
    | disj => exact ⟨"lor", rfl, rfl, rfl⟩
    | implies => exact ⟨"implies", rfl, rfl, rfl⟩
    | iff => exact ⟨"iff", rfl, rfl, rfl⟩
  | neg => exact ⟨"neg", rfl, rfl, rfl⟩
  | quantifier q =>
    cases q with
    | universal => exact ⟨"forall", rfl, rfl, rfl⟩
    | existential => exact ⟨"exists", rfl, rfl, rfl⟩

namespace Tokenizes

variable {cs : List Char} {ts : List Token}

theorem var {x : String} (hx : isVariableName x) (h : Tokenizes cs ts) :
    Tokenizes (x.toList ++ cs) (.var x :: ts) := by
  obtain ⟨c, hc, rfl⟩ := isVariableName_iff.mp hx
  rw [String.toList_singleton, List.singleton_append]
  have hread := Lexeme.read_of_isLower hc cs
  refine cons (startsToken_of_isLower hc) (by rw [hread]; rfl) nofun ?_
  rwa [hread]

/-- A command is read up to the end of its word. -/
theorem command (c : Command) (hcs : Ends cs) (h : Tokenizes cs ts) :
    Tokenizes (c.symbol.toList ++ cs) (.command c :: ts) := by
  obtain ⟨word, hsymbol, halpha, hword⟩ := c.exists_word
  rw [List.all_eq_true] at halpha
  obtain ⟨htake, hdrop⟩ := span_of_forall_mem halpha hcs.not_isAlpha
  rw [hsymbol, List.cons_append]
  refine cons (by decide) ?_ nofun ?_
  · show (Lexeme.command _).result = _
    simp only [Lexeme.command, htake, String.ofList_toList, hword]
  · show Tokenizes (Lexeme.command _).rest ts
    simp only [Lexeme.command, hdrop]
    exact h

end Tokenizes

/-! ### Propositions -/

/-- The characters between the parentheses of a written argument list. -/
theorem intercalate_arguments {args : List String} (h : ∀ x ∈ args, isVariableName x) :
    (∀ c ∈ (", ".intercalate args).toList, isArgumentChar c) ∧
      (((", ".intercalate args).toList).filter Char.isLower).map Char.toString = args := by
  rw [String.toList_intercalate]
  -- Induction on the arguments, with a comma after all but the last.
  induction args with
  | nil => simp
  | cons x xs ih =>
    rw [List.forall_mem_cons] at h
    obtain ⟨hx, hxs⟩ := h
    obtain ⟨ihchars, ihargs⟩ := ih hxs
    obtain ⟨c, hc, rfl⟩ := isVariableName_iff.mp hx
    have hchar : isArgumentChar c := by simp [isArgumentChar, hc]
    rw [List.map_cons, String.toList_singleton]
    cases xs with
    | nil =>
      rw [List.map_nil, List.intercalate_singleton, List.filter_cons_of_pos hc]
      exact ⟨List.forall_mem_singleton.mpr hchar, rfl⟩
    | cons y ys =>
      have hcomma : (", ".toList).filter Char.isLower = [] := rfl
      have hcomma' : ∀ d ∈ ", ".toList, isArgumentChar d := List.all_eq_true.mp rfl
      rw [List.map_cons, List.intercalate_cons_cons, ← List.map_cons]
      constructor
      · rw [List.forall_mem_append, List.forall_mem_append, List.forall_mem_singleton]
        exact ⟨⟨hchar, hcomma'⟩, ihchars⟩
      · rw [List.filter_append, List.filter_append, hcomma, List.append_nil, List.map_append,
          ihargs, List.filter_cons_of_pos hc]
        rfl

theorem Lexeme.read_of_isUpper {c : Char} (hc : c.isUpper) (cs : List Char) :
    Lexeme.read c cs = Lexeme.proposition c cs := by
  have hne {d : Char} (hd : d.isUpper = false) : (c == d) = false := by
    rw [beq_eq_false_iff_ne]
    rintro rfl
    rw [hc] at hd
    cases hd
  rw [Lexeme.read, hne rfl, hne rfl, hne rfl, hc]
  rfl

/-- An argument list is read up to its closing parenthesis. -/
theorem Lexeme.argumentList_closed {inner : List Char} (h : ∀ c ∈ inner, isArgumentChar c)
    (name cs : List Char) :
    argumentList name (inner ++ ')' :: cs) =
      ⟨.ok (.prop (String.ofList name) ((inner.filter Char.isLower).map Char.toString)
          (String.ofList (name ++ '(' :: inner ++ [')']))), name ++ '(' :: inner ++ [')'], cs⟩ := by
  have hparen : ∀ c ∈ (')' :: cs).head?, ¬ isArgumentChar c := by
    rintro c ⟨⟩
    decide
  obtain ⟨htake, hdrop⟩ := span_of_forall_mem h hparen
  simp only [argumentList, htake, hdrop]

/-- A proposition without arguments is read up to the end of its name. -/
theorem Lexeme.read_name {c : Char} {name cs : List Char} (hc : c.isUpper)
    (hname : ∀ x ∈ name, x.isLower) (hcs : Ends cs) :
    read c (name ++ cs) =
      ⟨.ok (.prop (String.ofList (c :: name)) [] (String.ofList (c :: name))), c :: name, cs⟩ := by
  obtain ⟨htake, hdrop⟩ := span_of_forall_mem hname hcs.not_isLower
  simp only [read_of_isUpper hc, proposition, htake, hdrop]
  split
  · -- what ends a token opens no argument list
    exact absurd (hcs '(' rfl) (by decide)
  · rfl

/-- A proposition with arguments is read up to the end of the list. -/
theorem Lexeme.read_argumentList {c : Char} {name : List Char} (hc : c.isUpper)
    (hname : ∀ x ∈ name, x.isLower) (cs : List Char) :
    read c (name ++ '(' :: cs) = argumentList (c :: name) cs := by
  have hparen : ∀ d ∈ ('(' :: cs).head?, ¬ d.isLower := by
    rintro d ⟨⟩
    decide
  obtain ⟨htake, hdrop⟩ := span_of_forall_mem hname hparen
  simp only [read_of_isUpper hc, proposition, htake, hdrop]

theorem toList_application {p : String} {args : List String} (h : args ≠ []) :
    (Term.application p args).toList =
      p.toList ++ '(' :: (", ".intercalate args).toList ++ [')'] := by
  cases args with
  | nil => exact absurd rfl h
  | cons x xs => simp [Term.application]

/-- A proposition is read with its argument list. -/
theorem Tokenizes.prop {cs : List Char} {ts : List Token} {p : String} {args : List String}
    (hp : isPropositionName p) (hargs : ∀ x ∈ args, isVariableName x) (hcs : Ends cs)
    (h : Tokenizes cs ts) :
    Tokenizes ((Term.application p args).toList ++ cs)
      (.prop p args (Term.application p args) :: ts) := by
  obtain ⟨c, name, hc, hname, rfl⟩ := isPropositionName_iff.mp hp
  by_cases hnil : args = []
  · -- without arguments no parentheses are written
    subst hnil
    have hread := Lexeme.read_name hc hname hcs
    rw [Term.application, String.toList_ofList, List.cons_append]
    refine cons (startsToken_of_isUpper hc) (by rw [hread]) nofun ?_
    rwa [hread]
  · have htext := toList_application (p := String.ofList (c :: name)) hnil
    rw [String.toList_ofList] at htext
    obtain ⟨hchars, hnames⟩ := intercalate_arguments hargs
    have hread := Lexeme.read_argumentList hc hname ((", ".intercalate args).toList ++ ')' :: cs)
    rw [Lexeme.argumentList_closed hchars, hnames, ← htext, String.ofList_toList] at hread
    have hwritten : (Term.application (String.ofList (c :: name)) args).toList ++ cs =
        c :: (name ++ '(' :: ((", ".intercalate args).toList ++ ')' :: cs)) := by
      rw [htext]
      simp
    rw [hwritten]
    refine cons (startsToken_of_isUpper hc) (by rw [hread]) nofun ?_
    rwa [hread]

/-! ### Formulas -/

/-- Wherever the text stands before characters that end a token, its tokens are `us`. -/
def WrittenAs (text : String) (us : List Token) : Prop :=
  ∀ ⦃cs ts⦄, Ends cs → Tokenizes cs ts → Tokenizes (text.toList ++ cs) (us ++ ts)

theorem WrittenAs.parenthesize {text : String} {us : List Token} (h : WrittenAs text us)
    (wanted : Bool) :
    WrittenAs (Formula.parenthesize wanted text) (Formula.parenthesizeTokens wanted us) := by
  cases wanted with
  | false => exact h
  | true =>
    -- inside, the token at the end has the closing parenthesis after it
    intro cs ts _ hts
    have hclose : Ends (')' :: cs) := by
      rintro c ⟨⟩
      exact .inr rfl
    have hinner := (h hclose hts.closeParen).openParen
    simpa [Formula.parenthesize, Formula.parenthesizeTokens] using hinner

/-- A written formula has the tokens of the formula, before any characters that end a token. -/
theorem tokenizes_render {f : Formula} (hf : f.isLexable) : WrittenAs f.render f.tokens := by
  -- Induction on the formula. Each case goes from the last token of the text to the first, since
  -- where a token ends is up to what stands after it.
  induction f with
  | prop p args =>
    rw [Formula.isLexable, Bool.and_eq_true] at hf
    intro cs ts hcs hts
    exact hts.prop hf.1 (fun x => Formula.isVariableName_of_mem_renderAll hf.2) hcs
  | var x =>
    intro cs ts _ hts
    exact hts.var hf
  | neg f ih =>
    intro cs ts hcs hts
    have hoperand := (ih hf).parenthesize f.isBinary hcs hts
    have hneg := hoperand.blank.command .neg (ends_blank _)
    simpa [Formula.render, Formula.tokens, Command.symbol] using hneg
  | binary op l r ihl ihr =>
    rw [Formula.isLexable, Bool.and_eq_true] at hf
    intro cs ts hcs hts
    have hright := (ihr hf.2).parenthesize (r.needsParentheses op .right) hcs hts
    have hop := (hright.blank.command (.connective op) (ends_blank _)).blank
    have hleft := (ihl hf.1).parenthesize (l.needsParentheses op .left) (ends_blank _) hop
    simpa [Formula.render, Formula.tokens, Command.symbol] using hleft
  | quant q x f ih =>
    rw [Formula.isLexable, Bool.and_eq_true] at hf
    intro cs ts hcs hts
    have hbody := (ih hf.2).parenthesize f.isBinary hcs hts
    have hquant := (hbody.blank.var hf.1).blank.command (.quantifier q) (ends_blank _)
    simpa [Formula.render, Formula.tokens, Command.symbol] using hquant

/-- The tokens of a written formula. -/
theorem tokenize_render {f : Formula} (hf : f.isLexable) :
    ∃ ls, (tokenize f.render).result = .ok ls ∧ ls.map Located.token = f.tokens ++ [.eof] := by
  have htokens := tokenizes_render hf ends_nil .nil
  rw [List.append_nil, List.append_nil] at htokens
  exact htokens 0

end ClausalForm
