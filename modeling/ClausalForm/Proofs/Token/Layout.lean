import ClausalForm.Proofs.Levels
import ClausalForm.Token.Scanning
import Mathlib.Data.List.TakeWhile

/-!
# Texts and their layout

A text that has tokens is made of the characters of these tokens and of the gaps around them, and
nothing is lost or counted twice on the way: the offset of a token is the number of characters in
front of it, and the characters of the gaps that are not blank are those that are warned about, each
named with its offset.

## Main definitions

* `LongestRun`: the longest run of characters of one kind
* `Token.Spelling`: the characters that a token is written with, in front of what follows
* `Layout`: a text taken apart into gaps and the characters of tokens
* `Layout.IsFaithful`: what a layout takes for gaps and tokens is written so

## Main results

* `Lexeme.spelling_read`: a token is read from the characters that it is written with
* `exists_layout_of_tokenize`: the layout of a text that has tokens
-/

namespace ClausalForm

/-! ### The characters of a token -/

/-- The letters are the capitals and the small letters. -/
theorem isAlpha_eq (c : Char) : c.isAlpha = (c.isUpper || c.isLower) :=
  rfl

/-- A token that starts with no parenthesis, backslash or capital starts with a small letter. -/
theorem isLower_of_startsToken {c : Char} (hc : startsToken c) (hopen : ¬ (c == '(') = true)
    (hclose : ¬ (c == ')') = true) (hcommand : ¬ (c == '\\') = true) (hupper : ¬ c.isUpper = true) :
    c.isLower := by
  simpa only [startsToken, isAlpha_eq, hopen, hclose, hcommand, hupper, Bool.false_or] using hc

/-- The characters `run` are of the kind `p`, and the text goes on after them with a character of
another kind or not at all. -/
structure LongestRun (p : Char → Bool) (run rest : List Char) : Prop where
  forall_mem : ∀ c ∈ run, p c
  ends : ∀ c ∈ rest.head?, p c = false

theorem longestRun_takeWhile (p : Char → Bool) (cs : List Char) :
    LongestRun p (cs.takeWhile p) (cs.dropWhile p) where
  forall_mem _ hc := List.mem_takeWhile_imp hc
  ends c hc := by
    have hnot := List.head?_dropWhile_not p cs
    rw [Option.mem_def.mp hc] at hnot
    simpa using hnot

/-- The characters of an argument list with its parentheses, in front of `rest`. The first closing
parenthesis ends the list, or else the end of the text. There are no characters where no
parenthesis opens a list. -/
inductive IsArgumentList : (chars rest : List Char) → Prop
  | none {rest : List Char} (h : rest.head? ≠ some '(') : IsArgumentList [] rest
  | closed {inner : List Char} (h : ')' ∉ inner) (rest : List Char) :
    IsArgumentList ('(' :: (inner ++ [')'])) rest
  | unclosed {inner : List Char} (h : ')' ∉ inner) : IsArgumentList ('(' :: inner) []

/-- The token is written with the characters `chars` in front of the characters `rest`. -/
inductive Token.Spelling : Token → (chars rest : List Char) → Prop
  | openParen (rest : List Char) : Spelling .openParen ['('] rest
  | closeParen (rest : List Char) : Spelling .closeParen [')'] rest
  | var {c : Char} (hc : c.isLower) (rest : List Char) : Spelling (.var c.toString) [c] rest
  /-- A backslash and the longest run of letters, which is one of the words of the command. -/
  | command {c : Command} {word rest : List Char} (hword : LongestRun Char.isAlpha word rest)
    (hc : (String.ofList word, c) ∈ Command.words) : Spelling (.command c) ('\\' :: word) rest
  /-- A capital letter, the longest run of small letters, and an argument list if one follows
  directly. The arguments are the small letters of the list. -/
  | prop {c : Char} {name list rest : List Char} (hc : c.isUpper)
    (hname : LongestRun Char.isLower name (list ++ rest)) (hlist : IsArgumentList list rest) :
    Spelling (.prop (String.ofList (c :: name)) ((list.filter Char.isLower).map Char.toString)
      (String.ofList (c :: (name ++ list)))) (c :: (name ++ list)) rest

namespace Lexeme

theorem not_mem_takeWhile_isArgumentChar (cs : List Char) :
    ')' ∉ cs.takeWhile isArgumentChar := by
  intro h
  have hargument : isArgumentChar ')' := List.mem_takeWhile_imp h
  revert hargument
  decide

/-- The small letters of a list are those between its parentheses. -/
theorem filter_isLower_closed (inner : List Char) :
    ('(' :: (inner ++ [')'])).filter Char.isLower = inner.filter Char.isLower := by
  rw [List.filter_cons_of_neg (by decide), List.filter_append,
    List.filter_cons_of_neg (by decide), List.filter_nil, List.append_nil]

theorem spelling_argumentList {c : Char} {name cs : List Char} {t : Token} (hc : c.isUpper)
    (hname : LongestRun Char.isLower name ('(' :: cs))
    (h : (argumentList (c :: name) cs).result = .ok t) :
    t.Spelling (argumentList (c :: name) cs).text (argumentList (c :: name) cs).rest := by
  have hinner := not_mem_takeWhile_isArgumentChar cs
  rw [← List.takeWhile_append_dropWhile (p := isArgumentChar) (l := cs)] at hname
  unfold argumentList at h ⊢
  split at h <;> rename_i hdrop <;> simp only [hdrop] at hname h ⊢
  · -- the end of the text closes the list
    cases h
    have hspelling := Token.Spelling.prop hc hname (.unclosed hinner)
    rwa [List.filter_cons_of_neg (by decide)] at hspelling
  · rename_i rest
    cases h
    rw [List.append_cons, ← List.cons_append] at hname
    have hspelling := Token.Spelling.prop hc hname (.closed hinner rest)
    rw [filter_isLower_closed] at hspelling
    simpa using hspelling
  · cases h

theorem spelling_proposition {c : Char} {cs : List Char} {t : Token} (hc : c.isUpper)
    (h : (proposition c cs).result = .ok t) :
    t.Spelling (proposition c cs).text (proposition c cs).rest := by
  have hname := longestRun_takeWhile Char.isLower cs
  unfold proposition at h ⊢
  split at h <;> rename_i hdrop <;> simp only [hdrop] at hname h ⊢
  · exact spelling_argumentList hc hname h
  · -- no parenthesis opens a list
    cases h
    have hlist : IsArgumentList [] (cs.dropWhile Char.isLower) := by
      refine .none fun hhead => ?_
      obtain ⟨rest, hrest⟩ := List.head?_eq_some_iff.mp hhead
      exact hdrop rest hrest
    have hspelling := Token.Spelling.prop hc (show LongestRun _ _ ([] ++ _) from hname) hlist
    simpa using hspelling

theorem spelling_command {cs : List Char} {t : Token} (h : (command cs).result = .ok t) :
    t.Spelling (command cs).text (command cs).rest := by
  simp only [command] at h
  split at h
  · rename_i c hword
    cases h
    obtain ⟨before, after, hwords, -⟩ := List.lookup_eq_some_iff.mp hword
    refine .command (longestRun_takeWhile Char.isAlpha cs) ?_
    rw [hwords]
    exact List.mem_append_right before List.mem_cons_self
  · cases h

/-- A token is read from the characters that it is written with. -/
theorem spelling_read {c : Char} {cs : List Char} {t : Token} (hc : startsToken c)
    (h : (read c cs).result = .ok t) : t.Spelling (read c cs).text (read c cs).rest := by
  unfold read at h ⊢
  split at h
  · rename_i hopen
    cases h
    obtain rfl := beq_iff_eq.mp hopen
    exact .openParen cs
  split at h
  · rename_i hclose
    cases h
    obtain rfl := beq_iff_eq.mp hclose
    exact .closeParen cs
  split at h
  · rename_i hopen hclose hcommand
    simp only [hopen, hclose, hcommand]
    exact spelling_command h
  rename_i hopen hclose hcommand
  split at h
  · rename_i hupper
    simp only [hopen, hclose, hcommand, hupper]
    exact spelling_proposition hupper h
  · rename_i hupper
    cases h
    simp only [hopen, hclose, hcommand, hupper]
    exact .var (isLower_of_startsToken hc hopen hclose hcommand hupper) cs

end Lexeme

/-! ### The layout of a text -/

/-- The characters of a gap can start no token. -/
def IsGap (cs : List Char) : Prop :=
  ∀ c ∈ cs, c ≠ '(' ∧ c ≠ ')' ∧ c ≠ '\\' ∧ c.isAlpha = false

/-- A text taken apart into gaps and the characters of tokens. -/
inductive Layout where
  /-- A gap, after which the text ends. -/
  | ending (gap : List Char)
  /-- A gap, a token with its characters, and what comes after them. -/
  | piece (gap : List Char) (token : Token) (chars : List Char) (next : Layout)

namespace Layout

/-- All characters in order. -/
def text : Layout → List Char
  | ending gap => gap
  | piece gap _ chars next => gap ++ (chars ++ next.text)

/-- The tokens and the end, each with the number of characters in front of it, of which `offset`
stand in front of the layout. -/
def tokens : Layout → (offset : Nat) → List Located
  | ending gap, offset => [⟨.eof, offset + gap.length⟩]
  | piece gap token chars next, offset =>
    ⟨token, offset + gap.length⟩ :: next.tokens (offset + gap.length + chars.length)

/-- The characters of the gaps, each with the number of characters in front of it. -/
def gapChars : Layout → (offset : Nat) → List (Char × Nat)
  | ending gap, offset => gap.zipIdx offset
  | piece gap _ chars next, offset =>
    gap.zipIdx offset ++ next.gapChars (offset + gap.length + chars.length)

/-- The characters of the gaps that are not blank. -/
def warned (l : Layout) (offset : Nat) : List (Char × Nat) :=
  (l.gapChars offset).filter fun x => !Text.isBlank x.1

/-- The gaps are gaps, and every token is written with its characters in front of those after
them. -/
def IsFaithful : Layout → Prop
  | ending gap => IsGap gap
  | piece gap token chars next => IsGap gap ∧ token.Spelling chars next.text ∧ next.IsFaithful

/-- A token of the layout stands after as many characters as its offset says. -/
theorem exists_of_mem_tokens {l : Layout} {offset : Nat} {t : Located} (hl : l.IsFaithful)
    (ht : t ∈ l.tokens offset) :
    t = ⟨.eof, offset + l.text.length⟩ ∨ ∃ before chars after, l.text = before ++ (chars ++ after) ∧
      t.offset = offset + before.length ∧ t.token.Spelling chars after := by
  induction l generalizing offset with
  | ending gap => exact .inl (List.mem_singleton.mp ht)
  | piece gap token chars next ih =>
    obtain ⟨-, hspelling, hnext⟩ := hl
    rcases List.mem_cons.mp ht with rfl | ht
    · exact .inr ⟨gap, chars, next.text, rfl, rfl, hspelling⟩
    · rcases ih hnext ht with rfl | ⟨before, chars', after, htext, hoffset, hspelling'⟩
      · left
        simp only [text, List.length_append]
        congr 1
        omega
      · refine .inr ⟨gap ++ (chars ++ before), chars', after, ?_, ?_, hspelling'⟩
        · simp [text, htext]
        · simp only [List.length_append]
          omega

/-- A character of a gap stands after as many characters as its offset says. -/
theorem getElem?_of_mem_gapChars {l : Layout} {offset : Nat} {x : Char × Nat}
    (hx : x ∈ l.gapChars offset) : offset ≤ x.2 ∧ l.text[x.2 - offset]? = some x.1 := by
  induction l generalizing offset with
  | ending gap => exact List.mem_zipIdx_iff_le_and_getElem?_sub.mp hx
  | piece gap token chars next ih =>
    rcases List.mem_append.mp hx with hx | hx
    · obtain ⟨hle, hget⟩ := List.mem_zipIdx_iff_le_and_getElem?_sub.mp hx
      have hlt := (List.getElem?_eq_some_iff.mp hget).1
      exact ⟨hle, (List.getElem?_append_left hlt).trans hget⟩
    · -- what comes after the piece is counted from the end of the piece
      obtain ⟨hle, hget⟩ := ih hx
      have hskip : (gap ++ chars).length + (x.2 - (offset + gap.length + chars.length)) =
          x.2 - offset := by
        rw [List.length_append]
        omega
      refine ⟨by omega, ?_⟩
      rw [text, ← List.append_assoc, ← hskip, List.getElem?_append_right (Nat.le_add_right _ _),
        Nat.add_sub_cancel_left, hget]

/-- The end comes last, after all characters. -/
theorem getLast?_tokens (l : Layout) (offset : Nat) :
    (l.tokens offset).getLast? = some ⟨.eof, offset + l.text.length⟩ := by
  induction l generalizing offset with
  | ending gap => rfl
  | piece gap token chars next ih =>
    rw [tokens, List.getLast?_cons, ih, Option.getD_some, text, List.length_append,
      List.length_append, Nat.add_assoc, Nat.add_assoc]

end Layout

namespace Cursor

/-- The tokens from a place after which a token is read. -/
theorem tokens_of_next {c : Cursor} {t : Located} (h : c.next.result = .ok t) :
    c.tokens = if c.next.isEnd then ⟨c.next.events, .ok [t]⟩
      else ⟨c.next.events ++ c.next.cursor.tokens.events,
        c.next.cursor.tokens.result.map (t :: ·)⟩ := by
  rw [tokens]
  simp only [h]

theorem isGap_gap (c : Cursor) : IsGap c.gap := by
  intro x hx
  have hstart := List.mem_takeWhile_imp (p := fun y => !startsToken y) hx
  simpa [startsToken, and_assoc] using hstart

/-- The first character after a gap can start a token. -/
theorem startsToken_of_dropWhile {cs xs : List Char} {x : Char}
    (h : cs.dropWhile (fun y => !startsToken y) = x :: xs) : startsToken x := by
  have hnot := List.head?_dropWhile_not (fun y => !startsToken y) cs
  rw [h] at hnot
  simpa using hnot

/-- What one step reads: the end after a gap, or a gap and the characters of a token. -/
theorem next_of_ok {c : Cursor} {t : Located} (h : c.next.result = .ok t) :
    (t = ⟨.eof, c.offset + c.gap.length⟩ ∧ c.rest = c.gap) ∨
      ∃ token chars, t = ⟨token, c.offset + c.gap.length⟩ ∧
        token.Spelling chars c.next.cursor.rest ∧ c.rest = c.gap ++ (chars ++ c.next.cursor.rest) ∧
        c.next.cursor.offset = c.offset + c.gap.length + chars.length := by
  have hsplit : c.gap ++ c.rest.dropWhile (fun x => !startsToken x) = c.rest :=
    List.takeWhile_append_dropWhile
  unfold next at h ⊢
  split at h <;> rename_i hdrop <;> simp only [hdrop] at hsplit h ⊢
  · cases h
    exact .inl ⟨rfl, by simpa using hsplit.symm⟩
  · rename_i x xs
    have hstart := startsToken_of_dropWhile hdrop
    split at h
    · rename_i token hread
      cases h
      refine .inr ⟨token, (Lexeme.read x xs).text, rfl, Lexeme.spelling_read hstart hread, ?_, rfl⟩
      rw [Lexeme.text_append_rest, hsplit]
    · cases h

theorem events_next (c : Cursor) :
    c.next.events = (Layout.warned (.ending c.gap) c.offset).map fun x => .ignored x.1 x.2 := by
  have hignored : c.next.ignored = c.ignored := by
    unfold next
    split <;> rfl
  rw [Step.events, hignored]
  rfl

theorem isEnd_of_ok {c : Cursor} {t : Located} (h : c.next.result = .ok t) :
    c.next.isEnd = true ↔ t.token = .eof := by
  obtain ⟨token, offset⟩ := t
  rw [Step.isEnd, h]
  cases token <;> simp

/-- The tokens from a place have a layout. -/
theorem exists_layout_of_tokens {c : Cursor} {ts : List Located} (h : c.tokens.result = .ok ts) :
    ∃ l : Layout, l.text = c.rest ∧ l.IsFaithful ∧ l.tokens c.offset = ts ∧
      c.tokens.events = (l.warned c.offset).map fun x => .ignored x.1 x.2 := by
  -- Induction on the characters that are left, of which every token but the end takes some.
  induction hn : c.rest.length using Nat.strongRecOn generalizing c ts with
  | ind n ih =>
    cases hnext : c.next.result with
    | error e =>
      rw [tokens, hnext] at h
      cases h
    | ok t =>
      have hend := isEnd_of_ok hnext
      rw [tokens_of_next hnext] at h ⊢
      rcases next_of_ok hnext with ⟨rfl, hrest⟩ | ⟨token, chars, rfl, hspelling, hrest, hoffset⟩
      · rw [if_pos (hend.mpr rfl)] at h ⊢
        cases h
        exact ⟨.ending c.gap, hrest.symm, c.isGap_gap, rfl, c.events_next⟩
      · have hnot : c.next.isEnd = false := by
          rw [← Bool.not_eq_true, hend]
          cases hspelling <;> nofun
        rw [if_neg (by rw [hnot]; decide)] at h ⊢
        obtain ⟨ts', hts', rfl⟩ := exists_eq_ok_of_map h
        have hlt := length_rest_next_lt hnot
        obtain ⟨l, htext, hfaithful, htokens, hevents⟩ := ih _ (hn ▸ hlt) hts' rfl
        refine ⟨.piece c.gap token chars l, ?_, ⟨c.isGap_gap, ?_, hfaithful⟩, ?_, ?_⟩
        · rw [Layout.text, htext, hrest]
        · rwa [htext]
        · rw [Layout.tokens, ← hoffset, htokens]
        · rw [events_next, hevents, ← List.map_append, hoffset]
          simp only [Layout.warned, Layout.gapChars, List.filter_append]

end Cursor

/-- A text that has tokens is taken apart without loss: its characters are those of the tokens and
of the gaps around them, every token and every character of a gap stands where its offset says, and
the end comes after all characters. All that is reported are warnings about the characters of the
gaps that are not blank, once each and in order, and the wording of a warning names the character
and its offset. -/
theorem exists_layout_of_tokenize {text : String} {ts : List Located}
    (h : (tokenize text).result = .ok ts) :
    ∃ l : Layout, l.text = text.toList ∧ l.IsFaithful ∧ ts = l.tokens 0 ∧
      ts.getLast? = some ⟨.eof, text.length⟩ ∧
      (∀ t ∈ ts, t = ⟨.eof, text.length⟩ ∨
        ∃ before chars after, text.toList = before ++ (chars ++ after) ∧
          t.offset = before.length ∧ t.token.Spelling chars after) ∧
      (∀ x ∈ l.gapChars 0, text.toList[x.2]? = some x.1) ∧
      (tokenize text).events = ((l.warned 0).map fun x => .ignored x.1 x.2) ∧
      (tokenize text).events.map (fun e => (e.level, e.message)) = (l.warned 0).map fun x =>
        (.warn, "ignoring unexpected character '" ++ x.1.toString ++ "' at offset " ++
          toString x.2) := by
  obtain ⟨l, htext, hfaithful, rfl, hevents⟩ : ∃ l : Layout, l.text = text.toList ∧
      l.IsFaithful ∧ l.tokens 0 = ts ∧
      (tokenize text).events = (l.warned 0).map fun x => .ignored x.1 x.2 :=
    Cursor.exists_layout_of_tokens h
  have hlength : 0 + l.text.length = text.length := by
    rw [Nat.zero_add, htext]
    exact String.length_toList
  refine ⟨l, htext, hfaithful, rfl, ?_, fun t ht => ?_, fun x hx => ?_, hevents, ?_⟩
  · rw [← hlength]
    exact l.getLast?_tokens 0
  · have hplace := Layout.exists_of_mem_tokens hfaithful ht
    rw [hlength, htext] at hplace
    simpa only [Nat.zero_add] using hplace
  · have hget := (Layout.getElem?_of_mem_gapChars hx).2
    rwa [htext] at hget
  · rw [hevents, List.map_map]
    rfl

/-- A text with characters that belong to no token, a blank in an argument list, another word for a
command, and an argument list that the end of the text closes. -/
theorem exists_layout_of_tokenize_unclosed :
    let text := "¬P(x,\ty)é \\wedge Qab(z"
    let ts : List Located := [⟨.prop "P" ["x", "y"] "P(x,\ty)", 1⟩,
      ⟨.command (.connective .conj), 10⟩, ⟨.prop "Qab" ["z"] "Qab(z", 17⟩, ⟨.eof, 22⟩]
    (tokenize text).result = .ok ts ∧
      (tokenize text).events = [.ignored '¬' 0, .ignored 'é' 8] ∧
      (tokenize text).events.map (fun e => (e.level, e.message)) =
        [(.warn, "ignoring unexpected character '¬' at offset 0"),
          (.warn, "ignoring unexpected character 'é' at offset 8")] ∧
      ∃ l : Layout, l.text = text.toList ∧ l.IsFaithful ∧ ts = l.tokens 0 ∧
        ([Event.ignored '¬' 0, .ignored 'é' 8] =
          (l.warned 0).map fun x => .ignored x.1 x.2) ∧
        [(Level.warn, "ignoring unexpected character '¬' at offset 0"),
          (.warn, "ignoring unexpected character 'é' at offset 8")] =
            (l.warned 0).map fun x => (.warn, "ignoring unexpected character '" ++ x.1.toString ++
              "' at offset " ++ toString x.2) := by
  intro text ts
  have hresult : (tokenize text).result = .ok ts := by decide +kernel
  have hevents : (tokenize text).events = [.ignored '¬' 0, .ignored 'é' 8] := by decide +kernel
  have hwords : (tokenize text).events.map (fun e => (e.level, e.message)) =
      [(.warn, "ignoring unexpected character '¬' at offset 0"),
        (.warn, "ignoring unexpected character 'é' at offset 8")] := by
    rw [hevents]
    decide +kernel
  obtain ⟨l, htext, hfaithful, htokens, -, -, -, hwarned, hworded⟩ :=
    exists_layout_of_tokenize hresult
  exact ⟨hresult, hevents, hwords, l, htext, hfaithful, htokens, hevents.symm.trans hwarned,
    hwords.symm.trans hworded⟩

end ClausalForm
