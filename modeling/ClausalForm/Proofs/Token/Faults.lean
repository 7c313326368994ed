import ClausalForm.Proofs.Token.Spacing
import Mathlib.Logic.Function.Iterate

/-!
# Faults of a text, and reading on

A text without tokens is at fault at one place. What stands in front of that place has tokens, and
the fault says what is wrong there: a backslash in front of a word that names no command, or a
character that does not belong into the argument list in which it stands. Reading can go on after a
fault and comes to the end of every text, since each step but the last ones takes some characters.

## Main definitions

* `LexError.Misspelling`: what is wrong with the characters at a fault
* `FirstFault`: the first fault of a text, with what stands in front of it
* `Cursor.after`: the place after a number of steps, whatever they came to

## Main results

* `Lexeme.read_of_head?`: reading a token looks ahead by one character
* `exists_firstFault_of_tokenize`: where a text without tokens is at fault
* `Cursor.offset_lt_next`, `Cursor.exists_isEnd_after`: reading goes on, and reaches the end
* `firstFault_and_progress`: all of this for a text
-/

namespace ClausalForm

/-! ### How far reading looks ahead -/

namespace Lexeme

variable {c : Char} {name cs rest' : List Char} {t : Token}

/-- An argument list is read alike if what follows it starts alike. -/
theorem argumentList_of_head? (h : (argumentList name cs).result = .ok t)
    (hrest' : ∀ x ∈ rest'.head?, x ∈ (argumentList name cs).rest.head?) :
    ∃ list, (argumentList name cs).text = name ++ '(' :: list ∧
      argumentList name (list ++ rest') = ⟨.ok t, name ++ '(' :: list, rest'⟩ := by
  have hinner : ∀ x ∈ cs.takeWhile isArgumentChar, isArgumentChar x :=
    fun _ hx => List.mem_takeWhile_imp hx
  unfold argumentList at h hrest'
  split at h <;> rename_i hdrop <;> simp only [hdrop] at hrest'
  · -- the end of the text closes the list, and there is nothing after it
    cases h
    obtain rfl : rest' = [] := by
      cases rest' with
      | nil => rfl
      | cons x rest' => cases hrest' x rfl
    refine ⟨cs.takeWhile isArgumentChar, ?_, ?_⟩
    · simp only [argumentList, hdrop]
    · rw [List.append_nil, argumentList_unclosed hinner]
  · cases h
    refine ⟨cs.takeWhile isArgumentChar ++ [')'], ?_, ?_⟩
    · simp only [argumentList, hdrop, List.append_assoc, List.cons_append]
    · rw [List.append_assoc, List.singleton_append, argumentList_closed hinner]
      simp only [List.append_assoc, List.cons_append]
  · cases h

/-- A proposition is read alike if what follows it starts alike. -/
theorem proposition_of_head? (hc : c.isUpper) (h : (proposition c cs).result = .ok t)
    (hhead : ∀ x ∈ rest'.head?, x ∈ (proposition c cs).rest.head?) :
    ∃ list, (proposition c cs).text = c :: list ∧
      read c (list ++ rest') = ⟨.ok t, c :: list, rest'⟩ := by
  have hname := longestRun_takeWhile Char.isLower cs
  unfold proposition at h hhead
  split at h <;> rename_i hdrop <;> simp only [hdrop] at hname hhead
  · obtain ⟨list, htext, hread⟩ := argumentList_of_head? h hhead
    refine ⟨cs.takeWhile Char.isLower ++ '(' :: list, ?_, ?_⟩
    · simp only [proposition, hdrop, htext, List.cons_append]
    · rw [List.append_assoc, List.cons_append, read_argumentList hc hname.forall_mem, hread,
        List.cons_append]
  · cases h
    have hends : ∀ x ∈ rest'.head?, ¬ x.isLower := fun x hx => by simp [hname.ends x (hhead x hx)]
    obtain ⟨htake, hdrop'⟩ := span_of_forall_mem hname.forall_mem hends
    refine ⟨cs.takeWhile Char.isLower, ?_, ?_⟩
    · unfold proposition
      split
      · rename_i inner hopen
        exact absurd hopen (hdrop inner)
      · rfl
    · rw [read_of_isUpper hc]
      simp only [proposition, htake, hdrop']
      split
      · -- no parenthesis opens a list
        obtain ⟨inner, hinner⟩ := List.head?_eq_some_iff.mp (hhead '(' rfl)
        exact absurd hinner (hdrop inner)
      · rfl

/-- A command is read alike if what follows it starts alike. -/
theorem command_of_head? (h : (command cs).result = .ok t)
    (hrest' : ∀ x ∈ rest'.head?, x ∈ (command cs).rest.head?) :
    ∃ list, (command cs).text = '\\' :: list ∧
      read '\\' (list ++ rest') = ⟨.ok t, '\\' :: list, rest'⟩ := by
  have hword := longestRun_takeWhile Char.isAlpha cs
  have hends : ∀ x ∈ rest'.head?, ¬ x.isAlpha := fun x hx => by simp [hword.ends x (hrest' x hx)]
  obtain ⟨htake, hdrop⟩ := span_of_forall_mem hword.forall_mem hends
  refine ⟨cs.takeWhile Char.isAlpha, rfl, ?_⟩
  show command _ = _
  simp only [command] at h
  simp only [command, htake, hdrop, h]

/-- A token is read alike if what follows it starts alike: reading looks ahead by one character. -/
theorem read_of_head? (hc : startsToken c) (h : (read c cs).result = .ok t)
    (hrest' : ∀ x ∈ rest'.head?, x ∈ (read c cs).rest.head?) :
    ∃ list, (read c cs).text = c :: list ∧
      read c (list ++ rest') = ⟨.ok t, c :: list, rest'⟩ := by
  by_cases hopen : c = '('
  · subst hopen
    cases h
    exact ⟨[], rfl, rfl⟩
  by_cases hclose : c = ')'
  · subst hclose
    cases h
    exact ⟨[], rfl, rfl⟩
  by_cases hcommand : c = '\\'
  · subst hcommand
    exact command_of_head? h hrest'
  by_cases hupper : c.isUpper
  · rw [read_of_isUpper hupper] at h hrest' ⊢
    exact proposition_of_head? hupper h hrest'
  · have hlower := isLower_of_startsToken hc (by simpa) (by simpa) (by simpa) hupper
    rw [read_of_isLower hlower] at h ⊢
    cases h
    exact ⟨[], rfl, read_of_isLower hlower rest'⟩

end Lexeme

theorem isGap_iff {cs : List Char} : IsGap cs ↔ ∀ c ∈ cs, !startsToken c := by
  simp [IsGap, startsToken, and_assoc]

namespace Cursor

/-- A step from a gap in front of a character that starts a token reads from that character. -/
theorem next_of_isGap {gap : List Char} {x : Char} (hgap : IsGap gap) (hx : startsToken x)
    (offset : Nat) (xs : List Char) :
    (next ⟨offset, gap ++ x :: xs⟩).result =
        (match (Lexeme.read x xs).result with
        | .ok t => .ok ⟨t, offset + gap.length⟩
        | .error e =>
          .error ⟨e, faultOffset (offset + gap.length) (Lexeme.read x xs).text.length e⟩) ∧
      (next ⟨offset, gap ++ x :: xs⟩).cursor =
        ⟨offset + gap.length + (Lexeme.read x xs).text.length, (Lexeme.read x xs).rest⟩ := by
  have hskip : ∀ y ∈ gap, !startsToken y := isGap_iff.mp hgap
  have hstop : ∀ y ∈ (x :: xs).head?, ¬ (!startsToken y) = true := by
    rintro y ⟨⟩
    simp [hx]
  obtain ⟨htake, hdrop⟩ := span_of_forall_mem hskip hstop
  rw [next, Cursor.gap, htake, hdrop]
  exact ⟨rfl, rfl⟩

/-- A step from a gap at the end of the text finds the end. -/
theorem next_gap {gap : List Char} (hgap : IsGap gap) (offset : Nat) :
    next ⟨offset, gap⟩ = ⟨(Cursor.mk offset gap).ignored, .ok ⟨.eof, offset + gap.length⟩,
      ⟨offset + gap.length, []⟩⟩ := by
  have hskip : ∀ y ∈ gap, !startsToken y := isGap_iff.mp hgap
  simp only [next, Cursor.gap, List.takeWhile_eq_self_iff.mpr hskip,
    List.dropWhile_eq_nil_iff.mpr hskip]

/-- What is left to read after a gap, if a step does not find the end there. -/
theorem exists_rest_eq {c : Cursor} (hend : c.next.isEnd = false) :
    ∃ x xs, startsToken x ∧ c.rest = c.gap ++ x :: xs := by
  have hsplit : c.gap ++ c.rest.dropWhile (fun y => !startsToken y) = c.rest :=
    List.takeWhile_append_dropWhile
  cases hdrop : c.rest.dropWhile (fun y => !startsToken y) with
  | nil =>
    unfold next at hend
    rw [hdrop] at hend
    cases hend
  | cons x xs =>
    rw [hdrop] at hsplit
    exact ⟨x, xs, startsToken_of_dropWhile hdrop, hsplit.symm⟩

/-- Where a step reads a token, the tokens after it follow. -/
theorem result_tokens_of_next {c : Cursor} {t : Located} (h : c.next.result = .ok t)
    (ht : t.token ≠ .eof) : c.tokens.result = c.next.cursor.tokens.result.map (t :: ·) := by
  have hend : c.next.isEnd = false := by rwa [← Bool.not_eq_true, isEnd_of_ok h]
  rw [result_tokens, h, hend]
  rfl

/-- The token that is read in a step is read alike, and the tokens after it follow, if what comes
after the token starts alike. -/
theorem exists_tokens_eq_map {c : Cursor} {t : Located} (h : c.next.result = .ok t)
    (hend : c.next.isEnd = false) :
    ∃ chars, c.rest = chars ++ c.next.cursor.rest ∧
      c.next.cursor.offset = c.offset + chars.length ∧
      ∀ rest', (∀ x ∈ rest'.head?, x ∈ c.next.cursor.rest.head?) →
        (tokens ⟨c.offset, chars ++ rest'⟩).result =
          (tokens ⟨c.next.cursor.offset, rest'⟩).result.map (t :: ·) := by
  obtain ⟨x, xs, hx, hrest⟩ := exists_rest_eq hend
  have hnext : c.next = next ⟨c.offset, c.gap ++ x :: xs⟩ := by rw [← hrest]
  obtain ⟨hresult, hcursor⟩ := next_of_isGap c.isGap_gap hx c.offset xs
  rw [← hnext] at hresult hcursor
  rw [h] at hresult
  split at hresult
  · rename_i token hread
    cases hresult
    refine ⟨c.gap ++ (Lexeme.read x xs).text, ?_, ?_, fun rest' hrest' => ?_⟩
    · rw [hcursor, List.append_assoc, Lexeme.text_append_rest, ← hrest]
    · rw [hcursor, List.length_append, Nat.add_assoc]
    · rw [hcursor] at hrest' ⊢
      obtain ⟨list, htext, hread'⟩ := Lexeme.read_of_head? hx hread hrest'
      -- the step in front of the other rest
      obtain ⟨hresult', hcursor'⟩ := next_of_isGap c.isGap_gap hx c.offset (list ++ rest')
      rw [hread'] at hresult' hcursor'
      have htoken : token ≠ .eof := by
        rw [← Bool.not_eq_true, isEnd_of_ok h] at hend
        exact hend
      rw [htext, List.append_assoc, List.cons_append, result_tokens_of_next hresult' htoken,
        hcursor']
  · cases hresult

end Cursor

/-! ### Misspelled tokens -/

/-- A word that names no command is not among the words of the commands. -/
theorem Command.not_mem_words_of_ofWord? {word : String} (h : ofWord? word = none) (c : Command) :
    (word, c) ∉ words := by
  have hall : ∀ p ∈ words, ofWord? p.1 = some p.2 := by decide
  intro hc
  rw [hall _ hc] at h
  cases h

/-- What is wrong in front of `rest`, where the characters `chars` have been read of what would be
a token. -/
inductive LexError.Misspelling : LexError → (chars rest : List Char) → Prop
  /-- The longest run of letters after a backslash is no word of a command. -/
  | unknownCommand {word rest : List Char} (hword : LongestRun Char.isAlpha word rest)
    (hunknown : ∀ c, (String.ofList word, c) ∉ Command.words) :
    Misspelling (.unknownCommand (String.ofList word)) [] ('\\' :: (word ++ rest))
  /-- A character other than small letters, commas, blanks and the closing parenthesis stands in an
  argument list, which is open directly after a capital and small letters. -/
  | malformedArguments {capital c : Char} {name inner : List Char} (hcapital : capital.isUpper)
    (hname : ∀ x ∈ name, x.isLower) (hinner : ∀ x ∈ inner, isArgumentChar x)
    (hc : isArgumentChar c = false) (hclose : c ≠ ')') (rest : List Char) :
    Misspelling (.malformedArguments c) (capital :: (name ++ '(' :: inner)) (c :: rest)

namespace Lexeme

variable {x capital c : Char} {xs name inner : List Char} {e : LexError}

/-- Up to a character that does not belong into it, an argument list is read as if the text ended
there, and then given up. -/
theorem read_malformed (hcapital : capital.isUpper) (hname : ∀ x ∈ name, x.isLower)
    (hinner : ∀ x ∈ inner, isArgumentChar x) (hc : isArgumentChar c = false) (hclose : c ≠ ')')
    (rest : List Char) :
    read capital (name ++ '(' :: (inner ++ c :: rest)) =
      ⟨.error (.malformedArguments c), capital :: (name ++ '(' :: inner), c :: rest⟩ := by
  have hstop : ∀ y ∈ (c :: rest).head?, ¬ isArgumentChar y := by
    rintro y ⟨⟩
    simp [hc]
  obtain ⟨htake, hdrop⟩ := span_of_forall_mem hinner hstop
  rw [read_argumentList hcapital hname]
  simp only [argumentList, htake, hdrop, List.cons_append]

theorem misspelling_argumentList (hcapital : capital.isUpper) (hname : ∀ x ∈ name, x.isLower)
    (h : (argumentList (capital :: name) xs).result = .error e) :
    ∃ chars rest, capital :: (name ++ '(' :: xs) = chars ++ rest ∧ e.Misspelling chars rest ∧
      ∀ start, Cursor.faultOffset start (argumentList (capital :: name) xs).text.length e =
        start + chars.length := by
  have hsplit : xs.takeWhile isArgumentChar ++ xs.dropWhile isArgumentChar = xs :=
    List.takeWhile_append_dropWhile
  have hinner := longestRun_takeWhile isArgumentChar xs
  unfold argumentList at h ⊢
  split at h <;> rename_i hdrop <;> simp only [hdrop] at hsplit hinner ⊢
  · cases h
  · cases h
  · rename_i c rest hclose
    cases h
    refine ⟨_, _, ?_, .malformedArguments hcapital hname hinner.forall_mem (hinner.ends c rfl)
      hclose rest, fun _ => rfl⟩
    rw [List.cons_append, List.append_assoc, List.cons_append, hsplit]

theorem misspelling_proposition (hcapital : capital.isUpper)
    (h : (proposition capital xs).result = .error e) :
    ∃ chars rest, capital :: xs = chars ++ rest ∧ e.Misspelling chars rest ∧
      ∀ start, Cursor.faultOffset start (proposition capital xs).text.length e =
        start + chars.length := by
  have hsplit : xs.takeWhile Char.isLower ++ xs.dropWhile Char.isLower = xs :=
    List.takeWhile_append_dropWhile
  have hname := (longestRun_takeWhile Char.isLower xs).forall_mem
  unfold proposition at h ⊢
  split at h <;> rename_i hdrop <;> simp only [hdrop] at hsplit ⊢
  · obtain ⟨chars, rest, htext, hmisspelling⟩ := misspelling_argumentList hcapital hname h
    exact ⟨chars, rest, by rw [← htext, hsplit], hmisspelling⟩
  · cases h

/-- What is not read as a token is misspelled, and the fault stands where it goes wrong. -/
theorem misspelling_read (h : (read x xs).result = .error e) :
    ∃ chars rest, x :: xs = chars ++ rest ∧ e.Misspelling chars rest ∧
      ∀ start, Cursor.faultOffset start (read x xs).text.length e = start + chars.length := by
  unfold read at h ⊢
  split at h
  · cases h
  split at h
  · cases h
  split at h
  · rename_i hopen hclose hcommand
    simp only [hopen, hclose, hcommand]
    obtain rfl := beq_iff_eq.mp hcommand
    simp only [command] at h
    split at h
    · cases h
    · rename_i hunknown
      cases h
      refine ⟨[], _, ?_, .unknownCommand (longestRun_takeWhile Char.isAlpha xs) ?_, fun _ => rfl⟩
      · rw [List.nil_append, List.takeWhile_append_dropWhile]
      · exact Command.not_mem_words_of_ofWord? hunknown
  split at h
  · rename_i hopen hclose hcommand hupper
    simp only [hopen, hclose, hcommand, hupper]
    exact misspelling_proposition hupper h
  · cases h

end Lexeme

/-! ### The first fault of a text -/

/-- The fault is the first one of the characters `before ++ chars ++ rest`, which start at the
offset `start`. The characters `chars` in front of it belong to a token that goes wrong there. -/
structure FirstFault (start : Nat) (before chars rest : List Char) (fault : LexFault) : Prop where
  misspelling : fault.error.Misspelling chars rest
  offset_eq : fault.offset = start + (before ++ chars).length
  /-- The characters in front of the fault have tokens. If some of them belong to what goes wrong,
  they are the last token. -/
  exists_tokens : ∃ ts, (Cursor.tokens ⟨start, before ++ chars⟩).result = .ok ts ∧
    (chars ≠ [] → ∃ ts' p args, ts = ts' ++ [⟨.prop p args (String.ofList chars),
      start + before.length⟩, ⟨.eof, start + (before ++ chars).length⟩])
  /-- An argument list goes wrong whatever comes after the character that it goes wrong at. -/
  malformed : ∀ c, fault.error = .malformedArguments c → ∀ others,
    (Cursor.tokens ⟨start, before ++ (chars ++ c :: others)⟩).result = .error fault

namespace Cursor

theorem tokens_of_isGap {gap : List Char} (hgap : IsGap gap) (start : Nat) :
    (tokens ⟨start, gap⟩).result = .ok [⟨.eof, start + gap.length⟩] := by
  rw [result_tokens, next_gap hgap]
  rfl

/-- An argument list that is open at the end of the text belongs to the last token. -/
theorem tokens_of_openList {gap name inner : List Char} {capital : Char} (hgap : IsGap gap)
    (hcapital : capital.isUpper) (hname : ∀ x ∈ name, x.isLower)
    (hinner : ∀ x ∈ inner, isArgumentChar x) (start : Nat) :
    let chars := capital :: (name ++ '(' :: inner)
    (tokens ⟨start, gap ++ chars⟩).result =
      .ok [⟨.prop (String.ofList (capital :: name)) ((inner.filter Char.isLower).map Char.toString)
          (String.ofList chars), start + gap.length⟩,
        ⟨.eof, start + (gap ++ chars).length⟩] := by
  intro chars
  obtain ⟨hresult, hcursor⟩ := next_of_isGap hgap (startsToken_of_isUpper hcapital) start
    (name ++ '(' :: inner)
  rw [Lexeme.read_argumentList hcapital hname, Lexeme.argumentList_unclosed hinner]
    at hresult hcursor
  rw [result_tokens_of_next hresult nofun, hcursor, tokens_of_rest_eq_nil rfl]
  simp [Except.map, chars, Nat.add_assoc]

theorem tokens_of_error {c : Cursor} {fault : LexFault} (h : c.next.result = .error fault) :
    c.tokens.result = .error fault := by
  rw [result_tokens, h]
  rfl

/-- A step that does not succeed finds the first fault. -/
theorem exists_firstFault_of_next {c : Cursor} {fault : LexFault}
    (h : c.next.result = .error fault) :
    ∃ chars rest, c.rest = c.gap ++ (chars ++ rest) ∧
      FirstFault c.offset c.gap chars rest fault := by
  have hend : c.next.isEnd = false := by simp only [Step.isEnd, h]
  obtain ⟨x, xs, hx, hrest⟩ := exists_rest_eq hend
  have hnext : c.next = next ⟨c.offset, c.gap ++ x :: xs⟩ := by rw [← hrest]
  obtain ⟨hresult, -⟩ := next_of_isGap c.isGap_gap hx c.offset xs
  rw [← hnext, h] at hresult
  split at hresult
  · cases hresult
  · rename_i e hread
    cases hresult
    obtain ⟨chars, rest, htext, hmisspelling, hoffset⟩ := Lexeme.misspelling_read hread
    refine ⟨chars, rest, by rw [← htext, hrest], hmisspelling, ?_, ?_, ?_⟩
    · rw [hoffset, List.length_append, Nat.add_assoc]
    · cases hmisspelling with
      | unknownCommand =>
        have htokens := tokens_of_isGap c.isGap_gap c.offset
        rw [← List.append_nil c.gap] at htokens
        exact ⟨_, htokens, fun hnil => absurd rfl hnil⟩
      | malformedArguments hcapital hname hinner =>
        exact ⟨_, tokens_of_openList c.isGap_gap hcapital hname hinner c.offset,
          fun _ => ⟨[], _, _, rfl⟩⟩
    · rintro bad rfl others
      cases hmisspelling with
      | malformedArguments hcapital hname hinner hbad hclose =>
        have hmalformed := Lexeme.read_malformed hcapital hname hinner hbad hclose others
        obtain ⟨hresult, -⟩ :=
          next_of_isGap c.isGap_gap (startsToken_of_isUpper hcapital) c.offset _
        rw [hmalformed] at hresult
        rw [hoffset, List.cons_append, List.append_assoc, List.cons_append]
        exact tokens_of_error hresult

/-- The first fault behind a token is the first fault from the token on. -/
theorem exists_firstFault_of_firstFault_next {c : Cursor} {t : Located} {fault : LexFault}
    {before chars rest : List Char} (hnext : c.next.result = .ok t) (hend : c.next.isEnd = false)
    (hrest : c.next.cursor.rest = before ++ (chars ++ rest))
    (hfault : FirstFault c.next.cursor.offset before chars rest fault) :
    ∃ token, c.rest = (token ++ before) ++ (chars ++ rest) ∧
      FirstFault c.offset (token ++ before) chars rest fault := by
  obtain ⟨token, hsplit, hoffset, htokens⟩ := exists_tokens_eq_map hnext hend
  refine ⟨token, ?_, hfault.misspelling, ?_, ?_, ?_⟩
  · rw [hsplit, hrest, List.append_assoc]
  · rw [hfault.offset_eq, hoffset]
    simp only [List.length_append]
    omega
  · obtain ⟨ts, hts, hopen⟩ := hfault.exists_tokens
    have hahead : ∀ x ∈ (before ++ chars).head?, x ∈ c.next.cursor.rest.head? := by
      intro x hx
      rw [hrest, ← List.append_assoc, List.head?_append, Option.mem_def.mp hx]
      rfl
    rw [List.append_assoc, htokens _ hahead, hts]
    refine ⟨_, rfl, fun hne => ?_⟩
    obtain ⟨ts', p, args, rfl⟩ := hopen hne
    refine ⟨t :: ts', p, args, ?_⟩
    simp [hoffset, Nat.add_assoc]
  · intro bad hbad others
    have htail := hfault.malformed bad hbad others
    -- the token before it does not see beyond the character at fault
    have hahead : ∀ x ∈ (before ++ (chars ++ bad :: others)).head?,
        x ∈ c.next.cursor.rest.head? := by
      have hmisspelling := hfault.misspelling
      rw [hbad] at hmisspelling
      cases hmisspelling
      simp [hrest, List.head?_append]
    rw [List.append_assoc, htokens _ hahead, htail]
    rfl

/-- A text without tokens has a first fault. -/
theorem exists_firstFault_of_tokens {c : Cursor} {fault : LexFault}
    (h : c.tokens.result = .error fault) :
    ∃ before chars rest, c.rest = before ++ (chars ++ rest) ∧
      FirstFault c.offset before chars rest fault := by
  -- Induction on the characters that are left, of which every token takes some.
  induction hn : c.rest.length using Nat.strongRecOn generalizing c with
  | ind n ih =>
    cases hnext : c.next.result with
    | error e =>
      rw [tokens_of_error hnext] at h
      cases h
      exact ⟨c.gap, exists_firstFault_of_next hnext⟩
    | ok t =>
      cases hend : c.next.isEnd with
      | true =>
        rw [result_tokens, hnext, hend] at h
        cases h
      | false =>
        rw [result_tokens, hnext, hend] at h
        replace h := eq_error_of_map (x := c.next.cursor.tokens.result) h
        obtain ⟨before, chars, rest, hrest, hfault⟩ := ih _ (hn ▸ length_rest_next_lt hend) h rfl
        obtain ⟨token, hfault⟩ := exists_firstFault_of_firstFault_next hnext hend hrest hfault
        exact ⟨token ++ before, chars, rest, hfault⟩

/-! ### Reading on -/

/-- The place after a number of steps, whatever these came to. -/
def after (c : Cursor) (n : Nat) : Cursor := (fun c => c.next.cursor)^[n] c

@[simp] theorem after_zero (c : Cursor) : c.after 0 = c := rfl

theorem after_succ (c : Cursor) (n : Nat) : c.after (n + 1) = (c.after n).next.cursor :=
  Function.iterate_succ_apply' ..

theorem after_after (c : Cursor) (m n : Nat) : (c.after m).after n = c.after (n + m) :=
  (Function.iterate_add_apply _ n m c).symm

/-- Where a step finds the end, it has read everything. -/
theorem next_of_isEnd {c : Cursor} (h : c.next.isEnd) :
    c.next.result = .ok ⟨.eof, c.offset + c.rest.length⟩ ∧
      c.next.cursor = ⟨c.offset + c.rest.length, []⟩ := by
  cases hnext : c.next.result with
  | error e =>
    rw [Step.isEnd, hnext] at h
    cases h
  | ok t =>
    rcases next_of_ok hnext with ⟨rfl, hrest⟩ | ⟨token, chars, rfl, hspelling, -⟩
    · have hgap := next_gap c.isGap_gap c.offset
      rw [← hrest] at hgap
      exact ⟨hrest ▸ rfl, congrArg Step.cursor hgap⟩
    · -- the end is no token that is written
      obtain rfl : token = .eof := (isEnd_of_ok hnext).mp h
      cases hspelling

/-- What a step reads it takes from what is left. -/
theorem offset_add_length_next (c : Cursor) :
    c.next.cursor.offset + c.next.cursor.rest.length = c.offset + c.rest.length := by
  cases hend : c.next.isEnd with
  | true => rw [(next_of_isEnd hend).2, List.length_nil, Nat.add_zero]
  | false =>
    obtain ⟨x, xs, hx, hrest⟩ := exists_rest_eq hend
    have hnext : c.next = next ⟨c.offset, c.gap ++ x :: xs⟩ := by rw [← hrest]
    have hcursor := (next_of_isGap c.isGap_gap hx c.offset xs).2
    have hlength := congrArg List.length (Lexeme.text_append_rest x xs)
    rw [hnext, hcursor, hrest]
    simp only [List.length_append] at hlength ⊢
    omega

theorem offset_add_length_after (c : Cursor) (n : Nat) :
    (c.after n).offset + (c.after n).rest.length = c.offset + c.rest.length := by
  induction n with
  | zero => rfl
  | succ n ih => rw [after_succ, offset_add_length_next, ih]

/-- Every step that does not find the end goes on. -/
theorem offset_lt_next {c : Cursor} (h : c.next.isEnd = false) :
    c.offset < c.next.cursor.offset := by
  have hsum := c.offset_add_length_next
  have hlt := length_rest_next_lt h
  omega

/-- There are no more steps in front of the end than characters. -/
theorem exists_isEnd_after (c : Cursor) : ∃ n ≤ c.rest.length, (c.after n).next.isEnd := by
  -- Induction on the characters that are left, of which every step but the last one takes some.
  induction hn : c.rest.length using Nat.strongRecOn generalizing c with
  | ind n ih =>
    cases hend : c.next.isEnd with
    | true => exact ⟨0, Nat.zero_le n, hend⟩
    | false =>
      have hlt := length_rest_next_lt hend
      obtain ⟨m, hm, hend'⟩ := ih _ (hn ▸ hlt) c.next.cursor rfl
      refine ⟨m + 1, by omega, ?_⟩
      rwa [← after_after]

/-- Once a step has found the end, every further step finds it again. -/
theorem next_after_of_isEnd {c : Cursor} {n m : Nat} (h : (c.after n).next.isEnd) (hm : n ≤ m) :
    (c.after m).next.result = .ok ⟨.eof, c.offset + c.rest.length⟩ := by
  have hend : (c.after m).next.isEnd := by
    induction m, hm using Nat.le_induction with
    | base => exact h
    | succ m hm ih =>
      rw [after_succ, (next_of_isEnd ih).2]
      rfl
  rw [(next_of_isEnd hend).1, offset_add_length_after]

end Cursor

/-- A text without tokens has a first fault. -/
theorem exists_firstFault_of_tokenize {text : String} {fault : LexFault}
    (h : (tokenize text).result = .error fault) :
    ∃ before chars rest, text.toList = before ++ (chars ++ rest) ∧
      FirstFault 0 before chars rest fault :=
  Cursor.exists_firstFault_of_tokens h

theorem tokenize_ofList (cs : List Char) : tokenize (String.ofList cs) = Cursor.tokens ⟨0, cs⟩ := by
  rw [tokenize, Cursor.start, String.toList_ofList]

/-- Two texts that are alike up to a character that does not belong into an argument list have the
same fault. -/
theorem FirstFault.tokenize_eq_error {before chars rest : List Char} {fault : LexFault} {c : Char}
    (h : FirstFault 0 before chars rest fault) (hc : fault.error = .malformedArguments c)
    {other : String} (hother : other.toList.take (fault.offset + 1) =
      (before ++ (chars ++ rest)).take (fault.offset + 1)) :
    (tokenize other).result = .error fault := by
  have hmisspelling := h.misspelling
  rw [hc] at hmisspelling
  obtain ⟨rest, rfl⟩ : ∃ others, rest = c :: others := by
    cases hmisspelling
    exact ⟨_, rfl⟩
  have hlength : fault.offset + 1 = (before ++ (chars ++ [c])).length := by
    rw [h.offset_eq]
    simp only [List.length_append, List.length_singleton]
    omega
  have hsplit : before ++ (chars ++ c :: rest) = (before ++ (chars ++ [c])) ++ rest := by simp
  rw [hsplit, hlength, List.take_left] at hother
  have htext : other.toList =
      before ++ (chars ++ c :: other.toList.drop (before ++ (chars ++ [c])).length) := by
    have htake := List.take_append_drop (before ++ (chars ++ [c])).length other.toList
    rw [hother] at htake
    rw [← htake]
    simp
  rw [← String.ofList_toList (s := other), tokenize_ofList, htext]
  exact h.malformed c hc _

/-- Where a text without tokens is at fault, and how reading goes on. The characters in front of the
fault have tokens. An unknown command is blamed on its backslash, behind which the longest run of
letters is no word of a command. A malformed argument list is blamed on the first character that
does not belong into it; the list is open directly after the name of a proposition, which with the
list is the last token in front of the fault, and nothing that comes after the character makes a
difference. When reading goes on step after step, also after faults, every step that does not find
the end takes some characters, so that the end is found after no more steps than there are
characters, and by all steps from then on. -/
theorem firstFault_and_progress (text : String) :
    (∀ fault, (tokenize text).result = .error fault →
      (∃ ts, (tokenize (String.ofList (text.toList.take fault.offset))).result = .ok ts) ∧
      (∃ before chars rest, text.toList = before ++ (chars ++ rest) ∧
        fault.offset = (before ++ chars).length ∧ fault.error.Misspelling chars rest ∧
        (chars ≠ [] → ∃ ts p args,
          (tokenize (String.ofList (before ++ chars))).result =
            .ok (ts ++ [⟨.prop p args (String.ofList chars), before.length⟩,
              ⟨.eof, fault.offset⟩]))) ∧
      (∀ c, fault.error = .malformedArguments c → ∀ other : String,
        other.toList.take (fault.offset + 1) = text.toList.take (fault.offset + 1) →
          (tokenize other).result = .error fault)) ∧
    (∀ n, ((Cursor.start text).after n).offset ≤ text.length) ∧
    (∀ n, ((Cursor.start text).after n).next.isEnd = false →
      ((Cursor.start text).after n).offset < ((Cursor.start text).after (n + 1)).offset) ∧
    (∃ n ≤ text.length, ((Cursor.start text).after n).next.isEnd) ∧
    (∀ n, ((Cursor.start text).after n).next.isEnd → ∀ m, n ≤ m →
      ((Cursor.start text).after m).next.result = .ok ⟨.eof, text.length⟩) := by
  have hlength : (Cursor.start text).offset + (Cursor.start text).rest.length = text.length := by
    rw [← String.length_toList]
    exact Nat.zero_add _
  refine ⟨fun fault h => ?_, fun n => ?_, fun n hend => ?_, ?_, fun n hend m hm => ?_⟩
  · obtain ⟨before, chars, rest, htext, hfault⟩ := exists_firstFault_of_tokenize h
    have hoffset : fault.offset = (before ++ chars).length := by
      rw [hfault.offset_eq, Nat.zero_add]
    obtain ⟨ts, hts, hopen⟩ := hfault.exists_tokens
    rw [← tokenize_ofList] at hts
    refine ⟨⟨ts, ?_⟩, ⟨before, chars, rest, htext, hoffset, hfault.misspelling, fun hne => ?_⟩, ?_⟩
    · rwa [htext, ← List.append_assoc, hoffset, List.take_left]
    · obtain ⟨ts', p, args, rfl⟩ := hopen hne
      refine ⟨ts', p, args, ?_⟩
      rw [hts, hoffset, Nat.zero_add, Nat.zero_add]
    · intro c hc other hother
      rw [htext] at hother
      exact hfault.tokenize_eq_error hc hother
  · rw [← hlength, ← Cursor.offset_add_length_after _ n]
    exact Nat.le_add_right ..
  · rw [Cursor.after_succ]
    exact Cursor.offset_lt_next hend
  · rw [← String.length_toList]
    exact (Cursor.start text).exists_isEnd_after
  · rw [Cursor.next_after_of_isEnd hend hm, hlength]

/-- A character that does not belong into an argument list, and a second fault later in the text. -/
theorem firstFault_and_progress_malformed :
    let text := "é Ab(x,\ty#z) \\lan P"
    let fault : LexFault := ⟨.malformedArguments '#', 9⟩
    (tokenize text).result = .error fault ∧
      (∃ ts, (tokenize "é Ab(x,\ty").result = .ok ts) ∧
      (tokenize "é Ab(x,\ty#").result = .error fault ∧
      ((Cursor.start text).after 3).next.result = .error ⟨.unknownCommand "lan", 13⟩ ∧
      ((Cursor.start text).after 3).offset < ((Cursor.start text).after 4).offset ∧
      ((Cursor.start text).after 9).next.result = .ok ⟨.eof, 19⟩ := by
  intro text fault
  have hresult : (tokenize text).result = .error fault := by decide +kernel
  have hlength : text.length = 19 := by decide +kernel
  have htake : String.ofList (text.toList.take fault.offset) = "é Ab(x,\ty" := by decide +kernel
  have htake' : "é Ab(x,\ty#".toList.take (fault.offset + 1) =
      text.toList.take (fault.offset + 1) := by
    decide +kernel
  have hnext : ((Cursor.start text).after 3).next.result = .error ⟨.unknownCommand "lan", 13⟩ := by
    decide +kernel
  have hmore : ((Cursor.start text).after 3).next.isEnd = false := by decide +kernel
  have hlast : ((Cursor.start text).after 5).next.isEnd := by decide +kernel
  obtain ⟨hfault, -, hprogress, -, hend⟩ := firstFault_and_progress text
  obtain ⟨hfront, -, hsame⟩ := hfault fault hresult
  rw [htake] at hfront
  rw [hlength] at hend
  exact ⟨hresult, hfront, hsame '#' rfl _ htake', hnext, hprogress 3 hmore,
    hend 5 hlast 9 (by decide)⟩

end ClausalForm
