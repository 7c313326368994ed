import ClausalForm.Journal
import ClausalForm.Text.Blank

/-!
# Reading tokens

A text is read from left to right. Between tokens stands a gap, a run of characters that can start
no token: its blanks are skipped in silence, its other characters with a warning. After the gap the
longest token is read. Reading can go on after a fault, since a fault says how far it has read.

## Main definitions

* `Lexeme`, `Lexeme.read`: one token or fault, the characters it took, and the rest
* `Cursor`, `Cursor.next`: a place in a text, and one step of reading from there
* `tokenize`: the tokens of a text, up to its end or its first fault
* `Cursor.steps`: all steps to the end of a text, also past faults

## Main results

* `Lexeme.text_append_rest`: a lexeme's characters and its rest are what it was read from
* `Cursor.length_rest_next_lt`: every step that does not find the end makes progress
-/

namespace ClausalForm

/-- The characters that a token can start with: a parenthesis, a backslash, or a letter from
`a` to `z` in either case. -/
def startsToken (c : Char) : Bool :=
  c == '(' || c == ')' || c == '\\' || c.isAlpha

/-- The characters between the parentheses of an argument list: small letters, commas and
blanks. -/
def isArgumentChar (c : Char) : Bool :=
  c.isLower || c == ',' || Text.isBlank c

/-- What one attempt to read a token comes to. -/
structure Lexeme where
  /-- The token, or what is wrong. -/
  result : Except LexError Token
  /-- The characters taken. -/
  text : List Char
  /-- The characters left. -/
  rest : List Char

namespace Lexeme

/-- The command after a backslash: the longest run of letters must name it. -/
def command (cs : List Char) : Lexeme where
  result :=
    let word := String.ofList (cs.takeWhile Char.isAlpha)
    match Command.ofWord? word with
    | some c => .ok (.command c)
    | none => .error (.unknownCommand word)
  text := '\\' :: cs.takeWhile Char.isAlpha
  rest := cs.dropWhile Char.isAlpha

/-- The argument list after the opening parenthesis that follows the name `name`. The end of the
text closes the list as a parenthesis does. A character that does not belong there is left
unread. -/
def argumentList (name cs : List Char) : Lexeme :=
  let inner := cs.takeWhile isArgumentChar
  let args := (inner.filter Char.isLower).map Char.toString
  let text := name ++ '(' :: inner
  match cs.dropWhile isArgumentChar with
  | [] => ⟨.ok (.prop (String.ofList name) args (String.ofList text)), text, []⟩
  | ')' :: rest =>
    let text := text ++ [')']
    ⟨.ok (.prop (String.ofList name) args (String.ofList text)), text, rest⟩
  | c :: rest => ⟨.error (.malformedArguments c), text, c :: rest⟩

/-- The proposition that starts with the capital letter `c`. An argument list belongs to it only
if no character stands between. -/
def proposition (c : Char) (cs : List Char) : Lexeme :=
  let name := c :: cs.takeWhile Char.isLower
  match cs.dropWhile Char.isLower with
  | '(' :: rest => argumentList name rest
  | rest => ⟨.ok (.prop (String.ofList name) [] (String.ofList name)), name, rest⟩

/-- The lexeme that starts with the character `c`, which must be able to start a token. -/
def read (c : Char) (cs : List Char) : Lexeme :=
  if c == '(' then ⟨.ok .openParen, [c], cs⟩
  else if c == ')' then ⟨.ok .closeParen, [c], cs⟩
  else if c == '\\' then command cs
  else if c.isUpper then proposition c cs
  else ⟨.ok (.var c.toString), [c], cs⟩

theorem argumentList_text_append_rest (name cs : List Char) :
    (argumentList name cs).text ++ (argumentList name cs).rest = name ++ '(' :: cs := by
  have hcs : cs.takeWhile isArgumentChar ++ cs.dropWhile isArgumentChar = cs :=
    List.takeWhile_append_dropWhile
  unfold argumentList
  split <;> rename_i h <;> rw [h] at hcs <;> simpa using hcs

theorem proposition_text_append_rest (c : Char) (cs : List Char) :
    (proposition c cs).text ++ (proposition c cs).rest = c :: cs := by
  have hcs : cs.takeWhile Char.isLower ++ cs.dropWhile Char.isLower = cs :=
    List.takeWhile_append_dropWhile
  unfold proposition
  split
  · rename_i rest h
    rw [argumentList_text_append_rest, ← h]
    simp [hcs]
  · simp [hcs]

/-- The characters of a lexeme and its rest are what it was read from. -/
theorem text_append_rest (c : Char) (cs : List Char) :
    (read c cs).text ++ (read c cs).rest = c :: cs := by
  unfold read
  split
  · rfl
  split
  · rfl
  split
  · rename_i h
    rw [beq_iff_eq] at h
    simp [command, h]
  split
  · exact proposition_text_append_rest c cs
  · rfl

/-- A lexeme takes at least one character. -/
theorem text_ne_nil (c : Char) (cs : List Char) : (read c cs).text ≠ [] := by
  unfold read
  split
  · simp
  split
  · simp
  split
  · simp [command]
  split
  · unfold proposition
    split
    · unfold argumentList
      split <;> simp
    · simp
  · simp

theorem length_rest_le (c : Char) (cs : List Char) : (read c cs).rest.length ≤ cs.length := by
  have h := congrArg List.length (text_append_rest c cs)
  have h' := List.length_pos_iff.mpr (text_ne_nil c cs)
  simp only [List.length_append, List.length_cons] at h
  omega

end Lexeme

/-- A place in a text: the number of characters read, and those still to be read. -/
structure Cursor where
  offset : Nat
  rest : List Char

namespace Cursor

/-- The beginning of a text. -/
def start (text : String) : Cursor := ⟨0, text.toList⟩

/-- The characters before the next one that can start a token. -/
def gap (c : Cursor) : List Char :=
  c.rest.takeWhile fun x => !startsToken x

/-- The characters of the gap that are not blank, with their offsets. -/
def ignored (c : Cursor) : List (Char × Nat) :=
  (c.gap.zipIdx c.offset).filter fun x => !Text.isBlank x.1

/-- What one step of reading comes to. -/
structure Step where
  /-- The characters skipped with a warning. -/
  ignored : List (Char × Nat)
  /-- The token with its offset, or the fault with its own. -/
  result : Except LexFault Located
  /-- Where the step ends. -/
  cursor : Cursor

/-- The warnings of a step. -/
def Step.events (s : Step) : List Event :=
  s.ignored.map fun x => .ignored x.1 x.2

/-- Whether a step found the end of the text. -/
def Step.isEnd (s : Step) : Bool :=
  match s.result with
  | .ok ⟨.eof, _⟩ => true
  | _ => false

/-- The offset of a fault whose lexeme starts at `start` and took `taken` characters: an unknown
command is blamed on its backslash, a malformed list on the character that it stopped at. -/
def faultOffset (start taken : Nat) : LexError → Nat
  | .unknownCommand _ => start
  | .malformedArguments _ => start + taken

/-- Skips the gap and reads one token. -/
def next (c : Cursor) : Step :=
  let start := c.offset + c.gap.length
  match c.rest.dropWhile fun x => !startsToken x with
  | [] => ⟨c.ignored, .ok ⟨.eof, start⟩, ⟨start, []⟩⟩
  | x :: xs =>
    let lexeme := Lexeme.read x xs
    { ignored := c.ignored
      result := match lexeme.result with
        | .ok t => .ok ⟨t, start⟩
        | .error e => .error ⟨e, faultOffset start lexeme.text.length e⟩
      cursor := ⟨start + lexeme.text.length, lexeme.rest⟩ }

theorem length_rest_next_le (c : Cursor) : c.next.cursor.rest.length ≤ c.rest.length := by
  have hd := (List.dropWhile_suffix (l := c.rest) fun x => !startsToken x).length_le
  unfold next
  split
  · simp
  · rename_i x xs h
    rw [h, List.length_cons] at hd
    have := Lexeme.length_rest_le x xs
    simp only
    omega

/-- Every step that does not find the end leaves fewer characters to read. -/
theorem length_rest_next_lt {c : Cursor} (h : c.next.isEnd = false) :
    c.next.cursor.rest.length < c.rest.length := by
  have hd := (List.dropWhile_suffix (l := c.rest) fun x => !startsToken x).length_le
  unfold next at h ⊢
  split
  · rename_i h'
    rw [h'] at h
    simp [Step.isEnd] at h
  · rename_i x xs h'
    rw [h', List.length_cons] at hd
    have := Lexeme.length_rest_le x xs
    simp only
    omega

/-- The tokens from a place to the end of the text, the end included, or the first fault. -/
def tokens (c : Cursor) : Journal LexFault (List Located) :=
  let step := c.next
  match step.result with
  | .error e => ⟨step.events, .error e⟩
  | .ok t =>
    if step.isEnd then ⟨step.events, .ok [t]⟩
    else
      let others := step.cursor.tokens
      ⟨step.events ++ others.events, others.result.map (t :: ·)⟩
termination_by c.rest.length
decreasing_by exact length_rest_next_lt (by simpa using ‹¬step.isEnd = true›)

/-- All steps from a place to the end of the text, going on after faults, and `extra` steps
more. -/
def steps (extra : Nat) (c : Cursor) : List Step :=
  let step := c.next
  if step.isEnd then
    match extra with
    | 0 => [step]
    | n + 1 => step :: step.cursor.steps n
  else step :: step.cursor.steps extra
termination_by extra + c.rest.length
decreasing_by
  · have := length_rest_next_le c
    omega
  · have := length_rest_next_lt (c := c) (by simpa using ‹¬step.isEnd = true›)
    omega

end Cursor

/-- The tokens of a text. The last one is its end. -/
def tokenize (text : String) : Journal LexFault (List Located) :=
  (Cursor.start text).tokens

end ClausalForm
