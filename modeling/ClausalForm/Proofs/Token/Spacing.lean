import ClausalForm.Proofs.Token.Scanning

/-!
# Tokens written apart

The tokens of a text can be written with single blanks between them, commands by their canonical
words and all other tokens as they stood in the text. What is written so has the same tokens: no
token runs into the next one, and the only token that goes on to the end of a text, an argument list
that nothing closes, is the last one of both texts.

## Main definitions

* `spaced`: tokens written with single blanks between them

## Main results

* `Lexeme.tokenizes_of_read`: a token that was read is read again from its written form
* `exists_tokenize_spaced`: the tokens of a text that was written apart
-/

namespace ClausalForm

/-- The tokens written with single blanks between them. -/
def spaced (ts : List Token) : String :=
  " ".intercalate (ts.map Token.render)

/-! ### A token that was read -/

namespace Lexeme

/-- An argument list that nothing closes is read up to the end. -/
theorem argumentList_unclosed {inner : List Char} (h : ∀ c ∈ inner, isArgumentChar c)
    (name : List Char) :
    argumentList name inner =
      ⟨.ok (.prop (String.ofList name) ((inner.filter Char.isLower).map Char.toString)
          (String.ofList (name ++ '(' :: inner))), name ++ '(' :: inner, []⟩ := by
  have htake : inner.takeWhile isArgumentChar = inner := List.takeWhile_eq_self_iff.mpr h
  have hdrop : inner.dropWhile isArgumentChar = [] := List.dropWhile_eq_nil_iff.mpr h
  simp only [argumentList, htake, hdrop]

variable {c : Char} {cs cs' : List Char} {t : Token} {ts : List Token}

theorem tokenizes_command (h : (command cs).result = .ok t) (hcs' : Ends cs')
    (hts : Tokenizes cs' ts) : Tokenizes (t.render.toList ++ cs') (t :: ts) := by
  simp only [command] at h
  split at h
  · cases h
    exact hts.command _ hcs'
  · cases h

theorem tokenizes_proposition (hc : c.isUpper) (h : (proposition c cs).result = .ok t)
    (hcs' : Ends cs') (hend : (proposition c cs).rest = [] → cs' = []) (hts : Tokenizes cs' ts) :
    Tokenizes (t.render.toList ++ cs') (t :: ts) := by
  have hname : ∀ x ∈ cs.takeWhile Char.isLower, x.isLower := fun _ hx => List.mem_takeWhile_imp hx
  have hstart := startsToken_of_isUpper hc
  unfold proposition at h hend
  split at h
  · rename_i inner hdrop
    simp only [hdrop] at hend
    have hinner : ∀ x ∈ inner.takeWhile isArgumentChar, isArgumentChar x :=
      fun _ hx => List.mem_takeWhile_imp hx
    unfold argumentList at h hend
    split at h <;> rename_i hlist <;> simp only [hlist] at hend
    · -- nothing closes the list, so that there is nothing after the token
      cases h
      obtain rfl := hend trivial
      have hread := read_argumentList hc hname (inner.takeWhile isArgumentChar)
      rw [argumentList_unclosed hinner] at hread
      rw [List.append_nil, Token.render, String.toList_ofList, List.cons_append]
      refine .cons hstart (by rw [hread, List.cons_append]) nofun ?_
      rwa [hread]
    · rename_i rest
      cases h
      have hread := read_argumentList hc hname (inner.takeWhile isArgumentChar ++ ')' :: cs')
      rw [argumentList_closed hinner] at hread
      have hwritten : ((c :: cs.takeWhile Char.isLower ++ '(' :: inner.takeWhile isArgumentChar) ++
          [')']) ++ cs' = c :: (cs.takeWhile Char.isLower ++
            '(' :: (inner.takeWhile isArgumentChar ++ ')' :: cs')) := by
        simp
      rw [Token.render, String.toList_ofList, hwritten]
      refine .cons hstart (by rw [hread]) nofun ?_
      rwa [hread]
    · cases h
  · cases h
    have hread := read_name hc hname hcs'
    rw [Token.render, String.toList_ofList, List.cons_append]
    refine .cons hstart (by rw [hread]) nofun ?_
    rwa [hread]

/-- A token that was read is read again from its written form, before any characters that end a
token; if it went on to the end of the text, then before the end. -/
theorem tokenizes_of_read (h : (read c cs).result = .ok t) (hc : startsToken c) (hcs' : Ends cs')
    (hend : (read c cs).rest = [] → cs' = []) (hts : Tokenizes cs' ts) :
    Tokenizes (t.render.toList ++ cs') (t :: ts) := by
  unfold read at h hend
  split at h
  · cases h
    exact hts.openParen
  split at h
  · cases h
    exact hts.closeParen
  split at h
  · exact tokenizes_command h hcs' hts
  rename_i hopen hclose hcommand
  split at h
  · rename_i hupper
    simp only [hopen, hclose, hcommand, hupper] at hend
    exact tokenizes_proposition hupper h hcs' hend hts
  · rename_i hupper
    cases h
    have hlower := isLower_of_startsToken hc hopen hclose hcommand hupper
    exact hts.var (isVariableName_iff.mpr ⟨c, hlower, rfl⟩)

end Lexeme

/-! ### Tokens in a row -/

theorem toList_spaced_cons {t u : Token} {us : List Token} :
    (spaced (t :: u :: us)).toList = t.render.toList ++ ' ' :: (spaced (u :: us)).toList := by
  rw [spaced, spaced, List.map_cons, List.map_cons, String.toList_intercalate,
    String.toList_intercalate, List.map_cons, List.map_cons, List.intercalate_cons_cons]
  simp

/-- A token in front of others, of which it is only known that its written form is read again
before a blank, or before the end if it is the last one. -/
theorem Tokenizes.spaced_cons {t : Token} {us : List Token}
    (ht : ∀ ⦃cs ts⦄, Ends cs → (us = [] → cs = []) → Tokenizes cs ts →
      Tokenizes (t.render.toList ++ cs) (t :: ts))
    (h : Tokenizes (spaced us).toList us) : Tokenizes (spaced (t :: us)).toList (t :: us) := by
  cases us with
  | nil =>
    have hlast := ht ends_nil (fun _ => rfl) .nil
    rwa [List.append_nil] at hlast
  | cons u us =>
    rw [toList_spaced_cons]
    exact ht (ends_blank _) nofun h.blank

/-- Tokens that are read from their written forms everywhere are read when written apart. -/
theorem tokenizes_spaced {us : List Token} (h : ∀ u ∈ us, WrittenAs u.render [u]) :
    Tokenizes (spaced us).toList us := by
  induction us with
  | nil => exact .nil
  | cons t us ih =>
    rw [List.forall_mem_cons] at h
    exact (ih h.2).spaced_cons fun cs ts hcs _ hts => h.1 hcs hts

namespace Cursor

/-- A step that does not find the end reads a token from the characters at the end of its gap. -/
theorem exists_read_of_next {c : Cursor} {t : Located} (h : c.next.result = .ok t)
    (hend : c.next.isEnd = false) :
    ∃ x xs, startsToken x ∧ (Lexeme.read x xs).result = .ok t.token ∧
      (Lexeme.read x xs).rest = c.next.cursor.rest := by
  unfold next at h hend ⊢
  split at h <;> rename_i hdrop <;> simp only [hdrop] at h hend ⊢
  · cases hend
  · rename_i x xs
    have hstart := startsToken_of_dropWhile hdrop
    split at h
    · rename_i token hread
      cases h
      exact ⟨x, xs, hstart, hread, rfl⟩
    · cases h

/-- Where no characters are left, only the end is read. -/
theorem tokens_of_rest_eq_nil {c : Cursor} (h : c.rest = []) :
    c.tokens.result = .ok [⟨.eof, c.offset⟩] := by
  obtain ⟨offset, rest⟩ := c
  obtain rfl : rest = [] := h
  rw [result_tokens]
  rfl

/-- The tokens from a place end with the end of the text, and those before it are read again when
they are written apart. -/
theorem exists_tokenizes_spaced {c : Cursor} {ls : List Located} (h : c.tokens.result = .ok ls) :
    ∃ us offset, ls = us ++ [⟨.eof, offset⟩] ∧
      Tokenizes (spaced (us.map Located.token)).toList (us.map Located.token) := by
  -- Induction on the characters that are left, of which every token but the end takes some.
  induction hn : c.rest.length using Nat.strongRecOn generalizing c ls with
  | ind n ih =>
    cases hnext : c.next.result with
    | error e =>
      rw [tokens, hnext] at h
      cases h
    | ok t =>
      rw [tokens_of_next hnext] at h
      cases hend : c.next.isEnd with
      | true =>
        rw [if_pos hend] at h
        cases h
        obtain ⟨token, offset⟩ := t
        obtain rfl : token = .eof := (isEnd_of_ok hnext).mp hend
        exact ⟨[], offset, rfl, .nil⟩
      | false =>
        rw [if_neg (by rw [hend]; decide)] at h
        obtain ⟨ls', hls', rfl⟩ := exists_eq_ok_of_map h
        obtain ⟨us, offset, rfl, hus⟩ := ih _ (hn ▸ length_rest_next_lt hend) hls' rfl
        obtain ⟨x, xs, hstart, hread, hrest⟩ := exists_read_of_next hnext hend
        refine ⟨t :: us, offset, rfl, hus.spaced_cons fun cs ts hcs hlast hts => ?_⟩
        refine Lexeme.tokenizes_of_read hread hstart hcs (fun hnil => hlast ?_) hts
        -- after a token that went on to the end of the text there is no other
        rw [hrest] at hnil
        rw [tokens_of_rest_eq_nil hnil] at hls'
        have hdrop := congrArg List.dropLast (Except.ok.inj hls')
        rw [List.dropLast_concat] at hdrop
        exact List.map_eq_nil_iff.mpr hdrop.symm

end Cursor

/-- A text that has tokens has the same ones when they are written apart, without the end. -/
theorem exists_tokenize_spaced {text : String} {ts : List Located}
    (h : (tokenize text).result = .ok ts) :
    ∃ ts', (tokenize (spaced (ts.dropLast.map Located.token))).result = .ok ts' ∧
      ts'.map Located.token = ts.map Located.token := by
  obtain ⟨us, offset, rfl, hus⟩ := Cursor.exists_tokenizes_spaced h
  rw [List.dropLast_concat, List.map_append]
  exact hus 0

end ClausalForm
