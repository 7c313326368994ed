import ClausalForm.Proofs.NormalForm.FreshNames
import ClausalForm.Proofs.NormalForm.LevelLimits
import ClausalForm.Proofs.Normalization.Freshness
import ClausalForm.Proofs.Normalization.Run
import ClausalForm.Proofs.Program.RoundTrip
import ClausalForm.Proofs.Token.Faults

/-!
# Failures

What a failure can be about, and how it is worded. Of the passes only standardizing apart fails for
another reason than the limit of levels, namely for want of a name for a variable that the formula
binds. The wording of a failure quotes nothing of a text but letters and a character that is no
blank, so that it stands on one line.

## Main definitions

* `FailsOnly`: a computation fails with nothing but errors of one kind
* `Failure.Worded`: the words for each failure
* `IsLine`: a text has no line feed

## Main results

* `Formula.failsOnly_normalize`: the errors of a normalization
* `failsOnly_tokenize`, `failsOnly_parseText`, `failsOnly_normalizeText`: the failures of the
  library are worded in one line
-/

namespace ClausalForm

variable {α β ε ε' : Type}

/-! ### Errors of one kind -/

/-- The computation has an answer, or an error with the property `P`. -/
def FailsOnly (P : ε → Prop) (x : Except ε α) : Prop := ∀ e, x = .error e → P e

namespace FailsOnly

variable {P Q : ε → Prop}

theorem ok (a : α) : FailsOnly P (.ok a) := nofun

theorem error {e : ε} (h : P e) : FailsOnly P (.error e : Except ε α) := by
  rintro _ ⟨⟩
  exact h

theorem mono {x : Except ε α} (hx : FailsOnly P x) (h : ∀ e, P e → Q e) : FailsOnly Q x :=
  fun e he => h e (hx e he)

theorem bind {x : Except ε α} {next : α → Except ε β} (hx : FailsOnly P x)
    (hnext : ∀ a, x = .ok a → FailsOnly P (next a)) : FailsOnly P (x >>= next) := by
  cases x with
  | error e => exact error (hx e rfl)
  | ok a => exact hnext a rfl

theorem mapError {P : ε' → Prop} {f : ε → ε'} {x : Except ε α}
    (hx : FailsOnly (fun e => P (f e)) x) : FailsOnly P (x.mapError f) := by
  cases x with
  | error e => exact error (hx e rfl)
  | ok a => exact ok a

end FailsOnly

/-! ### Passes -/

theorem failsOnly_withLevels (limit need n : Nat) (a : α) :
    FailsOnly (· = .recursionLimit limit) (withLevels limit need n a) := by
  unfold withLevels
  split
  · exact .ok a
  · exact .error rfl

theorem IsLimited.failsOnly {limit : Nat} {x : Except PassError α} {p : Prop}
    (h : IsLimited limit x p) : FailsOnly (· = .recursionLimit limit) x := by
  intro e he
  by_cases hp : p
  · rw [h.error_iff.mpr hp] at he
    exact (Except.error.inj he).symm
  · obtain ⟨a, ha⟩ := h.exists_ok hp
    rw [ha] at he
    cases he

namespace Formula

variable {limits : Limits}

/-- The error is about the limit of levels, or about a variable that the formula binds. -/
def MayFailWith (limits : Limits) (f : Formula) (e : PassError) : Prop :=
  e = .recursionLimit limits.depth ∨ ∃ x ∈ f.boundNames, e = .namesExhausted x limits.suffix

theorem failsOnly_distributeWithin (outer : Connective) (f : Formula) :
    FailsOnly (· = .recursionLimit limits.depth)
      (f.distributeWithin limits.depth outer limits.depth) := by
  rw [distributeWithin_eq]
  exact failsOnly_withLevels _ _ _ _

theorem failsOnly_stripQuantifiers (f : Formula) :
    FailsOnly (· = .recursionLimit limits.depth) (f.stripQuantifiers limits) := by
  rw [stripQuantifiers_eq]
  exact failsOnly_withLevels _ _ _ _

theorem failsOnly_standardize (f : Formula) :
    FailsOnly (f.MayFailWith limits) (f.standardize limits).result := by
  intro e he
  by_cases hheight : f.height ≤ limits.depth
  · obtain ⟨given, x, hstuck, rfl⟩ := isStuck_of_standardize hheight he
    exact .inr ⟨x, List.mem_of_getElem? hstuck.bound, rfl⟩
  · rw [(standardize_eq_error_iff limits f).mpr (Nat.lt_of_not_le hheight)] at he
    exact .inl (Except.error.inj he).symm

/-- A normalization fails for want of levels, or for want of a name for a variable that the formula
binds. -/
theorem failsOnly_normalize (f : Formula) :
    FailsOnly (f.MayFailWith limits) (f.normalize limits).result := by
  have hlimit {x : Except PassError Formula}
      (h : FailsOnly (· = .recursionLimit limits.depth) x) : FailsOnly (f.MayFailWith limits) x :=
    h.mono fun _ => .inl
  -- one step for each stage; up to the renaming it is known what the stages are
  simp only [normalize, Journal.result_bind, result_reach, Journal.result_pure,
    Journal.result_ofExcept, Journal.result_report]
  refine .bind (.ok f) fun _ h => ?_
  cases h
  refine .bind (hlimit ?_) fun a ha => ?_
  · rw [eliminateImplication, eliminateImplicationWithin_eq]
    exact failsOnly_withLevels _ _ _ _
  obtain rfl := eq_expanded_of_eliminateImplication ha
  refine .bind (hlimit ?_) fun b hb => ?_
  · rw [pushNegation, pushNegationWithin_eq]
    exact failsOnly_withLevels _ _ _ _
  obtain rfl := eq_polarized_of_pushNegation hb
  refine .bind (hlimit ?_) fun c hc => ?_
  · obtain ⟨g, hg⟩ := exists_collapses (f.expanded.polarized true)
    rw [removeDoubleNegation, hg.removeDoubleNegationWithin_eq]
    exact failsOnly_withLevels _ _ _ _
  obtain rfl := eq_of_removeDoubleNegation
    (isNegationNormal_polarized (isImplicationFree_expanded f) true) hc
  refine .bind ?_ fun standardized _ => ?_
  · -- the binders are still those of the formula
    refine (failsOnly_standardize _).mono fun e he => he.imp_right ?_
    rintro ⟨x, hx, rfl⟩
    rw [boundNames_polarized, mem_boundNames_expanded] at hx
    exact ⟨x, hx, rfl⟩
  refine .bind (hlimit ?_) fun prenex _ => ?_
  · rw [hoistQuantifiers_eq]
    exact failsOnly_withLevels _ _ _ _
  have hdisplay (outer : Connective) : FailsOnly (· = .recursionLimit limits.depth)
      (prenex.stripQuantifiers limits >>= fun g =>
        g.distributeWithin limits.depth outer limits.depth) :=
    .bind (failsOnly_stripQuantifiers prenex) fun g _ => failsOnly_distributeWithin outer g
  refine .bind (hlimit (isLimited_skolemize limits prenex).failsOnly) fun skolemized _ => ?_
  refine .bind (.ok _) fun quantifierFree _ => ?_
  refine .bind (hlimit (failsOnly_distributeWithin .conj quantifierFree)) fun _ _ => ?_
  refine .bind (hlimit (hdisplay .conj)) fun _ _ => ?_
  refine .bind (hlimit (hdisplay .disj)) fun _ _ => ?_
  exact .bind (.ok _) fun _ _ => .ok _

/-- The quantifiers of a formula with names that the notation knows bind such names. -/
theorem isVariableName_of_mem_boundNames {f : Formula} (hf : f.isLexable) {x : String}
    (hx : x ∈ f.boundNames) : isVariableName x := by
  induction f with
  | prop | var => cases hx
  | neg f ih => exact ih hf hx
  | binary op l r ihl ihr =>
    rw [isLexable, Bool.and_eq_true] at hf
    rw [boundNames_binary, List.mem_append] at hx
    exact hx.elim (ihl hf.1) (ihr hf.2)
  | quant q y f ih =>
    rw [isLexable, Bool.and_eq_true] at hf
    rw [boundNames_quant, List.mem_cons] at hx
    rcases hx with rfl | hx
    · exact hf.1
    · exact ih hf.2 hx

end Formula

/-! ### Wordings -/

/-- The words for a failure: those of a lexical fault with its offset, and those of a pass, each
behind what has failed. -/
inductive Failure.Worded : Failure → String → Prop
  | unknownCommand (word : String) (offset : Nat) :
    Worded (.lexical ⟨.unknownCommand word, offset⟩)
      ("lexer error: " ++ ("unrecognized command '\\" ++ word ++ "'") ++
        " (at offset " ++ toString offset ++ ")")
  | malformedArguments (c : Char) (offset : Nat) :
    Worded (.lexical ⟨.malformedArguments c, offset⟩)
      ("lexer error: " ++ ("unexpected character '" ++ c.toString ++
        "' in proposition arguments") ++ " (at offset " ++ toString offset ++ ")")
  | noFormula : Worded .noFormula "no formula found in input"
  | namesExhausted (name : String) (limit : Nat) :
    Worded (.pass (.namesExhausted name limit))
      ("transformation error: " ++ ("could not find a fresh name for variable '" ++ name ++
        "' after trying " ++ toString limit ++ " suffixes"))
  | recursionLimit (limit : Nat) :
    Worded (.pass (.recursionLimit limit))
      ("transformation error: " ++
        ("formula is nested more than " ++ toString limit ++ " levels deep"))

theorem Failure.worded_message (e : Failure) : e.Worded e.message := by
  cases e with
  | lexical fault =>
    obtain ⟨word | c, offset⟩ := fault
    · exact .unknownCommand word offset
    · exact .malformedArguments c offset
  | noFormula => exact .noFormula
  | pass e =>
    cases e with
    | namesExhausted name limit => exact .namesExhausted name limit
    | recursionLimit limit => exact .recursionLimit limit

/-- The text has no line feed. -/
def IsLine (s : String) : Prop := '\n' ∉ s.toList

instance (s : String) : Decidable (IsLine s) := inferInstanceAs (Decidable ('\n' ∉ s.toList))

namespace IsLine

theorem append {s t : String} (hs : IsLine s) (ht : IsLine t) : IsLine (s ++ t) := by
  rw [IsLine, String.toList_append, List.mem_append, not_or]
  exact ⟨hs, ht⟩

theorem of_forall {p : Char → Bool} {cs : List Char} (hp : p '\n' = false)
    (h : ∀ c ∈ cs, p c) : IsLine (String.ofList cs) := by
  rw [IsLine, String.toList_ofList]
  intro hmem
  rw [h _ hmem] at hp
  cases hp

theorem natToString (k : Nat) : IsLine (toString k) := fun h => by
  have hdigit := isDigit_of_mem_toString h
  cases hdigit

end IsLine

theorem isLine_tooDeepMessage (limit : Nat) : IsLine (tooDeepMessage limit) :=
  ((by decide : IsLine _).append (.natToString limit)).append (by decide)

theorem isLine_singleton {c : Char} (h : c ≠ '\n') : IsLine c.toString := by
  rw [IsLine, Char.toString, String.toList_singleton, List.mem_singleton]
  exact h.symm

theorem isLine_of_isVariableName {x : String} (h : isVariableName x) : IsLine x := by
  obtain ⟨c, hc, rfl⟩ := isVariableName_iff.mp h
  refine isLine_singleton ?_
  rintro rfl
  cases hc

/-- What is quoted of a misspelling are letters or a character that is no blank. -/
theorem LexError.Misspelling.isLine_message {e : LexError} {chars rest : List Char}
    (h : e.Misspelling chars rest) : IsLine e.message := by
  cases h with
  | unknownCommand hword =>
    have hletters : IsLine _ := .of_forall (by decide) hword.forall_mem
    exact ((by decide : IsLine _).append hletters).append (by decide)
  | malformedArguments _ _ _ hc =>
    refine ((by decide : IsLine _).append (isLine_singleton ?_)).append (by decide)
    rintro rfl
    cases hc

/-! ### The library -/

theorem failsOnly_tokenize (text : String) :
    FailsOnly (fun fault => IsLine (Failure.lexical fault).message) (tokenize text).result := by
  intro fault h
  obtain ⟨_, _, _, _, hfirst⟩ := exists_firstFault_of_tokenize h
  exact ((((by decide : IsLine _).append hfirst.misspelling.isLine_message).append
    (by decide)).append (.natToString _)).append (by decide)

theorem failsOnly_parseText (nesting : Nat) (text : String) :
    FailsOnly (fun e => IsLine e.message) (parseText nesting text).result := by
  rw [parseText, Journal.result_mapError, Program.ofText, Journal.result_bind]
  exact .mapError (.bind (failsOnly_tokenize text) fun ts _ => .ok _)

/-- A name that there is no fresh one for is a single letter. -/
theorem Formula.MayFailWith.isLine_message {limits : Limits} {f : Formula} {e : PassError}
    (h : f.MayFailWith limits e) (hf : f.isLexable) : IsLine e.message := by
  rcases h with rfl | ⟨x, hx, rfl⟩
  · exact isLine_tooDeepMessage _
  · have hname := isLine_of_isVariableName (isVariableName_of_mem_boundNames hf hx)
    exact ((((by decide : IsLine _).append hname).append (by decide)).append
      (.natToString _)).append (by decide)

theorem failsOnly_normalizeText (options : NormalizeOptions) (text : String) :
    FailsOnly (fun e => IsLine e.message) (normalizeText options text).result := by
  rw [normalizeText, Journal.result_bind]
  refine .bind (failsOnly_parseText _ _) fun p hp => ?_
  split
  · exact .error (by decide)
  · rename_i f hf
    have hlexable : f.isLexable :=
      Program.isLexable_of_mem_statements (Journal.result_mapError_eq_ok_iff.mp hp) f
        (List.mem_of_getElem? hf)
    simp only [Journal.result_bind, Journal.result_report, Journal.result_mapError]
    refine .bind (.ok ()) fun _ _ => .bind (.mapError ?_) fun _ _ => .ok _
    -- the wording of the error of a pass stands behind a few words
    exact (Formula.failsOnly_normalize f).mono fun e he =>
      (by decide : IsLine _).append (he.isLine_message hlexable)

end ClausalForm
