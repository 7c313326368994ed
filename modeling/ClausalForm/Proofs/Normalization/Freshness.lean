import ClausalForm.Proofs.Normalization.FreeVariables

/-!
# Names of terms and names of variables

Two passes make names. Standardizing apart puts a number after the name of a binder that it renames,
and the names of the terms for existential variables are a letter with a number. Neither pass looks
at what the other makes, so a binder that is called by such a letter, with digits or without, can
get the name of a term. No other binder can.

## Main definitions

* `IsSkolemStem`: the names that become names of terms by a number after them, or are such names

## Main results

* `exists_mem_boundNames`: the names that standardizing apart gives to binders
* `not_isSkolemName_variables`: no variable has the name of a term, if no binder is such a stem
* `skolemConstant_eq_variable`: otherwise there can be a variable with the name of a term
-/

namespace ClausalForm

/-! ### Names -/

/-- The names that consist of the letter `c` or `f` and digits, perhaps none. -/
def IsSkolemStem (x : String) : Prop :=
  ∃ letter digits, x.toList = letter :: digits ∧ (letter = 'c' ∨ letter = 'f') ∧
    ∀ d ∈ digits, d.isDigit

theorem IsSkolemStem.not_of_head {x : String} (hc : x.toList.head? ≠ some 'c')
    (hf : x.toList.head? ≠ some 'f') : ¬ IsSkolemStem x := by
  rintro ⟨letter, digits, hx, hletter, -⟩
  rw [hx, List.head?_cons] at hc hf
  exact hletter.elim (fun h => hc (congrArg some h)) fun h => hf (congrArg some h)

theorem isDigit_of_mem_toString {k : Nat} {d : Char} (h : d ∈ (toString k).toList) : d.isDigit := by
  rw [Nat.toString_eq_repr, Nat.toList_repr] at h
  exact Nat.isDigit_of_mem_toDigits (by decide) (by decide) h

theorem IsSkolemName.isSkolemStem {s : String} (h : IsSkolemName s) : IsSkolemStem s := by
  obtain ⟨k, rfl | rfl⟩ := h
  · exact ⟨'c', _, String.toList_append, .inl rfl, fun _ => isDigit_of_mem_toString⟩
  · exact ⟨'f', _, String.toList_append, .inr rfl, fun _ => isDigit_of_mem_toString⟩

/-- A name that is a stem with a number after it is a stem without the number. -/
theorem IsSkolemStem.of_append {x : String} {k : Nat} (h : IsSkolemStem (x ++ toString k)) :
    IsSkolemStem x := by
  obtain ⟨letter, digits, hname, hletter, hdigits⟩ := h
  rw [String.toList_append] at hname
  cases hx : x.toList with
  | nil =>
    -- the letter would have to be a digit of the number
    rw [hx, List.nil_append] at hname
    have hdigit : letter.isDigit := isDigit_of_mem_toString (k := k) (by rw [hname]; simp)
    rcases hletter with rfl | rfl <;> cases hdigit
  | cons c cs =>
    rw [hx, List.cons_append, List.cons.injEq] at hname
    obtain ⟨rfl, rfl⟩ := hname
    exact ⟨c, cs, hx, hletter, fun d hd => hdigits d (List.mem_append_left _ hd)⟩

/-- The symbols of the terms for existential variables are the names of these terms. -/
theorem isSkolemName_of_mem_skolemTerms {names : SkolemNames} {us : List String} {bs : List Binder}
    {p : String × Term} (hp : p ∈ skolemTerms names us bs) {s : String} (hs : s ∈ p.2.symbols) :
    IsSkolemName s := by
  induction bs generalizing names us with
  | nil => cases hp
  | cons b bs ih =>
    obtain ⟨q, x⟩ := b
    cases q with
    | universal => exact ih hp
    | existential =>
      rcases List.mem_cons.mp hp with rfl | hp
      · rw [SkolemNames.symbols_fresh, List.mem_singleton] at hs
        rw [hs]
        exact (names.ahead_freshSymbol us).isSkolemName
      · exact ih hp

namespace Formula

/-! ### Terms put for variables -/

theorem mem_symbols_instantiate {f : Formula} {terms : List (String × Term)} {s : String}
    (hs : s ∈ (f.instantiate terms).symbols) : s ∈ f.symbols ∨ ∃ p ∈ terms, s ∈ p.2.symbols := by
  induction terms generalizing f with
  | nil => exact .inl hs
  | cons p terms ih =>
    rcases ih hs with hs | ⟨p', hp', hs⟩
    · exact (mem_symbols_subst hs).imp id fun hs => ⟨p, List.mem_cons_self, hs⟩
    · exact .inr ⟨p', List.mem_cons_of_mem p hp', hs⟩

end Formula

/-! ### The names of a run -/

namespace Normalization.IsRun

variable {limits : Limits} {f : Formula} {r : Normalization} {x : String}

/-- A binder of the standardized stage has the name of one of the formula, perhaps with a number. -/
theorem exists_mem_boundNames (h : r.IsRun limits f) (hx : x ∈ r.standardized.boundNames) :
    ∃ y ∈ f.boundNames, x = y ∨ ∃ k : Nat, x = y ++ toString k := by
  obtain ⟨_, _, _, _, _, hstd⟩ := Formula.standardizes_of_standardize h.standardized
  obtain ⟨y, hy, hxy⟩ := hstd.exists_mem_boundNames hx
  rw [h.doubleNegationFree_eq, h.negationPushed_eq, Formula.boundNames_polarized,
    Formula.mem_boundNames_expanded] at hy
  exact ⟨y, hy, hxy⟩

/-- Where no free variable has the name of a term and no binder can be renamed to one, no variable
has such a name from the Skolem form on. -/
theorem not_isSkolemName (h : r.IsRun limits f) (hfree : ∀ y ∈ f.free, ¬ IsSkolemName y)
    (hbound : ∀ y ∈ f.boundNames, ¬ IsSkolemStem y) (hx : x ∈ r.skolemized.variableNames) :
    ¬ IsSkolemName x := by
  intro hname
  rcases h.mem_variableNames_skolemized hx with hx | hx
  · exact hfree x hx hname
  -- a variable of the prefix has the name of a binder of the formula, perhaps with a number
  rw [h.quantifierPrefix_prenex] at hx
  obtain ⟨y, hy, rfl | ⟨k, rfl⟩⟩ := h.exists_mem_boundNames (List.mem_map_of_mem hx)
  · exact hbound x hy hname.isSkolemStem
  · exact hbound y hy hname.isSkolemStem.of_append

end Normalization.IsRun

namespace Formula

/-- From the Skolem form on, what is no symbol of the formula is the name of a term for an
existential variable. No variable has such a name, if no free variable of the formula has one and no
binder of the formula can be renamed to one. -/
theorem not_isSkolemName_variables {limits : Limits} {f : Formula} {r : Normalization}
    (h : (f.normalize limits).result = .ok r) (hfree : ∀ x ∈ f.free, ¬ IsSkolemName x)
    (hbound : ∀ x ∈ f.boundNames, ¬ IsSkolemStem x) :
    (∀ s ∈ r.skolemized.symbols, s ∈ f.symbols ∨ IsSkolemName s) ∧
      (∀ stage ∈ [Stage.skolemized, .quantifierFree, .cnf],
        ∀ x ∈ (r.formula stage).variableNames, ¬ IsSkolemName x) ∧
      ∀ c ∈ r.clauses, ∀ x ∈ c.variableNames, ¬ IsSkolemName x := by
  have hrun := normalize_eq_ok_iff.mp h
  have hstages : ∀ stage ∈ [Stage.skolemized, .quantifierFree, .cnf],
      ∀ x ∈ (r.formula stage).variableNames, ¬ IsSkolemName x := fun stage hstage x hx =>
    hrun.not_isSkolemName hfree hbound (hrun.mem_variableNames_of_formula hstage hx)
  refine ⟨fun s hs => ?_, hstages, fun c hc x hx => ?_⟩
  · rw [hrun.skolemized_eq, symbols_quantify] at hs
    rcases mem_symbols_instantiate hs with hs | ⟨p, hp, hs⟩
    · exact .inl (hrun.mem_symbols_matrix hs)
    · exact .inr (isSkolemName_of_mem_skolemTerms hp hs)
  · exact hstages .cnf (by simp) x (mem_variableNames_of_mem_clauses hc hx)

set_option maxRecDepth 10000 in
/-- Binders with another letter, the second one renamed, beside a free variable. -/
theorem not_isSkolemName_variables_renamed :
    let f := quant .existential "x" (quant .universal "y" (quant .universal "y"
      (prop "P" [.var "x", .var "y", .var "z"])))
    ∃ r, (f.normalize {}).result = .ok r ∧ "c1" ∈ r.skolemized.symbols ∧
      r.skolemized.variableNames = ["y", "y1", "y1", "z"] ∧
      ∀ x ∈ r.skolemized.variableNames, ¬ IsSkolemName x := by
  intro f
  have hskolemized : (f.normalize {}).result.map (fun r => r.skolemized) =
      .ok (quant .universal "y" (quant .universal "y1"
        (prop "P" [.app "c1" [], .var "y1", .var "z"]))) := by
    decide +kernel
  obtain ⟨r, hr, hskolemized⟩ := exists_eq_ok_of_map hskolemized
  have hfree : ∀ x ∈ f.free, ¬ IsSkolemName x := by
    intro x hx
    apply IsSkolemName.not_of_head <;> revert x <;> decide
  have hbound : ∀ x ∈ f.boundNames, ¬ IsSkolemStem x := by
    intro x hx
    apply IsSkolemStem.not_of_head <;> revert x <;> decide
  have hstages := (not_isSkolemName_variables hr hfree hbound).2.1
  exact ⟨r, hr, by rw [hskolemized]; decide, by rw [hskolemized]; decide,
    hstages .skolemized (by simp)⟩

set_option maxRecDepth 10000 in
/-- The second of two binders called `c` is renamed to the name of the first constant, so that one
name stands for both. -/
theorem skolemConstant_eq_variable :
    let f := quant .existential "x" (quant .universal "c" (quant .universal "c"
      (prop "P" [.var "x", .var "c"])))
    (Program.ofText 100 "\\exists x \\forall c \\forall c P(x, c)").result.map Program.statements =
        .ok [f] ∧
      ∃ r, (f.normalize {}).result = .ok r ∧ "c1" ∈ r.skolemized.symbols ∧ "c1" ∉ f.symbols ∧
        "c1" ∈ r.skolemized.variableNames ∧
        r.skolemized.render = "\\forall c \\forall c1 P(c1, c1)" := by
  intro f
  have hskolemized : (f.normalize {}).result.map (fun r => r.skolemized) =
      .ok (quant .universal "c" (quant .universal "c1"
        (prop "P" [.app "c1" [], .var "c1"]))) := by
    decide +kernel
  obtain ⟨r, hr, hskolemized⟩ := exists_eq_ok_of_map hskolemized
  refine ⟨by decide +kernel, r, hr, ?_⟩
  rw [hskolemized]
  decide +kernel

end Formula

end ClausalForm
