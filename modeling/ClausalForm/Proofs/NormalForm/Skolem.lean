import ClausalForm.NormalForm.Skolem
import ClausalForm.Proofs.NormalForm.Prenex
import ClausalForm.Proofs.Formula.Substitution

/-!
# Skolem form

On a formula with its quantifiers in front, the pass puts one term for each existential variable
into the matrix, one after the other, and keeps the universal quantifiers.

## Main definitions

* `IsSkolemName`: the names that the terms for existential variables have
* `SkolemNames.Ahead`: the names that are still to be given
* `skolemTerms`: the terms for the existential variables of a prefix
* `Formula.universals`, `Formula.existentials`: the two kinds of quantifiers of a prefix
* `Formula.instantiate`: terms put for variables, one after the other

## Main results

* `map_fst_skolemTerms`, `mem_of_mem_vars_skolemTerms`: what the terms are for, and their variables
* `skolemize_quantify_eq`: what the pass makes of a prefix and a matrix
* `exists_skolemizeWithin_eq`: the levels that it takes
* `events_skolemizeWithin_quantify`: the terms that it reports
-/

namespace ClausalForm

/-! ### Names -/

/-- The names `c0`, `c1`, … and `f0`, `f1`, …. -/
def IsSkolemName (s : String) : Prop :=
  ∃ k : Nat, s = "c" ++ toString k ∨ s = "f" ++ toString k

theorem IsSkolemName.head_eq {s : String} (h : IsSkolemName s) :
    s.toList.head? = some 'c' ∨ s.toList.head? = some 'f' := by
  obtain ⟨k, rfl | rfl⟩ := h
  · rw [String.toList_append]
    exact .inl rfl
  · rw [String.toList_append]
    exact .inr rfl

theorem IsSkolemName.not_of_head {s : String} (hc : s.toList.head? ≠ some 'c')
    (hf : s.toList.head? ≠ some 'f') : ¬ IsSkolemName s :=
  fun h => h.head_eq.elim hc hf

theorem toString_nat_inj {j k : Nat} (h : toString j = toString k) : j = k := by
  have hdigits : Nat.toDigits 10 j = Nat.toDigits 10 k := by
    simpa only [Nat.toString_eq_repr, Nat.toList_repr] using congrArg String.toList h
  simpa using congrArg (fun ds => Nat.ofDigitChars 10 ds 0) hdigits

theorem constant_ne_function (j k : Nat) : "c" ++ toString j ≠ "f" ++ toString k := by
  intro h
  have hchars := congrArg String.toList h
  simp only [String.toList_append] at hchars
  cases hchars

namespace SkolemNames

/-- The names that are still to be given. -/
def Ahead (names : SkolemNames) (s : String) : Prop :=
  (∃ k, names.nextConstant ≤ k ∧ s = "c" ++ toString k) ∨
    ∃ k, names.nextFunction ≤ k ∧ s = "f" ++ toString k

theorem Ahead.isSkolemName {names : SkolemNames} {s : String} (h : names.Ahead s) :
    IsSkolemName s := by
  rcases h with ⟨k, _, hk⟩ | ⟨k, _, hk⟩
  · exact ⟨k, .inl hk⟩
  · exact ⟨k, .inr hk⟩

/-- The name of the term for an existential variable. -/
def freshSymbol (names : SkolemNames) (universals : List String) : String :=
  match universals with
  | [] => "c" ++ toString names.nextConstant
  | _ => "f" ++ toString names.nextFunction

theorem fresh_fst (names : SkolemNames) (universals : List String) :
    (names.fresh universals).1 = .app (names.freshSymbol universals) (universals.map .var) := by
  cases universals <;> rfl

theorem vars_fresh (names : SkolemNames) (universals : List String) :
    (names.fresh universals).1.vars = universals := by
  rw [fresh_fst, Term.vars, Term.varsOf_eq_flatMap, List.flatMap_map]
  exact List.flatMap_singleton' universals

theorem symbols_fresh (names : SkolemNames) (universals : List String) :
    (names.fresh universals).1.symbols = [names.freshSymbol universals] := by
  rw [fresh_fst, Term.symbols, Term.symbolsOf_map_var]

theorem ahead_freshSymbol (names : SkolemNames) (universals : List String) :
    names.Ahead (names.freshSymbol universals) := by
  cases universals with
  | nil => exact .inl ⟨_, le_rfl, rfl⟩
  | cons x xs => exact .inr ⟨_, le_rfl, rfl⟩

/-- What is still to be given after a name was given is something else than that name. -/
theorem ahead_fresh_snd {names : SkolemNames} {universals : List String} {s : String}
    (h : (names.fresh universals).2.Ahead s) :
    names.Ahead s ∧ s ≠ names.freshSymbol universals := by
  cases universals with
  | nil =>
    rcases h with ⟨k, hk, rfl⟩ | ⟨k, hk, rfl⟩
    · simp only [fresh] at hk
      refine ⟨.inl ⟨k, by omega, rfl⟩, fun he => ?_⟩
      have := toString_nat_inj ((String.append_right_inj _).mp he)
      omega
    · exact ⟨.inr ⟨k, hk, rfl⟩, (constant_ne_function _ _).symm⟩
  | cons x xs =>
    rcases h with ⟨k, hk, rfl⟩ | ⟨k, hk, rfl⟩
    · exact ⟨.inl ⟨k, hk, rfl⟩, constant_ne_function _ _⟩
    · simp only [fresh] at hk
      refine ⟨.inr ⟨k, by omega, rfl⟩, fun he => ?_⟩
      have := toString_nat_inj ((String.append_right_inj _).mp he)
      omega

end SkolemNames

/-- The terms for the existential variables of a prefix below universal quantifiers that bind
`universals`. -/
def skolemTerms : SkolemNames → (universals : List String) → List Binder → List (String × Term)
  | _, _, [] => []
  | names, universals, ⟨.universal, x⟩ :: bs => skolemTerms names (universals ++ [x]) bs
  | names, universals, ⟨.existential, x⟩ :: bs =>
    (x, (names.fresh universals).1) :: skolemTerms (names.fresh universals).2 universals bs

/-- Universal quantifiers below all others have no part in the terms. -/
theorem skolemTerms_append_universal (names : SkolemNames) (us : List String) (bs : List Binder)
    (xs : List String) :
    skolemTerms names us (bs ++ xs.map (Binder.mk .universal)) = skolemTerms names us bs := by
  induction bs generalizing names us with
  | nil =>
    induction xs generalizing us with
    | nil => rfl
    | cons x xs ih => exact ih _
  | cons b bs ih =>
    obtain ⟨q, x⟩ := b
    cases q with
    | universal => exact ih _ _
    | existential => exact congrArg (List.cons _) (ih _ _)

namespace Formula

/-- The universal quantifiers of a prefix. -/
def universals (bs : List Binder) : List Binder :=
  bs.filter fun b => b.quantifier = .universal

theorem quantifier_of_mem_universals {bs : List Binder} {b : Binder} (h : b ∈ universals bs) :
    b.quantifier = .universal := by
  simpa using (List.mem_filter.mp h).2

/-- The existential quantifiers of a prefix. -/
def existentials (bs : List Binder) : List Binder :=
  bs.filter fun b => b.quantifier = .existential

/-- The variables of a prefix are the universal and the existential ones. -/
theorem mem_universals_or_mem_existentials {bs : List Binder} {x : String} :
    x ∈ (universals bs).map Binder.name ∨ x ∈ (existentials bs).map Binder.name ↔
      x ∈ bs.map Binder.name := by
  rw [← List.mem_append, ← List.map_append, List.mem_map, List.mem_map]
  refine exists_congr fun ⟨q, y⟩ => and_congr_left fun _ => ?_
  rw [List.mem_append, universals, existentials, List.mem_filter, List.mem_filter]
  cases q <;> simp

/-- There is one term for each existential variable, in order. -/
theorem map_fst_skolemTerms (names : SkolemNames) (us : List String) (bs : List Binder) :
    (skolemTerms names us bs).map Prod.fst = (existentials bs).map Binder.name := by
  induction bs generalizing names us with
  | nil => rfl
  | cons b bs ih =>
    obtain ⟨q, x⟩ := b
    cases q with
    | universal => exact ih _ _
    | existential => exact congrArg (List.cons x) (ih _ _)

/-- The variables of the terms are universal. -/
theorem mem_of_mem_vars_skolemTerms {names : SkolemNames} {us : List String} {bs : List Binder}
    {p : String × Term} (hp : p ∈ skolemTerms names us bs) {y : String} (hy : y ∈ p.2.vars) :
    y ∈ us ∨ ⟨.universal, y⟩ ∈ bs := by
  induction bs generalizing names us with
  | nil => cases hp
  | cons b bs ih =>
    obtain ⟨q, x⟩ := b
    cases q with
    | universal =>
      rcases ih hp with hy | hy
      · rw [List.mem_append, List.mem_singleton] at hy
        rcases hy with hy | rfl
        · exact .inl hy
        · exact .inr List.mem_cons_self
      · exact .inr (List.mem_cons_of_mem _ hy)
    | existential =>
      rcases List.mem_cons.mp hp with rfl | hp
      · rw [SkolemNames.vars_fresh] at hy
        exact .inl hy
      · exact (ih hp).imp id (List.mem_cons_of_mem _)

/-- Terms put for variables, one after the other. -/
def instantiate (f : Formula) (terms : List (String × Term)) : Formula :=
  terms.foldl (fun g p => g.subst p.1 p.2) f

@[simp] theorem instantiate_nil (f : Formula) : f.instantiate [] = f := rfl

@[simp] theorem instantiate_cons (f : Formula) (x : String) (t : Term)
    (terms : List (String × Term)) :
    f.instantiate ((x, t) :: terms) = (f.subst x t).instantiate terms := rfl

/-! ### Formulas without quantifiers -/

theorem isQuantifierFree_subst (x : String) (r : Term) (f : Formula) :
    (f.subst x r).isQuantifierFree = f.isQuantifierFree := by
  induction f with
  | prop => rfl
  | var y => by_cases h : y = x <;> cases r <;> simp [subst, h, ofTerm, isQuantifierFree]
  | neg f ih => exact ih
  | binary op l r ihl ihr => simp [subst, isQuantifierFree, ihl, ihr]
  | quant q y f => by_cases h : y = x <;> simp [subst, h, isQuantifierFree]

theorem isQuantifierFree_instantiate {f : Formula} (h : f.isQuantifierFree)
    (terms : List (String × Term)) : (f.instantiate terms).isQuantifierFree := by
  induction terms generalizing f with
  | nil => exact h
  | cons p terms ih => exact ih (by rwa [isQuantifierFree_subst])

theorem boundNames_of_isQuantifierFree {f : Formula} (h : f.isQuantifierFree) :
    f.boundNames = [] := by
  rw [boundNames, binders_of_isQuantifierFree h, List.map_nil]

/-- Leaving out the variables of the terms, and with them the variables that the terms are for,
which are no longer there. -/
theorem filter_free_instantiate {f : Formula} (hf : f.isQuantifierFree) {us : List String}
    {terms : List (String × Term)} (h : ∀ p ∈ terms, ∀ y ∈ p.2.vars, y ∈ us) :
    ((f.instantiate terms).free.filter fun x => x ∉ us) =
      f.free.filter fun x => x ∉ us ∧ x ∉ terms.map Prod.fst := by
  induction terms generalizing f with
  | nil => simp
  | cons p terms ih =>
    rw [List.forall_mem_cons] at h
    have hbound : ∀ y ∈ p.2.vars, y ∉ f.boundNames := by
      simp [boundNames_of_isQuantifierFree hf]
    rw [instantiate_cons, ih (by rwa [isQuantifierFree_subst]) h.2, free_subst hbound,
      filter_flatMap_occurrence_of_forall fun y hy => by simp [h.1 y hy]]
    refine List.filter_congr fun x _ => ?_
    rw [List.map_cons]
    by_cases hx : x = p.1
    · simp [hx]
    · simp [hx, beq_eq_false_iff_ne.mpr hx]

theorem boundNames_quantify (bs : List Binder) (f : Formula) :
    (f.quantify bs).boundNames = bs.map Binder.name ++ f.boundNames := by
  rw [boundNames, binders_quantify, List.map_append, boundNames]

/-- Substitution goes below quantifiers that do not bind the variable. -/
theorem subst_quantify {x : String} {bs : List Binder} (h : x ∉ bs.map Binder.name) (r : Term)
    (f : Formula) : (f.quantify bs).subst x r = (f.subst x r).quantify bs := by
  induction bs with
  | nil => rfl
  | cons b bs ih =>
    rw [List.map_cons, List.mem_cons, not_or] at h
    rw [quantify_cons, subst, if_neg (Ne.symm h.1), ih h.2, quantify_cons]

theorem dropQuantifiers_of_isQuantifierFree {f : Formula} (h : f.isQuantifierFree) :
    f.dropQuantifiers = f := by
  cases f with
  | quant => cases h
  | prop | var | neg | binary => rfl

theorem dropQuantifiers_quantify {bs : List Binder} (hbs : ∀ b ∈ bs, b.quantifier = .universal)
    {f : Formula} (h : f.isQuantifierFree) : (f.quantify bs).dropQuantifiers = f := by
  induction bs with
  | nil => exact dropQuantifiers_of_isQuantifierFree h
  | cons b bs ih =>
    rw [List.forall_mem_cons] at hbs
    rw [quantify_cons, hbs.1, dropQuantifiers]
    exact ih hbs.2

/-! ### The pass -/

/-- Without quantifiers there is nothing to replace. -/
theorem skolemizeWithin_of_isQuantifierFree {limit n : Nat} {names names' : SkolemNames}
    {universals : List String} {f g : Formula} (hf : f.isQuantifierFree)
    (h : (skolemizeWithin limit n names universals f).result = .ok (g, names')) :
    g = f ∧ names' = names := by
  induction f generalizing n names names' g with
  | prop | var =>
    cases n <;> cases h <;> exact ⟨rfl, rfl⟩
  | neg f ih =>
    cases n with
    | zero => cases h
    | succ n =>
      simp only [skolemizeWithin, Journal.result_bind, bind_eq_ok_iff] at h
      obtain ⟨⟨f', names₁⟩, hf', h⟩ := h
      obtain ⟨rfl, rfl⟩ := ih hf hf'
      cases h
      exact ⟨rfl, rfl⟩
  | binary op l r ihl ihr =>
    rw [isQuantifierFree, Bool.and_eq_true] at hf
    cases n with
    | zero => cases h
    | succ n =>
      simp only [skolemizeWithin, Journal.result_bind, bind_eq_ok_iff] at h
      obtain ⟨⟨l', names₁⟩, hl, ⟨r', names₂⟩, hr, h⟩ := h
      obtain ⟨rfl, rfl⟩ := ihl hf.1 hl
      obtain ⟨rfl, rfl⟩ := ihr hf.2 hr
      cases h
      exact ⟨rfl, rfl⟩
  | quant => cases hf

/-- The pass keeps the universal quantifiers of a prefix, and puts terms for the existential
variables into the matrix. -/
theorem skolemizeWithin_quantify {limit n : Nat} {names names' : SkolemNames}
    {us : List String} {bs : List Binder} {f g : Formula} (hf : f.isQuantifierFree)
    (hbs : (bs.map Binder.name).Nodup)
    (h : (skolemizeWithin limit n names us (f.quantify bs)).result = .ok (g, names')) :
    g = (f.instantiate (skolemTerms names us bs)).quantify (universals bs) := by
  induction bs generalizing n names us f g with
  | nil => exact (skolemizeWithin_of_isQuantifierFree hf h).1
  | cons b bs ih =>
    obtain ⟨q, x⟩ := b
    rw [List.map_cons, List.nodup_cons] at hbs
    -- without levels neither quantifier is passed
    cases n with
    | zero => cases q <;> cases h
    | succ n =>
      cases q with
      | universal =>
        simp only [quantify_cons, skolemizeWithin, Journal.result_bind, bind_eq_ok_iff] at h
        obtain ⟨⟨g', names₁⟩, hg', h⟩ := h
        cases h
        rw [ih hf hbs.2 hg']
        rfl
      | existential =>
        simp only [quantify_cons, skolemizeWithin, Journal.result_bind, Journal.result_ofExcept,
          bind_eq_ok_iff, substitute_eq, withLevels_eq_ok_iff] at h
        obtain ⟨_, _, f', ⟨_, rfl⟩, h⟩ := h
        -- no quantifier below binds `x`, so the term goes into the matrix
        rw [subst_quantify hbs.1] at h
        exact ih (by rwa [isQuantifierFree_subst]) hbs.2 h

/-- The pass takes as many levels as the formula has, since a term in the place of a variable
changes no height. -/
theorem exists_skolemizeWithin_eq (limit n : Nat) (names : SkolemNames) (us : List String)
    (f : Formula) :
    ∃ p, (skolemizeWithin limit n names us f).result = withLevels limit f.height n p := by
  induction n generalizing names us f with
  | zero =>
    cases f with
    | prop p args => exact ⟨(prop p args, names), (withLevels_zero ..).symm⟩
    | var x => exact ⟨(var x, names), (withLevels_zero ..).symm⟩
    | neg f => exact ⟨(f, names), (withLevels_succ_zero ..).symm⟩
    | binary op l r => exact ⟨(l, names), (withLevels_succ_zero ..).symm⟩
    | quant q x f =>
      refine ⟨(f, names), ?_⟩
      cases q <;> exact (withLevels_succ_zero ..).symm
  | succ n ih =>
    cases f with
    | prop p args => exact ⟨(prop p args, names), (withLevels_zero ..).symm⟩
    | var x => exact ⟨(var x, names), (withLevels_zero ..).symm⟩
    | neg f =>
      obtain ⟨p, hf⟩ := ih names us f
      refine ⟨(neg p.1, p.2), ?_⟩
      simp only [skolemizeWithin, Journal.result_bind, hf, height, withLevels_succ_succ]
      exact withLevels_bind_pure ..
    | binary op l r =>
      obtain ⟨p, hl⟩ := ih names us l
      obtain ⟨p', hr⟩ := ih p.2 us r
      refine ⟨(binary op p.1 p'.1, p'.2), ?_⟩
      simp only [skolemizeWithin, Journal.result_bind, hl, height, withLevels_succ_succ]
      refine withLevels_bind ?_
      rw [hr]
      exact withLevels_bind_pure ..
    | quant q x f =>
      cases q with
      | universal =>
        obtain ⟨p, hf⟩ := ih names (us ++ [x]) f
        refine ⟨(quant .universal x p.1, p.2), ?_⟩
        simp only [skolemizeWithin, Journal.result_bind, hf, height, withLevels_succ_succ]
        exact withLevels_bind_pure ..
      | existential =>
        -- the levels of the substitution are among those of the body
        obtain ⟨p, hf⟩ := ih (names.fresh us).2 us (f.subst x (names.fresh us).1)
        rw [height_subst] at hf
        refine ⟨p, ?_⟩
        have hlevels : max (f.substLevels x) f.height = f.height :=
          Nat.max_eq_right (substLevels_le_height x f)
        simp only [skolemizeWithin, Journal.result_bind, Journal.result_report,
          Journal.result_ofExcept, substitute_eq, height, withLevels_succ_succ]
        rw [← hlevels]
        exact withLevels_bind hf

theorem height_le_of_skolemizeWithin {limit n : Nat} {names : SkolemNames} {us : List String}
    {f : Formula} {p : Formula × SkolemNames}
    (h : (skolemizeWithin limit n names us f).result = .ok p) : f.height ≤ n := by
  obtain ⟨p', hp'⟩ := exists_skolemizeWithin_eq limit n names us f
  rw [hp', withLevels_eq_ok_iff] at h
  exact h.1

/-- A formula that is skolemized from its prefix and matrix. -/
theorem skolemize_quantify_eq {limits : Limits} {bs : List Binder} {f g : Formula}
    (hf : f.isQuantifierFree) (hbs : (bs.map Binder.name).Nodup)
    (h : ((f.quantify bs).skolemize limits).result = .ok g) :
    g = (f.instantiate (skolemTerms {} [] bs)).quantify (universals bs) := by
  simp only [skolemize, Journal.result_bind, bind_eq_ok_iff] at h
  obtain ⟨⟨g', names⟩, hg, h⟩ := h
  cases h
  exact skolemizeWithin_quantify hf hbs hg

/-! ### What the pass reports -/

/-- Nothing is reported but the terms for variables. -/
theorem eq_replaced_of_mem_events {limit n : Nat} {names : SkolemNames} {us : List String}
    {f : Formula} {e : Event} (he : e ∈ (skolemizeWithin limit n names us f).events) :
    ∃ x t, e = .replaced x t := by
  induction n generalizing names us f with
  | zero =>
    cases f with
    | prop | var | neg | binary => cases he
    | quant q => cases q <;> cases he
  | succ n ih =>
    cases f with
    | prop | var => cases he
    | neg f =>
      rw [skolemizeWithin, Journal.events_bind_pure] at he
      exact ih he
    | binary op l r =>
      rw [skolemizeWithin, Journal.mem_events_bind] at he
      obtain he | ⟨_, _, he⟩ := he
      · exact ih he
      · rw [Journal.events_bind_pure] at he
        exact ih he
    | quant q x f =>
      cases q with
      | universal =>
        rw [skolemizeWithin, Journal.events_bind_pure] at he
        exact ih he
      | existential =>
        obtain he | ⟨_, _, he⟩ := Journal.mem_events_bind.mp he
        · exact ⟨x, _, List.mem_singleton.mp he⟩
        · obtain he | ⟨_, _, he⟩ := Journal.mem_events_bind.mp he
          · cases he
          · exact ih he

theorem events_skolemizeWithin_of_isQuantifierFree {limit n : Nat} {names : SkolemNames}
    {us : List String} {f : Formula} (hf : f.isQuantifierFree) :
    (skolemizeWithin limit n names us f).events = [] := by
  induction f generalizing n names with
  | prop | var => cases n <;> rfl
  | neg f ih =>
    cases n with
    | zero => rfl
    | succ n => rw [skolemizeWithin, Journal.events_bind_pure, ih hf]
  | binary op l r ihl ihr =>
    rw [isQuantifierFree, Bool.and_eq_true] at hf
    cases n with
    | zero => rfl
    | succ n =>
      rw [skolemizeWithin, Journal.events_bind, ihl hf.1]
      cases (skolemizeWithin limit n names us l).result with
      | error => rfl
      | ok p => exact (Journal.events_bind_pure ..).trans (ihr hf.2)
  | quant => cases hf

/-- The terms that are put into the matrix are reported, in order. -/
theorem events_skolemizeWithin_quantify {limit n : Nat} {names : SkolemNames} {us : List String}
    {bs : List Binder} {f : Formula} {p : Formula × SkolemNames} (hf : f.isQuantifierFree)
    (hbs : (bs.map Binder.name).Nodup)
    (h : (skolemizeWithin limit n names us (f.quantify bs)).result = .ok p) :
    (skolemizeWithin limit n names us (f.quantify bs)).events =
      (skolemTerms names us bs).map fun p => .replaced p.1 p.2 := by
  induction bs generalizing n names us f p with
  | nil => exact events_skolemizeWithin_of_isQuantifierFree hf
  | cons b bs ih =>
    obtain ⟨q, x⟩ := b
    rw [List.map_cons, List.nodup_cons] at hbs
    cases n with
    | zero => cases q <;> cases h
    | succ n =>
      cases q with
      | universal =>
        simp only [quantify_cons, skolemizeWithin, Journal.result_bind, bind_eq_ok_iff] at h
        obtain ⟨_, hbody, _⟩ := h
        rw [quantify_cons, skolemizeWithin, Journal.events_bind_pure, ih hf hbs.2 hbody]
        rfl
      | existential =>
        simp only [quantify_cons, skolemizeWithin, Journal.result_bind, Journal.result_ofExcept,
          bind_eq_ok_iff, substitute_eq, withLevels_eq_ok_iff] at h
        obtain ⟨_, _, _, ⟨hlevels, rfl⟩, h⟩ := h
        have hsubst : substitute limit x (names.fresh us).1 n (f.quantify bs) =
            .ok ((f.subst x (names.fresh us).1).quantify bs) := by
          rw [substitute_eq, withLevels_eq_ok_iff, subst_quantify hbs.1]
          exact ⟨hlevels, rfl⟩
        rw [subst_quantify hbs.1] at h
        have hrest := ih (by rwa [isQuantifierFree_subst]) hbs.2 h
        -- the term is reported first, and putting it in reports nothing
        simp only [quantify_cons, skolemizeWithin, Journal.events_bind, Journal.events_report,
          Journal.result_report, Journal.events_ofExcept, Journal.result_ofExcept, hsubst, hrest,
          Except.toOption, Option.elim_some, List.nil_append]
        rfl

end Formula

end ClausalForm
