import ClausalForm.Proofs.NormalForm.Replacement

/-!
# Skolem form of any formula

The pass substitutes into bodies that hold terms already, and counts constants and functions on its
way. What comes out has a plain description that knows of neither: each existential quantifier has a
term, which is determined by the universal quantifiers around it and by the existential quantifiers
before it, and in its scope the term stands for its variable. No quantifier has to be in front, but
no name may be bound twice.

## Main definitions

* `Formula.existentialScopes`: the existential quantifiers with the universal ones around them
* `skolemTerm`, `Formula.witnesses`: the terms for the existential variables
* `Formula.witnessed`: the formula with the terms in place of the quantifiers

## Main results

* `skolemizeWithin_replace`: the pass on a formula that holds terms already
* `nodup_heads_skolemTermsAfter`: no two terms have the same symbol in front
* `skolemize_eq_witnessed`: the pass on a whole formula
-/

namespace ClausalForm

/-! ### The terms -/

/-- The symbol in front of a term, if it is an application. -/
def Term.head? : Term → Option String
  | var _ => none
  | app s _ => some s

/-- The term for an existential variable below universal quantifiers that bind `us`, the outermost
first. The lists of `earlier` are those of the existential quantifiers before. -/
def skolemTerm (earlier : List (List String)) (us : List String) : Term :=
  if us.isEmpty then .app ("c" ++ toString (1 + earlier.countP fun vs => vs.isEmpty)) []
  else .app ("f" ++ toString (earlier.countP fun vs => !vs.isEmpty)) (us.map .var)

/-- The terms for existential variables one after the other. -/
def skolemTermsAfter (earlier : List (List String)) :
    List (String × List String) → List (String × Term)
  | [] => []
  | (x, us) :: scopes => (x, skolemTerm earlier us) :: skolemTermsAfter (earlier ++ [us]) scopes

/-- The numbers that are next after existential quantifiers below universal ones that bind the
lists of `earlier`. -/
def namesAfter (earlier : List (List String)) : SkolemNames where
  nextConstant := 1 + earlier.countP fun vs => vs.isEmpty
  nextFunction := earlier.countP fun vs => !vs.isEmpty

theorem fresh_namesAfter (earlier : List (List String)) (us : List String) :
    (namesAfter earlier).fresh us = (skolemTerm earlier us, namesAfter (earlier ++ [us])) := by
  cases us with
  | nil =>
    simp only [SkolemNames.fresh, skolemTerm, namesAfter, List.countP_append]
    rfl
  | cons u us =>
    simp only [SkolemNames.fresh, skolemTerm, namesAfter, List.countP_append]
    rfl

theorem skolemTermsAfter_append (earlier : List (List String))
    (scopes scopes' : List (String × List String)) :
    skolemTermsAfter earlier (scopes ++ scopes') =
      skolemTermsAfter earlier scopes ++
        skolemTermsAfter (earlier ++ scopes.map Prod.snd) scopes' := by
  induction scopes generalizing earlier with
  | nil => simp [skolemTermsAfter]
  | cons p scopes ih => simp [skolemTermsAfter, ih]

theorem map_fst_skolemTermsAfter (earlier : List (List String))
    (scopes : List (String × List String)) :
    (skolemTermsAfter earlier scopes).map Prod.fst = scopes.map Prod.fst := by
  induction scopes generalizing earlier with
  | nil => rfl
  | cons p scopes ih => exact congrArg (p.1 :: ·) (ih _)

/-- Each variable has the term for its own universal quantifiers, after those before it. -/
theorem getElem?_skolemTermsAfter (earlier : List (List String))
    (scopes : List (String × List String)) (i : Nat) :
    (skolemTermsAfter earlier scopes)[i]? = scopes[i]?.map fun p =>
      (p.1, skolemTerm (earlier ++ (scopes.take i).map Prod.snd) p.2) := by
  induction scopes generalizing earlier i with
  | nil => rfl
  | cons p scopes ih =>
    cases i with
    | zero => simp [skolemTermsAfter]
    | succ i => simp [skolemTermsAfter, ih]

theorem vars_skolemTerm (earlier : List (List String)) (us : List String) :
    (skolemTerm earlier us).vars = us := by
  have hvars := (namesAfter earlier).vars_fresh us
  rwa [fresh_namesAfter] at hvars

theorem head?_skolemTerm (earlier : List (List String)) (us : List String) :
    (skolemTerm earlier us).head? = some ((namesAfter earlier).freshSymbol us) := by
  have hfresh := (namesAfter earlier).fresh_fst us
  rw [fresh_namesAfter] at hfresh
  exact congrArg Term.head? hfresh

/-- The symbols in front of the terms were not given before. -/
theorem ahead_of_mem_skolemTermsAfter {earlier : List (List String)}
    {scopes : List (String × List String)} {p : String × Term}
    (hp : p ∈ skolemTermsAfter earlier scopes) :
    ∃ s, p.2.head? = some s ∧ (namesAfter earlier).Ahead s := by
  induction scopes generalizing earlier with
  | nil => cases hp
  | cons q scopes ih =>
    obtain ⟨x, us⟩ := q
    rcases List.mem_cons.mp hp with rfl | hp
    · exact ⟨_, head?_skolemTerm earlier us, SkolemNames.ahead_freshSymbol _ us⟩
    · obtain ⟨s, hs, hahead⟩ := ih hp
      have hlater : ((namesAfter earlier).fresh us).2.Ahead s := by rwa [fresh_namesAfter]
      exact ⟨s, hs, (SkolemNames.ahead_fresh_snd hlater).1⟩

theorem nodup_heads_skolemTermsAfter (earlier : List (List String))
    (scopes : List (String × List String)) :
    ((skolemTermsAfter earlier scopes).map fun p => p.2.head?).Nodup := by
  induction scopes generalizing earlier with
  | nil => exact List.nodup_nil
  | cons q scopes ih =>
    obtain ⟨x, us⟩ := q
    rw [skolemTermsAfter, List.map_cons, List.nodup_cons]
    refine ⟨fun hmem => ?_, ih _⟩
    -- a later symbol is something else
    obtain ⟨p, hp, hhead⟩ := List.mem_map.mp hmem
    obtain ⟨s, hs, hahead⟩ := ahead_of_mem_skolemTermsAfter hp
    have hlater : ((namesAfter earlier).fresh us).2.Ahead s := by rwa [fresh_namesAfter]
    rw [head?_skolemTerm, hs, Option.some.injEq] at hhead
    exact (SkolemNames.ahead_fresh_snd hlater).2 hhead

namespace Term

variable {σ : String → Term} {x : String} {r : Term}

mutual

theorem substitute_replace (t : Term) :
    (t.replace σ).substitute x r = t.replace fun y => (σ y).substitute x r := by
  match t with
  | var y => rfl
  | app f args => rw [replace, substitute, replace, substituteAll_replaceAll args]

theorem substituteAll_replaceAll (ts : List Term) :
    substituteAll (replaceAll σ ts) x r = replaceAll (fun y => (σ y).substitute x r) ts := by
  match ts with
  | [] => rfl
  | t :: ts =>
    rw [replaceAll, substituteAll, replaceAll, substitute_replace t, substituteAll_replaceAll ts]

end

end Term

theorem termFor_of_mem {terms : List (String × Term)} (h : (terms.map Prod.fst).Nodup)
    {p : String × Term} (hp : p ∈ terms) : termFor terms p.1 = p.2 := by
  induction terms with
  | nil => cases hp
  | cons q terms ih =>
    obtain ⟨x, t⟩ := q
    rw [List.map_cons, List.nodup_cons] at h
    rcases List.mem_cons.mp hp with rfl | hmem
    · exact termFor_cons_self x t terms
    · have hne : p.1 ≠ x := by
        rintro rfl
        exact h.1 (List.mem_map.mpr ⟨p, hmem, rfl⟩)
      rw [termFor_cons_of_ne hne, ih h.2 hmem]

namespace Formula

/-- The existential quantifiers in pre-order, each with the variables of the universal quantifiers
around it, the outermost first. Around the formula are universal quantifiers that bind `us`. -/
def existentialScopes : (us : List String) → Formula → List (String × List String)
  | _, prop .. | _, var _ => []
  | us, neg f => f.existentialScopes us
  | us, binary _ l r => l.existentialScopes us ++ r.existentialScopes us
  | us, quant .universal x f => f.existentialScopes (us ++ [x])
  | us, quant .existential x f => (x, us) :: f.existentialScopes us

/-- The terms for the existential variables of a formula. -/
def witnesses (f : Formula) : List (String × Term) :=
  skolemTermsAfter [] (f.existentialScopes [])

/-- The formula without its existential quantifiers. In the scope of each, every occurrence of its
variable gives way to the term that is listed for it; every other variable gives way to what `σ` has
for it. -/
def witnessed (terms : List (String × Term)) : (σ : String → Term) → Formula → Formula
  | σ, prop p args => prop p (Term.replaceAll σ args)
  | σ, var x => ofTerm (σ x)
  | σ, neg f => neg (f.witnessed terms σ)
  | σ, binary op l r => binary op (l.witnessed terms σ) (r.witnessed terms σ)
  | σ, quant .universal x f => quant .universal x (f.witnessed terms (Function.update σ x (.var x)))
  | σ, quant .existential x f => f.witnessed terms (Function.update σ x (termFor terms x))

theorem map_fst_existentialScopes (us : List String) (f : Formula) :
    (f.existentialScopes us).map Prod.fst = (existentials f.binders).map Binder.name := by
  induction f generalizing us with
  | prop | var => rfl
  | neg f ih => exact ih us
  | binary op l r ihl ihr =>
    rw [existentialScopes, List.map_append, ihl, ihr, binders, existentials, existentials,
      existentials, List.filter_append, List.map_append]
  | quant q x f ih =>
    cases q with
    | universal => exact ih (us ++ [x])
    | existential => exact congrArg (x :: ·) (ih us)

/-- No other quantifier is left out, and none is put in. -/
theorem binders_witnessed (terms : List (String × Term)) (σ : String → Term) (f : Formula) :
    (f.witnessed terms σ).binders = universals f.binders := by
  induction f generalizing σ with
  | prop => rfl
  | var x => exact binders_ofTerm (σ x)
  | neg f ih => exact ih σ
  | binary op l r ihl ihr =>
    rw [witnessed, binders, ihl, ihr, binders, universals, universals, universals,
      List.filter_append]
  | quant q x f ih =>
    cases q with
    | universal => exact congrArg (Binder.mk .universal x :: ·) (ih _)
    | existential => exact ih _

/-! ### Formulas that hold terms already -/

theorem height_replace (σ : String → Term) (f : Formula) : (f.replace σ).height = f.height := by
  induction f with
  | prop => rfl
  | var x =>
    rw [replace]
    cases σ x <;> rfl
  | neg f ih | quant q x f ih => rw [replace, height, height, ih]
  | binary op l r ihl ihr => rw [replace, height, height, ihl, ihr]

variable {σ : String → Term} {x : String} {t : Term}

theorem subst_ofTerm (s : Term) : (ofTerm s).subst x t = ofTerm (s.substitute x t) := by
  cases s with
  | var y =>
    rw [ofTerm, subst, Term.substitute]
    split <;> rfl
  | app f args => rfl

/-- A term put for a variable after a replacement is put into what the replacement has. -/
theorem subst_replace {f : Formula} (hx : x ∉ f.boundNames) :
    (f.replace σ).subst x t = f.replace fun y => (σ y).substitute x t := by
  induction f with
  | prop p args => rw [replace, subst, replace, Term.substituteAll_replaceAll]
  | var y =>
    rw [replace, replace, subst_ofTerm]
  | neg f ih => rw [replace, subst, replace, ih hx]
  | binary op l r ihl ihr =>
    rw [boundNames_binary, List.mem_append, not_or] at hx
    rw [replace, subst, replace, ihl hx.1, ihr hx.2]
  | quant q y f ih =>
    rw [boundNames_quant, List.mem_cons, not_or] at hx
    rw [replace, subst, if_neg (Ne.symm hx.1), replace, ih hx.2]

/-! ### The pass -/

/-- A replacement that leaves the bound variables alone: each of them stands for itself, and is in
no other term. -/
structure KeepsBound (σ : String → Term) (f : Formula) : Prop where
  self : ∀ x ∈ f.boundNames, σ x = .var x
  fresh : ∀ y, ∀ x ∈ f.boundNames, y ≠ x → x ∉ (σ y).vars

namespace KeepsBound

variable {σ : String → Term} {f g : Formula} {x : String} {t : Term}

theorem mono (h : KeepsBound σ f) (hg : ∀ y ∈ g.boundNames, y ∈ f.boundNames) : KeepsBound σ g :=
  ⟨fun y hy => h.self y (hg y hy), fun y z hz => h.fresh y z (hg z hz)⟩

/-- A term without bound variables may be put for a variable as well. -/
theorem update (h : KeepsBound σ f) (hx : x ∉ f.boundNames) (ht : ∀ y ∈ t.vars, y ∉ f.boundNames) :
    KeepsBound (Function.update σ x t) f where
  self y hy := by
    have hne : y ≠ x := fun hyx => hx (hyx ▸ hy)
    rw [Function.update_of_ne hne, h.self y hy]
  fresh y z hz hyz := by
    by_cases hy : y = x
    · rw [hy, Function.update_self]
      exact fun hmem => ht z hmem hz
    · rw [Function.update_of_ne hy]
      exact h.fresh y z hz hyz

/-- A term that is put for a variable of a quantifier above the formula is one more term. -/
theorem subst_replace {q : Quantifier} (h : KeepsBound σ (quant q x f)) (hx : x ∉ f.boundNames)
    (t : Term) : (f.replace σ).subst x t = f.replace (Function.update σ x t) := by
  rw [Formula.subst_replace hx]
  congr 1
  funext y
  by_cases hy : y = x
  · rw [hy, Function.update_self, h.self x List.mem_cons_self, Term.substitute, if_pos rfl]
  · rw [Function.update_of_ne hy,
      Term.substitute_of_not_mem_vars _ (h.fresh y x List.mem_cons_self hy)]

end KeepsBound

/-- On a formula that holds terms already the pass does what it does on the formula without them:
the terms for its own existential variables are put in addition. -/
theorem skolemizeWithin_replace {limit n : Nat} {earlier : List (List String)} {us : List String}
    {terms : List (String × Term)} {f : Formula} (hnodup : f.boundNames.Nodup)
    (hσ : KeepsBound σ f) (hus : ∀ u ∈ us, u ∉ f.boundNames)
    (hterms : ∀ p ∈ skolemTermsAfter earlier (f.existentialScopes us), termFor terms p.1 = p.2) :
    (skolemizeWithin limit n (namesAfter earlier) us (f.replace σ)).result =
      withLevels limit f.height n (f.witnessed terms σ,
        namesAfter (earlier ++ (f.existentialScopes us).map Prod.snd)) := by
  induction f generalizing n earlier us σ with
  | prop p args =>
    cases n <;> simp [replace, skolemizeWithin, height, witnessed, existentialScopes]
  | var x =>
    rw [replace]
    cases n <;> cases hσx : σ x <;>
      simp [ofTerm, skolemizeWithin, height, witnessed, existentialScopes, hσx]
  | neg f ih =>
    cases n with
    | zero => simp [replace, skolemizeWithin, height]
    | succ n =>
      have hf := ih (n := n) hnodup ⟨hσ.self, hσ.fresh⟩ hus hterms
      simp only [replace, skolemizeWithin, Journal.result_bind, hf, height, withLevels_succ_succ]
      exact withLevels_bind_pure ..
  | binary op l r ihl ihr =>
    cases n with
    | zero => simp [replace, skolemizeWithin, height]
    | succ n =>
      simp only [boundNames_binary, List.mem_append, not_or] at hnodup hus
      obtain ⟨hl, hr, -⟩ := List.nodup_append.mp hnodup
      rw [existentialScopes, skolemTermsAfter_append, List.forall_mem_append] at hterms
      have hleft := ihl (n := n) hl (hσ.mono (by simp +contextual)) (fun u hu => (hus u hu).1)
        hterms.1
      have hright := ihr (n := n) hr (hσ.mono (by simp +contextual)) (fun u hu => (hus u hu).2)
        hterms.2
      rw [List.append_assoc, ← List.map_append] at hright
      simp only [replace, skolemizeWithin, Journal.result_bind, hleft, height, withLevels_succ_succ]
      -- the right operand goes on with the numbers that are next after the left one
      refine withLevels_bind ?_
      simp only [hright]
      exact withLevels_bind_pure ..
  | quant q x f ih =>
    cases n with
    | zero => cases q <;> simp [replace, skolemizeWithin, height]
    | succ n =>
      rw [boundNames_quant, List.nodup_cons] at hnodup
      simp only [boundNames_quant, List.mem_cons, not_or] at hus
      have hbody : KeepsBound σ f := hσ.mono fun y hy => List.mem_cons_of_mem x hy
      cases q with
      | universal =>
        have hus' : ∀ u ∈ us ++ [x], u ∉ f.boundNames := by
          rw [List.forall_mem_append, List.forall_mem_singleton]
          exact ⟨fun u hu => (hus u hu).2, hnodup.1⟩
        have hself : Function.update σ x (.var x) = σ :=
          Function.update_eq_self_iff.mpr (hσ.self x List.mem_cons_self).symm
        have hf := ih (n := n) hnodup.2 hbody hus' hterms
        simp only [replace, skolemizeWithin, Journal.result_bind, hf, height, withLevels_succ_succ,
          witnessed, hself, existentialScopes]
        exact withLevels_bind_pure ..
      | existential =>
        rw [existentialScopes, skolemTermsAfter, List.forall_mem_cons] at hterms
        obtain ⟨hterm, hterms⟩ := hterms
        have hus' : ∀ u ∈ us, u ∉ f.boundNames := fun u hu => (hus u hu).2
        have hput : KeepsBound (Function.update σ x (skolemTerm earlier us)) f := by
          refine hbody.update hnodup.1 ?_
          rwa [vars_skolemTerm]
        have hf := ih (n := n) hnodup.2 hput hus' hterms
        -- putting in the term takes no more levels than the body has
        have hsubst := hσ.subst_replace hnodup.1 (skolemTerm earlier us)
        have hlevels : max ((f.replace σ).substLevels x) f.height = f.height := by
          have hle := substLevels_le_height x (f.replace σ)
          rw [height_replace] at hle
          omega
        have hbind : (withLevels limit ((f.replace σ).substLevels x) n
            (f.replace (Function.update σ x (skolemTerm earlier us))) >>= fun g =>
              (skolemizeWithin limit n (namesAfter (earlier ++ [us])) us g).result) = _ :=
          withLevels_bind hf
        rw [hlevels, List.append_assoc, List.singleton_append] at hbind
        simp only [replace, skolemizeWithin, fresh_namesAfter, Journal.result_bind,
          Journal.result_report, Journal.result_ofExcept, substitute_eq, hsubst, height,
          withLevels_succ_succ, witnessed, hterm, existentialScopes, List.map_cons]
        exact hbind

/-! ### The whole formula -/

theorem nodup_map_fst_witnesses {f : Formula} (hf : f.boundNames.Nodup) :
    (f.witnesses.map Prod.fst).Nodup := by
  rw [witnesses, map_fst_skolemTermsAfter, map_fst_existentialScopes]
  exact hf.sublist (List.filter_sublist.map Binder.name)

theorem keepsBound_var (f : Formula) : KeepsBound .var f where
  self _ _ := rfl
  fresh _ _ _ hne hmem := hne (List.mem_singleton.mp hmem).symm

/-- What the pass makes of any formula whose binders are apart, with levels enough: the formula
without its existential quantifiers, in the scope of each of which a term stands for its variable.
The quantifier at each position has the term that is determined by the universal quantifiers around
it and the existential ones before it; the universal quantifiers are all that is left, and no two
terms have the same symbol in front. -/
theorem skolemize_eq_witnessed (limits : Limits) {f : Formula} (hf : f.BindersApart) :
    (f.skolemize limits).result =
        withLevels limits.depth f.height limits.depth (f.witnessed f.witnesses .var) ∧
      (∀ i, f.witnesses[i]? = (f.existentialScopes [])[i]?.map fun p =>
        (p.1, skolemTerm (((f.existentialScopes []).take i).map Prod.snd) p.2)) ∧
      (f.witnessed f.witnesses .var).binders = universals f.binders ∧
      (f.witnesses.map fun p => p.2.head?).Nodup := by
  have hterms : ∀ p ∈ f.witnesses, termFor f.witnesses p.1 = p.2 :=
    fun p hp => termFor_of_mem (nodup_map_fst_witnesses hf.nodup) hp
  have hrun : (skolemizeWithin limits.depth limits.depth (namesAfter []) []
      (f.replace .var)).result = _ :=
    skolemizeWithin_replace hf.nodup (keepsBound_var f) nofun hterms
  rw [replace_var] at hrun
  refine ⟨?_, fun i => ?_, binders_witnessed _ _ f, nodup_heads_skolemTermsAfter [] _⟩
  · rw [skolemize, Journal.result_bind]
    show (skolemizeWithin limits.depth limits.depth (namesAfter []) [] f).result >>= _ = _
    rw [hrun]
    exact withLevels_bind_pure ..
  · simp only [witnesses, getElem?_skolemTermsAfter, List.nil_append]

/-- Quantifiers below connectives: a constant in a term of a function, a variable that stands as a
formula, and two functions of one universal variable beside each other. -/
theorem skolemize_eq_witnessed_below :
    let f := binary .disj
      (quant .existential "x" (binary .conj (prop "P" [.var "x"])
        (quant .universal "u" (quant .existential "y"
          (prop "Q" [.var "x", .app "g" [.var "u", .var "y"]])))))
      (quant .universal "v" (binary .implies (quant .existential "z" (var "z"))
        (quant .existential "w" (prop "R" [.var "w", .var "v"]))))
    let g := binary .disj
      (binary .conj (prop "P" [.app "c1" []]) (quant .universal "u"
        (prop "Q" [.app "c1" [], .app "g" [.var "u", .app "f0" [.var "u"]]])))
      (quant .universal "v" (binary .implies (prop "f1" [.var "v"])
        (prop "R" [.app "f2" [.var "v"], .var "v"])))
    f.BindersApart ∧ (f.skolemize {}).result = .ok g ∧ g.binders = universals f.binders ∧
      (f.witnesses.map fun p => p.2.head?).Nodup := by
  intro f g
  have hapart : f.BindersApart := ⟨by decide, by decide⟩
  have hwitnessed : f.witnessed f.witnesses .var = g := by decide +kernel
  obtain ⟨hrun, -, hbinders, hheads⟩ := skolemize_eq_witnessed {} hapart
  rw [hwitnessed] at hrun hbinders
  exact ⟨hapart, hrun, hbinders, hheads⟩

end Formula

end ClausalForm
