import ClausalForm.Proofs.NormalForm.Skolem
import ClausalForm.Proofs.NormalForm.Witnesses

/-!
# Terms for existential variables

The terms for existential variables name witnesses. Going from a formula to its Skolem form, a
witness is chosen for each existential quantifier in turn, and becomes the meaning of a new name.
That name is given the values of the enclosing universal variables only, so the choice may not
depend on anything else. Going back, the value of the term is a witness.

## Main definitions

* `Interpretation.withFunction`: a new meaning for one name

## Main results

* `exists_holds_subst_fresh`: from the witnesses of one quantifier to the meaning of one name
* `exists_holds_instantiate`: from witnesses to the meaning of the new names
* `holds_quantify_of_instantiate`: from the new names back to witnesses
-/

namespace ClausalForm

universe u

variable {D : Type u}

/-! ### A new meaning for one name -/

namespace Interpretation

/-- The name `s` means the function `φ`, and as a proposition that the value of `φ` is true. -/
def withFunction (I : Interpretation D) (s : String) (φ : List D → D) : Interpretation D where
  function := Function.update I.function s φ
  predicate := Function.update I.predicate s fun ds => I.truth (φ ds)
  truth := I.truth

variable {I J : Interpretation D} {s : String} {φ : List D → D}

theorem function_withFunction : (I.withFunction s φ).function s = φ := Function.update_self ..

theorem withFunction_agreesOn : (I.withFunction s φ).AgreesOn I fun s' => s' ≠ s :=
  ⟨rfl, fun _ h => ⟨Function.update_of_ne h .., Function.update_of_ne h ..⟩⟩

theorem reads_withFunction : (I.withFunction s φ).Reads s := by
  intro ds
  simp [withFunction]

/-- The other names are read as they were. -/
theorem Reads.withFunction {s' : String} (h : I.Reads s') : (I.withFunction s φ).Reads s' := by
  by_cases hs : s' = s
  · rw [hs]
    exact reads_withFunction
  · intro ds
    obtain ⟨htruth, hnames⟩ := withFunction_agreesOn (I := I) (s := s) (φ := φ)
    rw [(hnames s' hs).1, (hnames s' hs).2, htruth]
    exact h ds

end Interpretation

namespace Formula

variable {I J : Interpretation D} {Z : String → Prop}

/-! ### Terms in the place of variables -/

/-- A term that does not depend on certain variables may be put for one of the variables that the
witnesses may depend on. -/
theorem UniformWitness.subst {x y : String} {t : Term} {f : Formula} {Z' : String → Prop}
    (h : UniformWitness I Z y f) (hxy : x ≠ y) (hZ : ∀ z, Z' z → Z z ∨ z = x)
    (ht : ∀ z ∈ t.vars, ¬ Z' z ∧ z ≠ y)
    (hholds : ∀ e, (f.subst x t).Holds J e ↔ f.Holds I (Function.update e x (t.value J e))) :
    UniformWitness J Z' y (f.subst x t) := by
  obtain ⟨w, hw, hspec⟩ := h
  -- the choice for `f` where `x` has the value of the term
  refine ⟨fun e => w (Function.update e x (t.value J e)), fun e e' he => hw _ _ ?_, fun e hex => ?_⟩
  · intro z hz
    by_cases hzx : z = x
    · rw [hzx, Function.update_self, Function.update_self]
      exact t.value_congr fun v hv => he v (ht v hv).1
    · rw [Function.update_of_ne hzx, Function.update_of_ne hzx]
      exact he z fun hz' => (hZ z hz').elim hz hzx
  · -- the term does not have `y`, so the order of the two updates does not matter
    have hvalue (d : D) : t.value J (Function.update e y d) = t.value J e :=
      t.value_congr fun v hv => Function.update_of_ne (ht v hv).2 d e
    obtain ⟨d, hd⟩ := hex
    rw [hholds, hvalue, Function.update_comm hxy.symm] at hd
    rw [hholds, hvalue, Function.update_comm hxy.symm]
    exact hspec _ ⟨d, hd⟩

/-- Putting a term into the matrix, with a meaning for its name that the matrix does not know. -/
theorem holds_subst_quantify {bs : List Binder} {f : Formula} {x : String} {t : Term}
    (hf : f.boundNames = []) (ht : ∀ z ∈ t.vars, z ∉ bs.map Binder.name)
    (hreads : ∀ s ∈ t.symbols, J.Reads s) (hagree : J.AgreesOn I (· ∈ f.symbols))
    (hx : x ∉ bs.map Binder.name) (e : String → D) :
    ((f.subst x t).quantify bs).Holds J e ↔
      (f.quantify bs).Holds I (Function.update e x (t.value J e)) := by
  have hbound : ∀ z ∈ t.vars, z ∉ (f.quantify bs).boundNames := by
    rw [boundNames_quantify, hf, List.append_nil]
    exact ht
  have houter : ∀ s args, t = .app s args → J.Reads s := by
    rintro s args rfl
    exact hreads s (by simp [Term.symbols])
  rw [← subst_quantify hx, holds_subst houter hbound]
  refine holds_congr_symbols ?_ _
  rwa [symbols_quantify]

theorem UniformPrefix.subst {bs : List Binder} {f : Formula} {x : String} {t : Term}
    {Z' : String → Prop} (h : UniformPrefix I Z bs f) (hf : f.boundNames = [])
    (hx : x ∉ bs.map Binder.name) (hZ : ∀ z, Z' z → Z z ∨ z = x)
    (ht : ∀ z ∈ t.vars, ¬ Z' z ∧ z ∉ bs.map Binder.name) (hreads : ∀ s ∈ t.symbols, J.Reads s)
    (hagree : J.AgreesOn I (· ∈ f.symbols)) : UniformPrefix J Z' bs (f.subst x t) := by
  induction bs with
  | nil => trivial
  | cons b bs ih =>
    simp only [List.map_cons, List.mem_cons, not_or] at hx ht
    obtain ⟨hhead, htail⟩ := h
    refine ⟨fun hb => ?_, ih htail hx.2 fun z hz => ⟨(ht z hz).1, (ht z hz).2.2⟩⟩
    have hholds := holds_subst_quantify hf (fun z hz => (ht z hz).2.2) hreads hagree hx.2
    rw [← subst_quantify hx.2] at hholds ⊢
    exact (hhead hb).subst hx.1 hZ (fun z hz => ⟨(ht z hz).1, (ht z hz).2.1⟩) hholds

/-! ### There and back -/

section Fresh

variable {names : SkolemNames} {us : List String} {bs : List Binder} {x : String} {f : Formula}
  {φ : List D → D}

theorem reads_fresh (I : Interpretation D) (φ : List D → D) :
    ∀ s ∈ (names.fresh us).1.symbols, (I.withFunction (names.freshSymbol us) φ).Reads s := by
  rw [SkolemNames.symbols_fresh, List.forall_mem_singleton]
  exact Interpretation.reads_withFunction

/-- A new meaning for a name that is still to be given does not matter to a formula that has no such
name. -/
theorem agreesOn_symbols_of_ahead (h : ∀ s ∈ f.symbols, ¬ names.Ahead s) :
    (I.withFunction (names.freshSymbol us) φ).AgreesOn I (· ∈ f.symbols) := by
  refine Interpretation.withFunction_agreesOn.mono fun s hs heq => h s hs ?_
  rw [heq]
  exact names.ahead_freshSymbol us

/-- A term that was put into a formula has the one name that is no longer to be given. -/
theorem not_ahead_subst_fresh (h : ∀ s ∈ f.symbols, ¬ names.Ahead s) :
    ∀ s ∈ (f.subst x (names.fresh us).1).symbols, ¬ (names.fresh us).2.Ahead s := by
  intro s hs hahead
  obtain ⟨hahead, hne⟩ := SkolemNames.ahead_fresh_snd hahead
  rcases mem_symbols_subst hs with hs | hs
  · exact h s hs hahead
  · rw [SkolemNames.symbols_fresh, List.mem_singleton] at hs
    exact hne hs

/-- One existential quantifier: the choice of a witness becomes the meaning of the name. -/
theorem exists_holds_subst_fresh {e : String → D} (hf : f.boundNames = [])
    (hx : x ∉ bs.map Binder.name) (hus : ∀ z ∈ us, ¬ Z z ∧ z ≠ x ∧ z ∉ bs.map Binder.name)
    (hsymbols : ∀ s ∈ f.symbols, ¬ names.Ahead s) (hw : UniformWitness I Z x (f.quantify bs))
    (h : ∀ e', AgreeOff (fun z => Z z ∨ z ∈ us) e' e →
      (quant .existential x (f.quantify bs)).Holds I e') :
    ∃ φ : List D → D, ∀ e', AgreeOff (fun z => (Z z ∨ z = x) ∨ z ∈ us) e' e →
      ((f.subst x (names.fresh us).1).quantify bs).Holds
        (I.withFunction (names.freshSymbol us) φ) e' := by
  obtain ⟨w, hwunif, hwspec⟩ := hw
  obtain ⟨φ, hφ⟩ := exists_function_of_uniform hwunif us e
  refine ⟨φ, fun e' he' => ?_⟩
  -- the premise speaks of assignments with the given value at `x`
  have hback : AgreeOff (fun z => Z z ∨ z ∈ us) (Function.update e' x (e x)) e :=
    AgreeOff.put_back (he'.mono fun z hz => or_right_comm.mp hz)
  have hspec := hwspec _ (h _ hback)
  rw [Function.update_idem] at hspec
  -- the term has the value of the witness, as no universal variable above is `x`
  have hvalue : (names.fresh us).1.value (I.withFunction (names.freshSymbol us) φ) e' =
      w (Function.update e' x (e x)) := by
    rw [← hφ _ hback, SkolemNames.fresh_fst, Term.value, Term.values_map_var,
      Interpretation.function_withFunction]
    refine congrArg φ (List.map_inj_left.mpr fun z hz => ?_)
    rw [Function.update_of_ne (hus z hz).2.1]
  rwa [holds_subst_quantify hf (by rw [SkolemNames.vars_fresh]; exact fun z hz => (hus z hz).2.2)
    (reads_fresh I φ) (agreesOn_symbols_of_ahead hsymbols) hx, hvalue]

end Fresh

/-- Where witnesses can be chosen uniformly, the names of the terms can be given a meaning that
makes the matrix true, whatever the values of the variables that were bound or are not fixed. -/
theorem exists_holds_instantiate (names : SkolemNames) (us : List String) {bs : List Binder}
    {f : Formula} {e : String → D} (hf : f.boundNames = []) (hbs : (bs.map Binder.name).Nodup)
    (hbsZ : ∀ x ∈ bs.map Binder.name, ¬ Z x) (hus : ∀ x ∈ us, ¬ Z x ∧ x ∉ bs.map Binder.name)
    (hsymbols : ∀ s ∈ f.symbols, ¬ names.Ahead s) (hwitness : UniformPrefix I Z bs f)
    (h : ∀ e', AgreeOff (fun z => Z z ∨ z ∈ us) e' e → (f.quantify bs).Holds I e') :
    ∃ J : Interpretation D, J.AgreesOn I (fun s => ¬ names.Ahead s) ∧
      (∀ s, I.Reads s → J.Reads s) ∧
      ∀ e', AgreeOff (fun z => Z z ∨ z ∈ us ∨ z ∈ bs.map Binder.name) e' e →
        (f.instantiate (skolemTerms names us bs)).Holds J e' := by
  -- Induction on the prefix; a variable that was bound is no longer fixed.
  induction bs generalizing names us f I Z with
  | nil =>
    refine ⟨I, ⟨rfl, fun _ _ => ⟨rfl, rfl⟩⟩, fun _ hs => hs, fun e' he' => h e' ?_⟩
    exact he'.mono (by simp)
  | cons b bs ih =>
    obtain ⟨q, x⟩ := b
    simp only [List.map_cons, List.nodup_cons, List.mem_cons, forall_eq_or_imp, not_or]
      at hbs hbsZ hus
    cases q with
    | universal =>
      -- the terms below depend on `x` as well
      have hall (e' : String → D) (he' : AgreeOff (fun z => Z z ∨ z ∈ us ++ [x]) e' e) :
          (f.quantify bs).Holds I e' := by
        have hback : AgreeOff (fun z => Z z ∨ z ∈ us) (Function.update e' x (e x)) e :=
          AgreeOff.put_back (he'.mono fun z hz => by simpa [or_assoc] using hz)
        have hx : (f.quantify bs).Holds I
            (Function.update (Function.update e' x (e x)) x (e' x)) := h _ hback (e' x)
        rwa [Function.update_idem, Function.update_eq_self] at hx
      have hus' : ∀ z ∈ us ++ [x], ¬ Z z ∧ z ∉ bs.map Binder.name := by
        rw [List.forall_mem_append, List.forall_mem_singleton]
        exact ⟨fun z hz => ⟨(hus z hz).1, (hus z hz).2.2⟩, hbsZ.1, hbs.1⟩
      obtain ⟨J, hJ, hreads, hholds⟩ := ih _ _ hf hbs.2 hbsZ.2 hus' hsymbols hwitness.2 hall
      refine ⟨J, hJ, hreads, fun e' he' => hholds e' (he'.mono fun z hz => ?_)⟩
      simpa [or_assoc] using hz
    | existential =>
      obtain ⟨hw, hrest⟩ := hwitness
      obtain ⟨φ, hall⟩ := exists_holds_subst_fresh hf hbs.1 hus hsymbols (hw rfl) h
      -- the value of `x` matters no longer, so the prefix below must not depend on it
      have hus' : ∀ z ∈ us, ¬ (Z z ∨ z = x) ∧ z ∉ bs.map Binder.name := fun z hz =>
        ⟨not_or.mpr ⟨(hus z hz).1, (hus z hz).2.1⟩, (hus z hz).2.2⟩
      have hbsZ' : ∀ z ∈ bs.map Binder.name, ¬ (Z z ∨ z = x) := fun z hz =>
        not_or.mpr ⟨hbsZ.2 z hz, fun hzx => hbs.1 (hzx ▸ hz)⟩
      have hrest' : UniformPrefix (I.withFunction (names.freshSymbol us) φ)
          (fun z => Z z ∨ z = x) bs (f.subst x (names.fresh us).1) :=
        hrest.subst hf hbs.1 (fun _ hz => hz) (by rw [SkolemNames.vars_fresh]; exact hus')
          (reads_fresh I φ) (agreesOn_symbols_of_ahead hsymbols)
      obtain ⟨J, hJ, hreads, hholds⟩ := ih _ _ (by rw [boundNames_subst, hf]) hbs.2 hbsZ' hus'
        (not_ahead_subst_fresh hsymbols) hrest' hall
      refine ⟨J, ?_, fun s hs => hreads s hs.withFunction, fun e' he' => ?_⟩
      · have hJ' : J.AgreesOn (I.withFunction (names.freshSymbol us) φ) fun s => ¬ names.Ahead s :=
          hJ.mono fun s hs hahead => hs (SkolemNames.ahead_fresh_snd hahead).1
        refine hJ'.trans (Interpretation.withFunction_agreesOn.mono fun s hs heq => hs ?_)
        rw [heq]
        exact names.ahead_freshSymbol us
      · refine hholds e' (he'.mono fun z hz => ?_)
        simp only [List.map_cons, List.mem_cons] at hz
        rcases hz with hz | hz | hz | hz
        · exact .inl (.inl hz)
        · exact .inr (.inl hz)
        · exact .inl (.inr hz)
        · exact .inr (.inr hz)

/-- Where the matrix with its terms is true whatever the values of the universal variables, the
formula is true: the values of the terms are witnesses. -/
theorem holds_quantify_of_instantiate (names : SkolemNames) (us : List String) {bs : List Binder}
    {f : Formula} {e : String → D} (hf : f.boundNames = []) (hbs : (bs.map Binder.name).Nodup)
    (hus : ∀ x ∈ us, x ∉ bs.map Binder.name) (hreads : ∀ s, names.Ahead s → I.Reads s)
    (h : ∀ e', AgreeOff (fun z => ⟨.universal, z⟩ ∈ bs) e' e →
      (f.instantiate (skolemTerms names us bs)).Holds I e') :
    (f.quantify bs).Holds I e := by
  induction bs generalizing names us f e with
  | nil => exact h e fun _ _ => rfl
  | cons b bs ih =>
    obtain ⟨q, x⟩ := b
    simp only [List.map_cons, List.nodup_cons, List.mem_cons, not_or] at hbs hus
    cases q with
    | universal =>
      -- the matrix is true whatever the value of `x`, `d` among them
      intro d
      have hus' : ∀ z ∈ us ++ [x], z ∉ bs.map Binder.name := by
        rw [List.forall_mem_append, List.forall_mem_singleton]
        exact ⟨fun z hz => (hus z hz).2, hbs.1⟩
      refine ih _ _ hf hbs.2 hus' hreads fun e' he' => h e' fun z hz => ?_
      simp only [List.mem_cons, Binder.mk.injEq, true_and, not_or] at hz
      rw [he' z hz.2, Function.update_of_ne hz.1]
    | existential =>
      -- the value of the term is the witness
      have hreads' : ∀ s ∈ (names.fresh us).1.symbols, I.Reads s := by
        rw [SkolemNames.symbols_fresh, List.forall_mem_singleton]
        exact hreads _ (names.ahead_freshSymbol us)
      refine ⟨(names.fresh us).1.value I e, ?_⟩
      show (f.quantify bs).Holds I (Function.update e x ((names.fresh us).1.value I e))
      rw [← holds_subst_quantify hf (by rw [SkolemNames.vars_fresh]; exact fun z hz => (hus z hz).2)
        hreads' ⟨rfl, fun _ _ => ⟨rfl, rfl⟩⟩ hbs.1]
      refine ih _ _ (by rw [boundNames_subst, hf]) hbs.2 (fun z hz => (hus z hz).2)
        (fun s hs => hreads s (SkolemNames.ahead_fresh_snd hs).1) fun e' he' => h e' ?_
      exact he'.mono fun z hz => List.mem_cons_of_mem _ hz

end Formula

end ClausalForm
