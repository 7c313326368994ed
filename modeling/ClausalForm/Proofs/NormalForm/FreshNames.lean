import ClausalForm.Proofs.NormalForm.Apart
import ClausalForm.Proofs.NormalForm.Skolem
import Mathlib.Data.List.Nodup
import Mathlib.Data.List.Perm.Subperm
import Mathlib.Order.Bounds.Basic

/-!
# The choice of fresh names

Binders are named in pre-order. A binder keeps its name unless this is free in the formula or bound
by a binder before it; otherwise the least number is appended that makes a name not found anywhere
in the formula and not given to a binder before. As different numbers make different names, only so
many of them can be taken, and with enough of them to try there is a name for every binder.

## Main definitions

* `Formula.NamedAfter`: the rule for the name of one binder, given the names of those before it
* `Formula.IsNaming`: names for the first binders of a formula, each of them by the rule
* `Formula.IsStuck`: a naming of all binders before one for which there is no name
* `namesFor`: the names for a list of binders, as the renaming finds them

## Main results

* `map_boundNames_standardizeWithin`: what the renaming does with names depends on the binders only
* `IsNaming.eq_take`, `IsStuck.unique`: the rule leaves no choice
* `IsStuck.suffix_lt`: a binder without a name takes as many names as there are numbers
* `isNaming_standardize`: the names of a whole formula, and when there are none
-/

namespace ClausalForm

/-- The names for binders of `xs`, one after the other, and the names in use after them. -/
def namesFor (reserved : Names) (maxSuffix : Nat) :
    (used : Names) → (xs : List String) → Except PassError (List String × Names)
  | used, [] => .ok ([], used)
  | used, x :: xs =>
    match freshName reserved used maxSuffix x with
    | none => .error (.namesExhausted x maxSuffix)
    | some y => do
      let (ys, used) ← namesFor reserved maxSuffix (used.insert y) xs
      return (y :: ys, used)

theorem namesFor_append (reserved : Names) (maxSuffix : Nat) (used : Names) (xs ys : List String) :
    namesFor reserved maxSuffix used (xs ++ ys) =
      namesFor reserved maxSuffix used xs >>= fun p =>
        (namesFor reserved maxSuffix p.2 ys).map fun q => (p.1 ++ q.1, q.2) := by
  induction xs generalizing used with
  | nil =>
    show namesFor reserved maxSuffix used ys = (namesFor reserved maxSuffix used ys).map _
    cases namesFor reserved maxSuffix used ys <;> rfl
  | cons x xs ih =>
    rw [List.cons_append, namesFor, namesFor]
    cases freshName reserved used maxSuffix x with
    | none => rfl
    | some y =>
      dsimp only
      rw [ih]
      cases namesFor reserved maxSuffix (used.insert y) xs with
      | error e => rfl
      | ok p =>
        show (namesFor reserved maxSuffix p.2 ys).map _ >>= _ =
          (namesFor reserved maxSuffix p.2 ys).map _
        cases namesFor reserved maxSuffix p.2 ys <;> rfl

/-- Names that differ from each other and are not used are kept. -/
theorem namesFor_of_nodup {reserved used : Names} {maxSuffix : Nat} {xs : List String}
    (hnodup : xs.Nodup) (hnew : ∀ x ∈ xs, x ∉ used) :
    ∃ used', namesFor reserved maxSuffix used xs = .ok (xs, used') := by
  induction xs generalizing used with
  | nil => exact ⟨used, rfl⟩
  | cons x xs ih =>
    rw [List.nodup_cons] at hnodup
    rw [List.forall_mem_cons] at hnew
    have hfresh : freshName reserved used maxSuffix x = some x := if_pos hnew.1
    have hnew' : ∀ y ∈ xs, y ∉ used.insert x := by
      intro y hy hmem
      rcases Names.mem_insert.mp hmem with rfl | hmem
      · exact hnodup.1 hy
      · exact hnew.2 y hy hmem
    obtain ⟨used', hxs⟩ := ih hnodup.2 hnew'
    refine ⟨used', ?_⟩
    simp only [namesFor, hfresh, hxs]
    rfl

namespace Formula

variable {limits : Limits} {reserved used : Names} {n : Nat} {f : Formula}

/-- With levels enough for the body, a binder that is named `y` takes this name into the body,
whether it is a new one or not. -/
theorem result_standardizeWithin_quant {q : Quantifier} {x y : String}
    (hy : freshName reserved used limits.suffix x = some y) (hheight : f.height ≤ n) :
    (standardizeWithin limits reserved (n + 1) used (quant q x f)).result =
      (standardizeWithin limits reserved n (used.insert y) (f.subst x (.var y))).result >>=
        fun p => .ok (quant q y p.1, p.2) := by
  have hsubst : f.substitute limits.depth x (.var y) n = .ok (f.subst x (.var y)) := by
    rw [substitute_eq, withLevels_eq_ok_iff]
    exact ⟨Nat.le_trans (substLevels_le_height x f) hheight, rfl⟩
  simp only [standardizeWithin, hy]
  split
  · rename_i hyx
    rw [hyx, subst_self]
    simp only [Journal.result_bind, Journal.result_pure]
    rfl
  · simp only [Journal.result_bind, Journal.result_report, Journal.result_ofExcept, hsubst]
    rfl

/-- With levels enough, the renaming finds the names for the binders in pre-order, and fails where
one of them has none. A new name put into a body changes no binder there. -/
theorem map_boundNames_standardizeWithin (hheight : f.height ≤ n) :
    (standardizeWithin limits reserved n used f).result.map (fun p => (p.1.boundNames, p.2)) =
      namesFor reserved limits.suffix used f.boundNames := by
  induction n generalizing used f with
  | zero =>
    cases f with
    | prop | var => rfl
    | neg | binary | quant => cases hheight
  | succ n ih =>
    cases f with
    | prop | var => rfl
    | neg f =>
      rw [boundNames_neg, ← ih (Nat.le_of_succ_le_succ hheight)]
      simp only [standardizeWithin, Journal.result_bind]
      cases (standardizeWithin limits reserved n used f).result <;> rfl
    | binary op l r =>
      obtain ⟨hl, hr⟩ := Nat.max_le.mp (Nat.le_of_succ_le_succ hheight)
      rw [boundNames_binary, namesFor_append, ← ih hl]
      simp only [standardizeWithin, Journal.result_bind]
      cases (standardizeWithin limits reserved n used l).result with
      | error e => rfl
      | ok p =>
        show Except.map _ ((standardizeWithin limits reserved n p.2 r).result >>= _) =
          Except.map _ (namesFor reserved limits.suffix p.2 r.boundNames)
        rw [← ih hr]
        cases (standardizeWithin limits reserved n p.2 r).result with
        | error e => rfl
        | ok p' =>
          show Except.ok ((binary op p.1 p'.1).boundNames, p'.2) = _
          rw [boundNames_binary]
          rfl
    | quant q x f =>
      have hf : f.height ≤ n := Nat.le_of_succ_le_succ hheight
      rw [boundNames_quant, namesFor]
      cases hy : freshName reserved used limits.suffix x with
      | none =>
        simp only [standardizeWithin, hy]
        rfl
      | some y =>
        have hrest : (f.subst x (.var y)).height ≤ n := by rwa [height_subst]
        have hnames : (standardizeWithin limits reserved n (used.insert y)
            (f.subst x (.var y))).result.map (fun p => (p.1.boundNames, p.2)) =
              namesFor reserved limits.suffix (used.insert y) f.boundNames := by
          rw [ih hrest, boundNames_subst]
        dsimp only
        rw [result_standardizeWithin_quant hy hf, ← hnames]
        cases (standardizeWithin limits reserved n (used.insert y)
          (f.subst x (.var y))).result <;> rfl

/-! ### The rule -/

/-- The binder number `i` of the formula, which binds `x`, may not keep its name. -/
def MustRename (f : Formula) (i : Nat) (x : String) : Prop :=
  x ∈ f.free ∨ x ∈ f.boundNames.take i

/-- The name is not found in the formula and has not been given. -/
def Available (f : Formula) (given : List String) (y : String) : Prop :=
  y ∉ f.variableNames ∧ y ∉ given

/-- The name of a binder of `x` by the rule, where the binders before it have the names `given`. -/
inductive NamedAfter (f : Formula) (maxSuffix : Nat) (given : List String) (x : String) :
    String → Prop
  /-- The binder keeps its name. -/
  | kept : ¬ f.MustRename given.length x → NamedAfter f maxSuffix given x x
  /-- The binder gets the first numbered name that is available. -/
  | numbered {k : Nat} : f.MustRename given.length x →
    IsLeast {k | 1 ≤ k ∧ f.Available given (x ++ toString k)} k → k ≤ maxSuffix →
      NamedAfter f maxSuffix given x (x ++ toString k)

/-- Names for the first binders of the formula, each by the rule from those before it. -/
structure IsNaming (f : Formula) (maxSuffix : Nat) (names : List String) : Prop where
  length_le : names.length ≤ f.boundNames.length
  named : ∀ i x y, f.boundNames[i]? = some x → names[i]? = some y →
    f.NamedAfter maxSuffix (names.take i) x y

/-- The binders before one of `x` have the names `given`, and every name for this one is taken. -/
structure IsStuck (f : Formula) (maxSuffix : Nat) (given : List String) (x : String) : Prop where
  naming : f.IsNaming maxSuffix given
  bound : f.boundNames[given.length]? = some x
  mustRename : f.MustRename given.length x
  taken : ∀ k, 1 ≤ k → k ≤ maxSuffix → ¬ f.Available given (x ++ toString k)

section Rule

variable {maxSuffix : Nat} {given names names' : List String} {x x' y y' : String}

theorem NamedAfter.unique (h : f.NamedAfter maxSuffix given x y)
    (h' : f.NamedAfter maxSuffix given x y') : y = y' := by
  cases h with
  | kept hkeep =>
    cases h' with
    | kept => rfl
    | numbered hrename => exact absurd hrename hkeep
  | numbered hrename hleast =>
    cases h' with
    | kept hkeep => exact absurd hrename hkeep
    | numbered _ hleast' => rw [hleast.unique hleast']

theorem IsNaming.nil (f : Formula) (maxSuffix : Nat) : f.IsNaming maxSuffix [] where
  length_le := Nat.zero_le _
  named _ _ _ _ hy := by cases hy

theorem IsNaming.snoc (h : f.IsNaming maxSuffix given) (hx : f.boundNames[given.length]? = some x)
    (hy : f.NamedAfter maxSuffix given x y) : f.IsNaming maxSuffix (given ++ [y]) where
  length_le := by
    obtain ⟨hlt, -⟩ := List.getElem?_eq_some_iff.mp hx
    rw [List.length_append]
    exact hlt
  named i x' y' hx' hy' := by
    rcases Nat.lt_trichotomy i given.length with hi | hi | hi
    · rw [List.getElem?_append_left hi] at hy'
      rw [List.take_append_of_le_length (Nat.le_of_lt hi)]
      exact h.named i x' y' hx' hy'
    · subst hi
      rw [List.getElem?_concat_length] at hy'
      rw [List.take_left]
      cases hx.symm.trans hx'
      cases hy'
      exact hy
    · rw [List.getElem?_eq_none (by simpa [Nat.succ_le_iff] using hi)] at hy'
      cases hy'

/-- The rule leaves no choice. -/
theorem IsNaming.eq_take (h : f.IsNaming maxSuffix names) (h' : f.IsNaming maxSuffix names')
    (hle : names.length ≤ names'.length) : names = names'.take names.length := by
  have hprefix (i : Nat) (hi : i ≤ names.length) : names.take i = names'.take i := by
    induction i with
    | zero => rfl
    | succ i ih =>
      have hi' : i < names'.length := Nat.lt_of_lt_of_le hi hle
      have hbound : i < f.boundNames.length := Nat.lt_of_lt_of_le hi h.length_le
      have hbefore := ih (Nat.le_of_lt hi)
      have hname := h.named i _ _ (List.getElem?_eq_getElem hbound) (List.getElem?_eq_getElem hi)
      have hname' := h'.named i _ _ (List.getElem?_eq_getElem hbound) (List.getElem?_eq_getElem hi')
      rw [← hbefore] at hname'
      rw [← List.take_append_getElem hi, ← List.take_append_getElem hi', hbefore,
        hname.unique hname']
  have hall := hprefix names.length (Nat.le_refl _)
  rwa [List.take_length] at hall

/-- Of the names found in the formula, those in use are the ones that may not be kept. -/
theorem IsNaming.mem_iff (h : f.IsNaming maxSuffix given) (hx : x ∈ f.variableNames) :
    x ∈ f.free ∨ x ∈ given ↔ f.MustRename given.length x := by
  constructor
  · rintro (hfree | hgiven)
    · exact .inl hfree
    · -- a binder that was given this name has kept it, as numbered names are found nowhere
      obtain ⟨i, hi⟩ := List.mem_iff_getElem?.mp hgiven
      obtain ⟨hlt, -⟩ := List.getElem?_eq_some_iff.mp hi
      have hbound : i < f.boundNames.length := Nat.lt_of_lt_of_le hlt h.length_le
      have hname := h.named i _ _ (List.getElem?_eq_getElem hbound) hi
      cases hname with
      | kept => exact .inr (List.mem_take_iff_getElem.mpr ⟨i, by omega, rfl⟩)
      | numbered _ hleast => exact absurd hx hleast.1.2.1
  · rintro (hfree | hbefore)
    · exact .inl hfree
    · by_cases hfree : x ∈ f.free
      · exact .inl hfree
      · -- the first binder of this name has kept it
        have hmem := List.mem_of_mem_take hbefore
        have hfirst : f.boundNames.idxOf x < given.length :=
          (List.mem_take_iff_idxOf_lt hmem).mp hbefore
        have hname := h.named _ _ _ (List.getElem?_idxOf hmem) (List.getElem?_eq_getElem hfirst)
        have hkeep : ¬ f.MustRename (given.take (f.boundNames.idxOf x)).length x := by
          rw [List.length_take_of_le (Nat.le_of_lt hfirst)]
          rintro (hfree' | hbefore')
          · exact hfree hfree'
          · exact absurd ((List.mem_take_iff_idxOf_lt hmem).mp hbefore') (Nat.lt_irrefl _)
        have hsame := hname.unique (.kept hkeep)
        exact .inr (hsame ▸ List.getElem_mem hfirst)

/-- No naming goes past a binder for which there is no name. -/
theorem IsStuck.length_le (h : f.IsStuck maxSuffix given x) (h' : f.IsNaming maxSuffix names) :
    names.length ≤ given.length := by
  by_contra hlt
  rw [Nat.not_le] at hlt
  have hname := h'.named _ _ _ h.bound (List.getElem?_eq_getElem hlt)
  rw [← h.naming.eq_take h' (Nat.le_of_lt hlt)] at hname
  generalize names[given.length] = y at hname
  cases hname with
  | kept hkeep => exact hkeep h.mustRename
  | numbered _ hleast hk => exact h.taken _ hleast.1.1 hk hleast.1.2

theorem IsStuck.unique (h : f.IsStuck maxSuffix given x) (h' : f.IsStuck maxSuffix names x') :
    x = x' := by
  have hlength : given.length = names.length :=
    Nat.le_antisymm (h'.length_le h.naming) (h.length_le h'.naming)
  have hx := h.bound
  rw [hlength, h'.bound] at hx
  exact (Option.some.inj hx).symm

/-- Different numbers make different names, so a binder without a name finds as many names taken as
there are numbers to try: names found in the formula, or given to one of the binders before. -/
theorem IsStuck.suffix_lt (h : f.IsStuck maxSuffix given x) :
    maxSuffix < f.variableNames.eraseDups.length + f.binders.length := by
  have hinj : Function.Injective fun k : Nat => x ++ toString k := by
    intro j k hjk
    exact toString_nat_inj ((String.append_right_inj _).mp hjk)
  have hnodup : ((List.range' 1 maxSuffix).map fun k => x ++ toString k).Nodup :=
    (List.nodup_range' 1).map hinj
  have hsubset : ((List.range' 1 maxSuffix).map fun k => x ++ toString k) ⊆
      f.variableNames.eraseDups ++ given := by
    intro y hy
    obtain ⟨k, hk, rfl⟩ := List.mem_map.mp hy
    obtain ⟨hpos, hlt⟩ := List.mem_range'_1.mp hk
    have htaken := h.taken k hpos (by omega)
    rw [Available, not_and_or, not_not, not_not] at htaken
    rwa [List.mem_append, List.mem_eraseDups]
  have hlength := (hnodup.subperm hsubset).length_le
  rw [List.length_map, List.length_range', List.length_append] at hlength
  obtain ⟨hbound, -⟩ := List.getElem?_eq_some_iff.mp h.bound
  rw [boundNames, List.length_map] at hbound
  omega

end Rule

/-! ### The names that are found -/

/-- The names in use are those that are free in the formula and those that have been given, and the
names found in the formula are reserved. -/
structure Tracks (f : Formula) (given : List String) (reserved used : Names) : Prop where
  mem_reserved : ∀ x, x ∈ reserved ↔ x ∈ f.variableNames
  mem_used : ∀ x, x ∈ used ↔ x ∈ f.free ∨ x ∈ given

namespace Tracks

variable {given : List String} {maxSuffix : Nat} {x y : String}

theorem insert (h : f.Tracks given reserved used) (y : String) :
    f.Tracks (given ++ [y]) reserved (used.insert y) where
  mem_reserved := h.mem_reserved
  mem_used z := by
    rw [Names.mem_insert, h.mem_used, List.mem_append, List.mem_singleton, or_comm, or_assoc]

theorem freeNumbers_eq (h : f.Tracks given reserved used) (x : String) :
    freeNumbers reserved used x = {k | 1 ≤ k ∧ f.Available given (x ++ toString k)} := by
  ext k
  rw [freeNumbers, Set.mem_ofPred_eq, Set.mem_ofPred_eq, h.mem_reserved, h.mem_used, Available,
    not_or]
  -- a name that is not found in the formula is not free in it
  refine and_congr_right fun _ => and_congr_right fun hnew => and_iff_right ?_
  exact fun hfree => hnew (mem_variableNames.mpr (.inl hfree))

/-- The name of the next binder is in use if the binder must be renamed. -/
theorem mem_used_iff (h : f.Tracks given reserved used) (hgiven : f.IsNaming maxSuffix given)
    (hx : f.boundNames[given.length]? = some x) : x ∈ used ↔ f.MustRename given.length x := by
  rw [h.mem_used]
  exact hgiven.mem_iff (mem_variableNames.mpr (.inr (List.mem_of_getElem? hx)))

/-- The name that is found for a binder is the one by the rule. -/
theorem namedAfter (h : f.Tracks given reserved used) (hgiven : f.IsNaming maxSuffix given)
    (hx : f.boundNames[given.length]? = some x)
    (hy : freshName reserved used maxSuffix x = some y) : f.NamedAfter maxSuffix given x y := by
  rw [freshName_eq_some_iff, h.mem_used_iff hgiven hx, h.freeNumbers_eq] at hy
  rcases hy with ⟨hkeep, rfl⟩ | ⟨hrename, k, hk, hleast, rfl⟩
  · exact .kept hkeep
  · exact .numbered hrename hleast hk

/-- Where no name is found there is none by the rule. -/
theorem isStuck (h : f.Tracks given reserved used) (hgiven : f.IsNaming maxSuffix given)
    (hx : f.boundNames[given.length]? = some x)
    (hnone : freshName reserved used maxSuffix x = none) : f.IsStuck maxSuffix given x := by
  rw [freshName_eq_none_iff, h.mem_used_iff hgiven hx, h.freeNumbers_eq] at hnone
  exact ⟨hgiven, hx, hnone.1, fun k hpos hk hfree => hnone.2 k hk ⟨hpos, hfree⟩⟩

/-- The names that are found for the binders left over continue the naming of those before, and the
search fails only where there is no name. -/
theorem namesFor_spec (h : f.Tracks given reserved used) (hgiven : f.IsNaming maxSuffix given)
    {xs : List String} (hxs : f.boundNames.drop given.length = xs) :
    (∀ ys used', namesFor reserved maxSuffix used xs = .ok (ys, used') →
        f.IsNaming maxSuffix (given ++ ys) ∧ ys.length = xs.length) ∧
      ∀ e, namesFor reserved maxSuffix used xs = .error e →
        ∃ given' x, f.IsStuck maxSuffix given' x ∧ e = .namesExhausted x maxSuffix := by
  induction xs generalizing given used with
  | nil =>
    refine ⟨fun ys used' hys => ?_, nofun⟩
    cases hys
    rw [List.append_nil]
    exact ⟨hgiven, rfl⟩
  | cons x xs ih =>
    have hx : f.boundNames[given.length]? = some x := by
      rw [← List.head?_drop, hxs]
      rfl
    rw [namesFor]
    cases hy : freshName reserved used maxSuffix x with
    | none =>
      refine ⟨nofun, fun e he => ?_⟩
      cases he
      exact ⟨given, x, h.isStuck hgiven hx hy, rfl⟩
    | some y =>
      have hrest : f.boundNames.drop (given ++ [y]).length = xs := by
        rw [List.length_append, List.length_singleton, ← List.tail_drop, hxs, List.tail_cons]
      obtain ⟨hok, herror⟩ := ih (h.insert y) (hgiven.snoc hx (h.namedAfter hgiven hx hy)) hrest
      constructor
      · intro ys used' hys
        obtain ⟨⟨zs, used₁⟩, hzs, hys⟩ := bind_eq_ok_iff.mp hys
        cases hys
        obtain ⟨hnaming, hlength⟩ := hok zs used' hzs
        rw [List.append_assoc, List.singleton_append] at hnaming
        exact ⟨hnaming, congrArg (· + 1) hlength⟩
      · intro e he
        refine herror e ?_
        dsimp only at he
        cases hzs : namesFor reserved maxSuffix (used.insert y) xs with
        | ok p =>
          rw [hzs] at he
          cases he
        | error e' =>
          rw [hzs] at he
          exact he

end Tracks

/-! ### The whole formula -/

/-- What standardizing apart does with names depends on the binders only. -/
theorem map_boundNames_standardize (hheight : f.height ≤ limits.depth) :
    (f.standardize limits).result.map boundNames =
      (namesFor (.ofList f.variableNames) limits.suffix (.ofList f.free.eraseDups) f.boundNames).map
        Prod.fst := by
  rw [← map_boundNames_standardizeWithin hheight]
  simp only [standardize, freeVariables_eq, withLevels, if_pos hheight, Journal.result_bind,
    Journal.result_ofExcept]
  show ((standardizeWithin ..).result >>= _).map _ = _
  cases (standardizeWithin limits (.ofList f.variableNames) limits.depth (.ofList f.free.eraseDups)
    f).result <;> rfl

theorem tracks_nil (f : Formula) :
    f.Tracks [] (.ofList f.variableNames) (.ofList f.free.eraseDups) where
  mem_reserved _ := Names.mem_ofList
  mem_used x := by
    rw [Names.mem_ofList, List.mem_eraseDups]
    exact (or_iff_left List.not_mem_nil).symm

theorem isNaming_of_standardize (hheight : f.height ≤ limits.depth) {g : Formula}
    (hg : (f.standardize limits).result = .ok g) :
    f.IsNaming limits.suffix g.boundNames ∧ g.boundNames.length = f.boundNames.length := by
  have hnames := map_boundNames_standardize hheight
  rw [hg] at hnames
  obtain ⟨⟨ys, used'⟩, hys, hsame⟩ := exists_eq_ok_of_map hnames.symm
  rw [← hsame]
  exact (f.tracks_nil.namesFor_spec (.nil f _) rfl).1 ys used' hys

theorem isStuck_of_standardize (hheight : f.height ≤ limits.depth) {e : PassError}
    (he : (f.standardize limits).result = .error e) :
    ∃ given x, f.IsStuck limits.suffix given x ∧ e = .namesExhausted x limits.suffix := by
  have hnames := map_boundNames_standardize hheight
  rw [he] at hnames
  exact (f.tracks_nil.namesFor_spec (.nil f _) rfl).2 e (eq_error_of_map hnames.symm)

/-- Within the levels of the pass the names of the binders are given by the rule, the least number
for every one that must be renamed. Renaming fails exactly at the first binder for which there is no
name, and with as many numbers to try as there are names and quantifiers it does not fail. -/
theorem isNaming_standardize (hheight : f.height ≤ limits.depth) :
    (∀ g, (f.standardize limits).result = .ok g →
        f.IsNaming limits.suffix g.boundNames ∧ g.boundNames.length = f.boundNames.length) ∧
      (∀ e, (f.standardize limits).result = .error e ↔
        ∃ given x, f.IsStuck limits.suffix given x ∧ e = .namesExhausted x limits.suffix) ∧
      (f.variableNames.eraseDups.length + f.binders.length ≤ limits.suffix →
        ∃ g, (f.standardize limits).result = .ok g) := by
  refine ⟨fun g => isNaming_of_standardize hheight, ?_, ?_⟩
  · refine fun e => ⟨isStuck_of_standardize hheight, ?_⟩
    rintro ⟨given, x, hstuck, rfl⟩
    cases hresult : (f.standardize limits).result with
    | ok g =>
      -- there is a name for every binder, also where none is left
      obtain ⟨hnaming, hlength⟩ := isNaming_of_standardize hheight hresult
      have hle := hstuck.length_le hnaming
      obtain ⟨hlt, -⟩ := List.getElem?_eq_some_iff.mp hstuck.bound
      omega
    | error e =>
      obtain ⟨given', x', hstuck', rfl⟩ := isStuck_of_standardize hheight hresult
      rw [hstuck.unique hstuck']
  · intro hsuffix
    cases hresult : (f.standardize limits).result with
    | ok g => exact ⟨g, rfl⟩
    | error e =>
      obtain ⟨given, x, hstuck, -⟩ := isStuck_of_standardize hheight hresult
      exact absurd hstuck.suffix_lt (Nat.not_lt.mpr hsuffix)

/-- A name that is free, bound twice, and bound with its first number as well: its binders get the
second and the third number, and fail where the second one is the last. -/
theorem isNaming_standardize_numbered :
    let f := binary .conj (prop "P" [.var "x"]) (quant .universal "x" (quant .existential "x1"
      (quant .universal "x" (prop "Q" [.var "x", .var "x1"]))))
    f.height ≤ ({} : Limits).depth ∧ f.IsNaming 999 ["x2", "x1", "x3"] ∧
      (f.standardize { suffix := 2 }).result = .error (.namesExhausted "x" 2) ∧
      (∃ given, f.IsStuck 2 given "x") ∧ ∃ g, (f.standardize { suffix := 5 }).result = .ok g := by
  intro f
  have hrun : (f.standardize {}).result =
      .ok (binary .conj (prop "P" [.var "x"]) (quant .universal "x2" (quant .existential "x1"
        (quant .universal "x3" (prop "Q" [.var "x3", .var "x1"]))))) := by
    decide +kernel
  have hfail : (f.standardize { suffix := 2 }).result = .error (.namesExhausted "x" 2) := by
    decide +kernel
  have hheight (suffix : Nat) : f.height ≤ (Limits.mk 100 suffix).depth := by
    show 4 ≤ 100
    omega
  obtain ⟨hnaming, -⟩ := (isNaming_standardize (hheight 999)).1 _ hrun
  obtain ⟨given, x, hstuck, hx⟩ := ((isNaming_standardize (hheight 2)).2.1 _).mp hfail
  cases hx
  exact ⟨hheight 999, hnaming, hfail, ⟨given, hstuck⟩,
    (isNaming_standardize (hheight 5)).2.2 (by decide)⟩

end Formula

end ClausalForm
