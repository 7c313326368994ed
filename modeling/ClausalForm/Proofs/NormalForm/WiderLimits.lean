import ClausalForm.NormalForm.Skolem
import ClausalForm.Proofs.NormalForm.Apart
import ClausalForm.Proofs.NormalForm.Distribution
import ClausalForm.Proofs.NormalForm.ImplicationFree

/-!
# Passes within wider limits

A limit ends a pass with an error or plays no part in what the pass comes to. So a pass that
succeeds comes to the same with more levels to descend and more suffixes to try: the levels count
down in step, and the first suffix that gives a free name is found before the limit.

## Main definitions

* `Formula.PassesPersist`: every pass that succeeds comes to the same within other limits

## Main results

* `freshName_eq_some_of_le`: the name for a binder does not depend on the limit
* `Formula.passesPersist`: every pass persists within wider limits
-/

namespace ClausalForm

/-! ### Names -/

/-- The name for a binder is the same with more suffixes to try. -/
theorem freshName_eq_some_of_le {reserved used : Names} {suffix suffix' : Nat} {x y : String}
    (hle : suffix ≤ suffix') (h : freshName reserved used suffix x = some y) :
    freshName reserved used suffix' x = some y := by
  rw [freshName_eq_some_iff] at h ⊢
  refine h.imp_right ?_
  rintro ⟨hx, k, hk, hleast, hy⟩
  exact ⟨hx, k, Nat.le_trans hk hle, hleast, hy⟩

namespace Formula

/-! ### Levels -/

variable {limit limit' n n' : Nat}

theorem persists_removeDoubleNegationWithin (hle : n ≤ n') (f : Formula) :
    Persists (removeDoubleNegationWithin limit n f) (removeDoubleNegationWithin limit' n' f) := by
  induction hle using levels_induction generalizing f with
  | zero n' =>
    cases f with
    | prop | var => cases n' <;> exact .refl _
    | neg | binary | quant => exact .error _ _
  | succ n n' hle ih =>
    cases f with
    | prop | var => exact .refl _
    | neg f => exact (ih _).bind fun _ => .refl _
    | binary op l r => exact (ih l).bind fun _ => (ih r).bind fun _ => .refl _
    | quant q x f => exact (ih f).bind fun _ => .refl _

theorem persists_distributeWithin {outer : Connective} (hle : n ≤ n') (f : Formula) :
    Persists (distributeWithin limit outer n f) (distributeWithin limit' outer n' f) := by
  rw [distributeWithin_eq, distributeWithin_eq]
  exact .withLevels hle _

theorem persists_substitute (hle : n ≤ n') (f : Formula) (x : String) (t : Term) :
    Persists (f.substitute limit x t n) (f.substitute limit' x t n') := by
  rw [substitute_eq, substitute_eq]
  exact .withLevels hle _

theorem persists_stripQuantifiers {limits limits' : Limits} (hle : limits.depth ≤ limits'.depth)
    (f : Formula) :
    Persists (f.stripQuantifiers limits) (f.stripQuantifiers limits') := by
  rw [stripQuantifiers_eq, stripQuantifiers_eq]
  exact .withLevels hle _

theorem persists_freeVariables {limits limits' : Limits} (hle : limits.depth ≤ limits'.depth)
    (f : Formula) :
    Persists (f.freeVariables limits) (f.freeVariables limits') := by
  rw [freeVariables_eq, freeVariables_eq]
  exact .withLevels hle _

theorem persists_standardizeWithin {limits limits' : Limits} {reserved : Names} (hle : n ≤ n')
    (hsuffix : limits.suffix ≤ limits'.suffix) (used : Names) (f : Formula) :
    Persists (standardizeWithin limits reserved n used f).result
      (standardizeWithin limits' reserved n' used f).result := by
  induction hle using levels_induction generalizing used f with
  | zero n' =>
    cases f with
    | prop | var => cases n' <;> exact .refl _
    | neg | binary | quant => exact .error _ _
  | succ n n' hle ih =>
    cases f with
    | prop | var => exact .refl _
    | neg f =>
      simp only [standardizeWithin, Journal.result_bind]
      exact (ih used f).bind fun _ => .refl _
    | binary op l r =>
      simp only [standardizeWithin, Journal.result_bind]
      exact (ih used l).bind fun _ => (ih _ r).bind fun _ => .refl _
    | quant q x f =>
      rw [standardizeWithin, standardizeWithin]
      cases hname : freshName reserved used limits.suffix x with
      | none => exact .error _ _
      | some y =>
        rw [freshName_eq_some_of_le hsuffix hname]
        dsimp only
        split
        · -- a binder that keeps its name
          simp only [Journal.result_bind]
          exact (Persists.refl _).bind fun f => (ih _ f).bind fun _ => .refl _
        · simp only [Journal.result_bind, Journal.result_ofExcept]
          refine (Persists.refl _).bind fun _ => (persists_substitute hle f x _).bind fun f => ?_
          exact (ih _ f).bind fun _ => .refl _

theorem persists_skolemizeWithin (hle : n ≤ n') (names : SkolemNames)
    (universals : List String) (f : Formula) :
    Persists (skolemizeWithin limit n names universals f).result
      (skolemizeWithin limit' n' names universals f).result := by
  induction hle using levels_induction generalizing names universals f with
  | zero n' =>
    cases f with
    | prop | var => cases n' <;> exact .refl _
    | neg | binary => exact .error _ _
    | quant q => cases q <;> exact .error _ _
  | succ n n' hle ih =>
    cases f with
    | prop | var => exact .refl _
    | neg f =>
      simp only [skolemizeWithin, Journal.result_bind]
      exact (ih _ _ f).bind fun _ => .refl _
    | binary op l r =>
      simp only [skolemizeWithin, Journal.result_bind]
      exact (ih _ _ l).bind fun _ => (ih _ _ r).bind fun _ => .refl _
    | quant q x f =>
      cases q with
      | universal =>
        simp only [skolemizeWithin, Journal.result_bind]
        exact (ih _ _ f).bind fun _ => .refl _
      | existential =>
        simp only [skolemizeWithin, Journal.result_bind, Journal.result_ofExcept]
        refine (Persists.refl _).bind fun _ => ?_
        exact (persists_substitute hle f x _).bind fun f => ih _ _ f

/-! ### Whole formulas -/

/-- Every pass that succeeds on the formula within `limits` comes to the same within `limits'`. -/
structure PassesPersist (limits limits' : Limits) (f : Formula) : Prop where
  freeVariables : Persists (f.freeVariables limits) (f.freeVariables limits')
  eliminateImplication : Persists (f.eliminateImplication limits) (f.eliminateImplication limits')
  pushNegation : Persists (f.pushNegation limits) (f.pushNegation limits')
  removeDoubleNegation : Persists (f.removeDoubleNegation limits) (f.removeDoubleNegation limits')
  standardize : Persists (f.standardize limits).result (f.standardize limits').result
  hoistQuantifiers : Persists (f.hoistQuantifiers limits) (f.hoistQuantifiers limits')
  skolemize : Persists (f.skolemize limits).result (f.skolemize limits').result
  distributeToCnf : Persists (f.distributeToCnf limits) (f.distributeToCnf limits')
  distributeToDnf : Persists (f.distributeToDnf limits) (f.distributeToDnf limits')
  toConjunctivePrenex : Persists (f.toConjunctivePrenex limits) (f.toConjunctivePrenex limits')
  toDisjunctivePrenex : Persists (f.toDisjunctivePrenex limits) (f.toDisjunctivePrenex limits')

/-- Every pass persists within wider limits. -/
theorem passesPersist {limits limits' : Limits} (hdepth : limits.depth ≤ limits'.depth)
    (hsuffix : limits.suffix ≤ limits'.suffix) (f : Formula) : f.PassesPersist limits limits' where
  freeVariables := persists_freeVariables hdepth f
  eliminateImplication := by
    rw [eliminateImplication, eliminateImplication, eliminateImplicationWithin_eq,
      eliminateImplicationWithin_eq]
    exact .withLevels hdepth _
  pushNegation := by
    rw [pushNegation, pushNegation, pushNegationWithin_eq, pushNegationWithin_eq]
    exact .withLevels hdepth _
  removeDoubleNegation := persists_removeDoubleNegationWithin hdepth f
  standardize := by
    simp only [standardize, Journal.result_bind, Journal.result_ofExcept]
    refine (persists_freeVariables hdepth f).bind fun used => ?_
    exact (persists_standardizeWithin hdepth hsuffix _ f).bind fun _ => .refl _
  hoistQuantifiers := by
    rw [hoistQuantifiers_eq, hoistQuantifiers_eq]
    exact .withLevels hdepth _
  skolemize := by
    simp only [skolemize, Journal.result_bind]
    exact (persists_skolemizeWithin hdepth {} [] f).bind fun _ => .refl _
  distributeToCnf := persists_distributeWithin hdepth f
  distributeToDnf := persists_distributeWithin hdepth f
  toConjunctivePrenex :=
    (persists_stripQuantifiers hdepth f).bind fun g => persists_distributeWithin hdepth g
  toDisjunctivePrenex :=
    (persists_stripQuantifiers hdepth f).bind fun g => persists_distributeWithin hdepth g

end Formula

end ClausalForm
