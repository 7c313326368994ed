import ClausalForm.Proofs.Normalization.Branches
import ClausalForm.Proofs.Token.Layout

/-!
# The stages that are reported

A normalization reports every stage when it has come to it. The reports of a run are therefore its
stages, each once and in order, whatever else is reported between them.

## Main definitions

* `stagesReached`: the stages that some events report, with their formulas

## Main results

* `Normalization.IsRun.stagesReached_eq`: the stages that a run reports
* `stagesReached_normalizeText`: the same for a statement of a text
-/

namespace ClausalForm

/-- The stage that the event reports, with its formula. -/
def Event.reached? : Event → Option (Stage × Formula)
  | .reached stage f => some (stage, f)
  | _ => none

/-- The stages that the events report, with their formulas, in order. -/
def stagesReached (events : List Event) : List (Stage × Formula) :=
  events.filterMap Event.reached?

theorem stagesReached_append (es es' : List Event) :
    stagesReached (es ++ es') = stagesReached es ++ stagesReached es' :=
  List.filterMap_append

theorem stagesReached_eq_nil {es : List Event} (h : ∀ e ∈ es, e.reached? = none) :
    stagesReached es = [] :=
  List.filterMap_eq_nil_iff.mpr h

/-- A step after a stage that was reached. -/
theorem stagesReached_reach_bind {α : Type} {stage : Stage} {x : Journal PassError Formula}
    {next : Formula → Journal PassError α} {f : Formula} (hf : x.result = .ok f)
    (hx : ∀ e ∈ x.events, e.reached? = none) :
    stagesReached (reach stage x >>= next).events =
      (stage, f) :: stagesReached (next f).events := by
  rw [events_reach_bind hf, stagesReached_append, stagesReached_eq_nil hx]
  rfl

/-- A step after a stage that a pass came to which reports nothing. -/
theorem stagesReached_reach_ofExcept_bind {α : Type} {stage : Stage}
    {x : Except PassError Formula} {next : Formula → Journal PassError α} {f : Formula}
    (hf : x = .ok f) :
    stagesReached (reach stage (.ofExcept x) >>= next).events =
      (stage, f) :: stagesReached (next f).events :=
  stagesReached_reach_bind hf fun _ he => absurd he List.not_mem_nil

theorem stagesReached_reach_pure_bind {α : Type} {stage : Stage} (f : Formula)
    {next : Formula → Journal PassError α} :
    stagesReached (reach stage (pure f) >>= next).events =
      (stage, f) :: stagesReached (next f).events :=
  stagesReached_reach_bind rfl fun _ he => absurd he List.not_mem_nil

/-- A run reports its stages, each once and in order. -/
theorem Normalization.IsRun.stagesReached_eq {limits : Limits} {f : Formula} {r : Normalization}
    (h : r.IsRun limits f) : stagesReached (f.normalize limits).events = r.stages := by
  have hrenamed : ∀ e ∈ (r.doubleNegationFree.standardize limits).events, e.reached? = none := by
    intro e he
    obtain ⟨_, _, rfl⟩ := Formula.eq_renamed_of_mem_events_standardize he
    rfl
  have hreplaced : ∀ e ∈ (r.prenex.skolemize limits).events, e.reached? = none := by
    intro e he
    obtain ⟨_, _, rfl⟩ := Formula.eq_replaced_of_mem_events_skolemize he
    rfl
  rw [Formula.normalize, stagesReached_reach_pure_bind,
    stagesReached_reach_ofExcept_bind h.implicationFree,
    stagesReached_reach_ofExcept_bind h.negationPushed,
    stagesReached_reach_ofExcept_bind h.doubleNegationFree,
    stagesReached_reach_bind h.standardized hrenamed,
    stagesReached_reach_ofExcept_bind h.prenex,
    stagesReached_reach_bind h.skolemized hreplaced,
    stagesReached_reach_pure_bind, ← h.quantifierFree,
    stagesReached_reach_ofExcept_bind h.cnf,
    stagesReached_reach_ofExcept_bind h.cnfPrenex,
    stagesReached_reach_ofExcept_bind h.dnfPrenex, ← h.given]
  rfl

/-- Reading a text reports no stage. -/
theorem stagesReached_parseText {nesting : Nat} {text : String} {p : Program}
    (h : (parseText nesting text).result = .ok p) :
    stagesReached (parseText nesting text).events = [] := by
  cases hts : (tokenize text).result with
  | error fault =>
    rw [parseText, Program.ofText, Journal.bind_of_error hts] at h
    cases h
  | ok ts =>
    obtain ⟨l, -, -, -, hwarned⟩ := Cursor.exists_layout_of_tokens hts
    rw [parseText, Program.ofText, Journal.events_mapError, Journal.bind_of_ok hts,
      stagesReached_append]
    have hignored : stagesReached (tokenize text).events = [] := by
      refine stagesReached_eq_nil fun e he => ?_
      rw [tokenize, hwarned] at he
      obtain ⟨_, _, rfl⟩ := List.mem_map.mp he
      rfl
    have hdiagnosed (p : Program) : stagesReached p.events = [] := by
      refine stagesReached_eq_nil fun e he => ?_
      obtain ⟨_, _, rfl⟩ := List.mem_map.mp he
      rfl
    rw [hignored, hdiagnosed]
    rfl

/-- A text that is normalized has the statement that was asked for, whose run is reported after its
number. -/
theorem exists_isRun_of_normalizeText {options : NormalizeOptions} {text : String} {p : Program}
    {r : Normalization} (h : (normalizeText options text).result = .ok (p, r)) :
    ∃ f, (parseText options.nesting text).result = .ok p ∧
      p.statements[options.statement]? = some f ∧ r.IsRun options.limits f ∧
      (normalizeText options text).events = (parseText options.nesting text).events ++
        .selected options.statement f :: (f.normalize options.limits).events := by
  cases hp : (parseText options.nesting text).result with
  | error e =>
    rw [normalizeText, Journal.bind_of_error hp] at h
    cases h
  | ok p' =>
    rw [normalizeText, Journal.bind_of_ok hp] at h ⊢
    cases hf : p'.statements[options.statement]? with
    | none =>
      simp only [hf] at h
      cases h
    | some f =>
      simp only [hf] at h ⊢
      rw [Journal.bind_of_ok (Journal.result_report _)] at h ⊢
      rw [Journal.result_bind, Journal.result_mapError] at h
      rw [Journal.events_bind_pure]
      cases hr : (f.normalize options.limits).result with
      | error e =>
        rw [hr] at h
        cases h
      | ok r' =>
        rw [hr] at h
        cases h
        exact ⟨f, rfl, hf, Formula.normalize_eq_ok_iff.mp hr, rfl⟩

/-- Normalizing a statement of a text reports the stages of the statement and no others. -/
theorem stagesReached_normalizeText {options : NormalizeOptions} {text : String} {p : Program}
    {r : Normalization} (h : (normalizeText options text).result = .ok (p, r)) :
    stagesReached (normalizeText options text).events = r.stages := by
  obtain ⟨f, hp, -, hrun, hevents⟩ := exists_isRun_of_normalizeText h
  rw [hevents, stagesReached_append, stagesReached_parseText hp, List.nil_append, ←
    hrun.stagesReached_eq]
  rfl

end ClausalForm
