import ClausalForm.Proofs.CommandLine.Session
import ClausalForm.Proofs.Normalization.Failures
import ClausalForm.Proofs.Normalization.Progress

/-!
# All of a result or none of it

A request shows what the library answers, in full, or nothing at all. The exit code tells whether
there was no text or the library has failed. Then nothing is shown, and the wording of the failure
is the last line of what is reported.

## Main definitions

* `Action.Fails`, `Action.Shows`: what the library makes of a text, and the lines that stand for it
* `ReadError.Worded`: the words for each failure to read a text
* `Outcome.Reports`: an outcome that shows nothing and reports an error last

## Main results

* `Action.perform_eq_error_iff`: the work on a text fails exactly if the library does
* `Action.shows_of_perform`: the lines of a text stand for the answer of the library
* `Invocation.outcome_complete_or_error`: what a request leaves behind
-/

namespace ClausalForm

namespace Journal

variable {ε α β : Type}

/-- Where the second step cannot fail, two steps fail as the first one does. -/
theorem bind_eq_error_iff {x : Journal ε α} {next : α → Journal ε β}
    (hnext : ∀ a, ∃ b, (next a).result = .ok b) {events : List Event} {e : ε} :
    (x >>= next) = ⟨events, .error e⟩ ↔ x = ⟨events, .error e⟩ := by
  obtain ⟨events', _ | a⟩ := x
  · rw [bind_of_error rfl]
    constructor
    · rintro ⟨⟩
      rfl
    · rintro ⟨⟩
      rfl
  · obtain ⟨b, hb⟩ := hnext a
    rw [bind_of_ok rfl, hb]
    constructor
    · rintro ⟨⟩
    · rintro ⟨⟩

end Journal

namespace CommandLine

/-! ### What the library makes of a text -/

/-- The library fails at what an action asks of it, after it has reported some events. -/
inductive Action.Fails (text : String) (events : List Event) : Action → Failure → Prop
  | tokens {fault : LexFault} (h : tokenize text = ⟨events, .error fault⟩) :
    Fails text events .tokens (.lexical fault)
  | parse {nesting : Nat} {e : Failure} (h : parseText nesting text = ⟨events, .error e⟩) :
    Fails text events (.parse nesting) e
  | normalize {options : NormalizeOptions} {e : Failure}
    (h : normalizeText options text = ⟨events, .error e⟩) (chosen : List Stage) (stats : Bool) :
    Fails text events (.normalize options chosen stats) e
  | clauses {options : NormalizeOptions} {e : Failure}
    (h : normalizeText options text = ⟨events, .error e⟩) :
    Fails text events (.clauses options) e

/-- The lines are those for the reports: two for each, in order, the first with its number and its
clause, the second with its flag and its kind. -/
structure ListsReports (reports : List HornReport) (lines : List String) : Prop where
  length_eq : lines.length = 2 * reports.length
  clause_eq : ∀ k report, reports[k]? = some report →
    lines[2 * k]? = some (toString (k + 1) ++ ": " ++ report.clause.render)
  kind_eq : ∀ k report, reports[k]? = some report →
    lines[2 * k + 1]? =
      some ("   horn: " ++ toString report.isHorn ++ ", " ++ report.kind.description)

/-- The lines that stand for what the library answers to an action. A token stands behind its
offset, which ends at the fifth character unless it is longer. The stages that are shown are those
that are chosen, or all of them, in the order of the pipeline. If the times are asked for, those of
all stages and the total come after them, each behind its name and the blanks up to the 24th
character. -/
inductive Action.Shows (text : String) (timing : Timing) : Action → List String → Prop
  | tokens {ts : List Located} (h : (tokenize text).result = .ok ts) :
    Shows text timing .tokens (ts.map fun t =>
      String.ofList (List.replicate (5 - (toString t.offset).length) ' ') ++ toString t.offset ++
        "  " ++ t.token.render)
  | parse {nesting : Nat} {p : Program} (h : (parseText nesting text).result = .ok p) :
    Shows text timing (.parse nesting) (p.statements.map Formula.render)
  | normalize {options : NormalizeOptions} {p : Program} {r : Normalization}
    (h : (normalizeText options text).result = .ok (p, r)) (chosen : List Stage) (stats : Bool) :
    Shows text timing (.normalize options chosen stats)
      (((Stage.all.filter fun stage => chosen = [] ∨ stage ∈ chosen).map fun stage =>
        stage.name ++ ": " ++ (r.formula stage).render) ++
        if stats then
          (Stage.all.map fun stage =>
            stage.name ++ String.ofList (List.replicate (24 - stage.name.length) ' ') ++
              timing.stage stage) ++
            ["total                   " ++ timing.total]
        else [])
  | clauses {options : NormalizeOptions} {p : Program} {r : Normalization} {lines : List String}
    (h : (normalizeText options text).result = .ok (p, r)) (hlines : ListsReports r.horn lines) :
    Shows text timing (.clauses options) lines

theorem mapError_lexical_eq_error_iff {α : Type} {x : Journal LexFault α} {events : List Event}
    {e : Failure} : x.mapError .lexical = ⟨events, .error e⟩ ↔
      ∃ fault, x = ⟨events, .error fault⟩ ∧ e = .lexical fault := by
  obtain ⟨events', fault | a⟩ := x
  · constructor
    · rintro ⟨⟩
      exact ⟨fault, rfl, rfl⟩
    · rintro ⟨_, ⟨⟩, rfl⟩
      rfl
  · constructor
    · rintro ⟨⟩
    · rintro ⟨_, ⟨⟩, _⟩

/-- The work on a text fails exactly if the library does. -/
theorem Action.perform_eq_error_iff {text : String} {timing : Timing} {action : Action}
    {events : List Event} {e : Failure} :
    action.perform text timing = ⟨events, .error e⟩ ↔ action.Fails text events e := by
  -- in every case what follows the call of the library cannot fail
  cases action with
  | tokens =>
    rw [perform, Journal.bind_eq_error_iff fun _ => ⟨_, rfl⟩, mapError_lexical_eq_error_iff]
    constructor
    · rintro ⟨fault, h, rfl⟩
      exact .tokens h
    · intro hfails
      cases hfails with
      | tokens h => exact ⟨_, h, rfl⟩
  | parse nesting =>
    rw [perform, Journal.bind_eq_error_iff fun p => ?_]
    · constructor
      · exact .parse
      · intro hfails
        cases hfails with
        | parse h => exact h
    · by_cases hfaults : p.hasDiagnostics
      · rw [if_pos hfaults]
        exact ⟨_, rfl⟩
      · rw [if_neg hfaults]
        exact ⟨_, rfl⟩
  | normalize options chosen stats =>
    rw [perform, Journal.bind_eq_error_iff fun _ => ⟨_, rfl⟩]
    constructor
    · exact fun h => .normalize h chosen stats
    · intro hfails
      cases hfails with
      | normalize h => exact h
  | clauses options =>
    rw [perform, Journal.bind_eq_error_iff fun _ => ⟨_, rfl⟩]
    constructor
    · exact .clauses
    · intro hfails
      cases hfails with
      | clauses h => exact h

/-- The two lines for a report, where the reports are numbered from `n` on. -/
theorem getElem?_flatMap_clauseLines {reports : List HornReport} {k : Nat} {report : HornReport}
    (h : reports[k]? = some report) (n : Nat) :
    ((reports.zipIdx n).flatMap clauseLines)[2 * k]? =
        some (toString (n + k + 1) ++ ": " ++ report.clause.render) ∧
      ((reports.zipIdx n).flatMap clauseLines)[2 * k + 1]? =
        some ("   horn: " ++ toString report.isHorn ++ ", " ++ report.kind.description) := by
  induction reports generalizing k n with
  | nil => cases h
  | cons first others ih =>
    cases k with
    | zero =>
      cases h
      exact ⟨rfl, rfl⟩
    | succ k =>
      rw [List.zipIdx_cons, List.flatMap_cons, Nat.mul_succ, ← Nat.add_assoc, Nat.add_right_comm n]
      exact ih h (n + 1)

theorem length_flatMap_clauseLines (reports : List HornReport) (n : Nat) :
    ((reports.zipIdx n).flatMap clauseLines).length = 2 * reports.length := by
  induction reports generalizing n with
  | nil => rfl
  | cons first others ih =>
    rw [List.zipIdx_cons, List.flatMap_cons, List.length_append, ih, List.length_cons, Nat.mul_succ,
      Nat.add_comm]
    rfl

theorem listsReports_flatMap (reports : List HornReport) :
    ListsReports reports (reports.zipIdx.flatMap clauseLines) where
  length_eq := length_flatMap_clauseLines reports 0
  clause_eq k report h := by
    rw [(getElem?_flatMap_clauseLines h 0).1, Nat.zero_add]
  kind_eq k report h := (getElem?_flatMap_clauseLines h 0).2

theorem timeLines_eq (timing : Timing) :
    timeLines timing =
      (Stage.all.map fun stage =>
        stage.name ++ String.ofList (List.replicate (24 - stage.name.length) ' ') ++
          timing.stage stage) ++
        ["total                   " ++ timing.total] := by
  have htotal : padRight 24 "total" = "total                   " := by decide
  rw [timeLines, timeLine, htotal]
  rfl

theorem stageLines_eq (chosen : List Stage) (r : Normalization) :
    stageLines chosen r =
      (Stage.all.filter fun stage => chosen = [] ∨ stage ∈ chosen).map fun stage =>
        stage.name ++ ": " ++ (r.formula stage).render := by
  rw [stageLines, Normalization.stages, List.filter_map, List.map_map]
  congr 1
  refine List.filter_congr fun stage _ => ?_
  rw [Function.comp_apply, Bool.decide_or, Bool.eq_iff_iff]
  simp

/-- What the library reports of a failure is worded in one line. -/
theorem Action.Fails.isLine_message {text : String} {action : Action} {events : List Event}
    {e : Failure} (h : action.Fails text events e) : IsLine e.message := by
  cases h with
  | tokens h => exact failsOnly_tokenize text _ (congrArg Journal.result h)
  | parse h => exact failsOnly_parseText _ text _ (congrArg Journal.result h)
  | normalize h | clauses h => exact failsOnly_normalizeText _ text _ (congrArg Journal.result h)

theorem Action.shows_of_perform {text : String} {timing : Timing} {action : Action}
    {lines : List String} (h : (action.perform text timing).result = .ok lines) :
    action.Shows text timing lines := by
  cases action with
  | tokens =>
    rw [perform, Journal.result_bind, bind_eq_ok_iff] at h
    obtain ⟨ts, hts, h⟩ := h
    cases h
    exact .tokens (Journal.result_mapError_eq_ok_iff.mp hts)
  | parse nesting =>
    rw [perform, Journal.result_bind, bind_eq_ok_iff] at h
    obtain ⟨p, hp, h⟩ := h
    by_cases hfaults : p.hasDiagnostics
    · rw [if_pos hfaults] at h
      cases h
      exact .parse hp
    · rw [if_neg hfaults] at h
      cases h
      exact .parse hp
  | normalize options chosen stats =>
    rw [perform, Journal.result_bind, bind_eq_ok_iff] at h
    obtain ⟨⟨p, r⟩, hr, h⟩ := h
    cases h
    rw [stageLines_eq, timeLines_eq]
    exact .normalize hr chosen stats
  | clauses options =>
    rw [perform, Journal.result_bind, bind_eq_ok_iff] at h
    obtain ⟨⟨p, r⟩, hr, h⟩ := h
    cases h
    exact .clauses hr (listsReports_flatMap r.horn)

/-- Which stages are shown depends on the set of the chosen ones. -/
theorem stageLines_congr {chosen chosen' : List Stage}
    (h : ∀ stage, stage ∈ chosen' ↔ stage ∈ chosen) (r : Normalization) :
    stageLines chosen' r = stageLines chosen r := by
  have hnil : chosen' = [] ↔ chosen = [] := by
    simp only [List.eq_nil_iff_forall_not_mem, h]
  simp only [stageLines_eq, h, hnil]

/-- The flag of a report and the words for its kind come from different computations, but agree. -/
theorem isHorn_ofClause_eq_false_iff (c : Formula) :
    (HornReport.ofClause c).isHorn = false ↔
      (HornReport.ofClause c).kind.description = HornKind.nonHorn.description := by
  have hkind : (HornReport.ofClause c).kind.isHorn = (HornReport.ofClause c).isHorn :=
    HornKind.isHorn_classify ..
  rw [← hkind]
  cases (HornReport.ofClause c).kind <;> decide

/-! ### Outcomes -/

/-- The words for a failure to read a text. -/
inductive ReadError.Worded : ReadError → String → Prop
  | notFound : Worded .notFound "IO error: No such file or directory (os error 2)"
  | isDirectory : Worded .isDirectory "IO error: Is a directory (os error 21)"
  | other (reason : String) : Worded (.other reason) ("IO error: " ++ reason)

theorem ReadError.worded_message (e : ReadError) : e.Worded e.message := by
  cases e with
  | notFound => exact .notFound
  | isDirectory => exact .isDirectory
  | other reason => exact .other reason

/-- The outcome shows nothing. It reports some events and last of all an error, or nothing if
nothing is to be reported. -/
structure Outcome.Reports (o : Outcome) (threshold : Option Level) (events : List Event)
    (message : String) : Prop where
  exitCode_eq : o.exitCode = 1
  stdout_eq : o.stdout = ""
  stderr_eq_of_none : threshold = none → o.stderr = ""
  stderr_eq : threshold ≠ none →
    o.stderr = unlines (eventLines threshold events ++ ["[ERROR] " ++ message])

theorem reports_ofJournal_error {ε : Type} (threshold : Option Level) (message : ε → String)
    (events : List Event) (e : ε) :
    (Outcome.ofJournal threshold message ⟨events, .error e⟩).Reports threshold events
      (message e) where
  exitCode_eq := rfl
  stdout_eq := rfl
  stderr_eq_of_none hthreshold := by
    rw [hthreshold]
    show unlines (eventLines none _) = ""
    rw [eventLines, List.filter_eq_nil_iff.mpr fun _ _ => by simp [Level.isShown]]
    rfl
  stderr_eq hthreshold := by
    obtain ⟨t, rfl⟩ := Option.ne_none_iff_exists'.mp hthreshold
    -- an error is severe enough for every threshold
    have hshown : (Event.failed (message e)).level.isShown (some t) :=
      decide_eq_true (Nat.zero_le t.rank)
    show unlines (eventLines (some t) (events ++ [_])) = _
    rw [eventLines_append, eventLines_singleton, if_pos hshown]
    rfl

namespace Invocation

variable {i : Invocation} {text : String} {timing : Timing}

theorem outcome_of_ok {lines : List String}
    (h : (i.action.perform text timing).result = .ok lines) :
    i.outcome (.ok text) timing =
      ⟨0, unlines lines,
        unlines (eventLines i.threshold (i.action.perform text timing).events)⟩ := by
  rw [outcome, Outcome.ofJournal, h]

theorem reports_of_error (e : ReadError) :
    (i.outcome (.error e) timing).Reports i.threshold [] e.message :=
  reports_ofJournal_error ..

theorem reports_of_fails {events : List Event} {e : Failure} (h : i.action.Fails text events e) :
    (i.outcome (.ok text) timing).Reports i.threshold events e.message := by
  rw [outcome, Action.perform_eq_error_iff.mpr h]
  exact reports_ofJournal_error ..

/-- There is no text, or the library fails, or its answer is shown. -/
theorem outcome_cases (i : Invocation) (source : Except ReadError String) (timing : Timing) :
    (∃ e, source = .error e ∧ (i.outcome source timing).exitCode = 1) ∨
      (∃ text events e, source = .ok text ∧ i.action.Fails text events e ∧
        (i.outcome source timing).exitCode = 1) ∨
      ∃ text lines, source = .ok text ∧ i.action.Shows text timing lines ∧
        (i.outcome source timing).exitCode = 0 ∧
        (i.outcome source timing).stdout = unlines lines := by
  cases source with
  | error e => exact .inl ⟨e, rfl, rfl⟩
  | ok text =>
    cases hperform : i.action.perform text timing with
    | mk events result =>
      cases result with
      | error e =>
        have hfails := Action.perform_eq_error_iff.mp hperform
        exact .inr (.inl ⟨text, events, e, rfl, hfails, (reports_of_fails hfails).exitCode_eq⟩)
      | ok lines =>
        have hlines := congrArg Journal.result hperform
        refine .inr (.inr ⟨text, lines, rfl, Action.shows_of_perform hlines, ?_⟩)
        rw [outcome_of_ok hlines]
        exact ⟨rfl, rfl⟩

end Invocation

/-- A request leaves behind all of a result or none of it, whether its lines are written one by one
or together, and whatever times a normalization takes. The exit code is one exactly if there is no
text or the library fails. Then nothing is shown, and unless nothing is to be reported the error
comes last, in the words for it, those of the library in one line. Otherwise what is shown stands
for the answer of the library. A normalization shows the stages that the run reports in their order,
and of those that are chosen neither the order nor the repetition matters. The flag that stands with
a clause is down exactly for the words of clauses that are not Horn. -/
theorem Invocation.outcome_complete_or_error (i : Invocation) (source : Except ReadError String)
    (timing : Timing) :
    let o := i.outcome source timing
    i.carryOut source timing = o ∧ (o.exitCode = 0 ∨ o.exitCode = 1) ∧
      (o.exitCode = 1 ↔ (∃ e, source = .error e) ∨
        ∃ text events e, source = .ok text ∧ i.action.Fails text events e) ∧
      (∀ e, source = .error e → o.Reports i.threshold [] e.message ∧ e.Worded e.message) ∧
      (∀ text events e, source = .ok text → i.action.Fails text events e →
        o.Reports i.threshold events e.message ∧ e.Worded e.message ∧ '\n' ∉ e.message.toList) ∧
      (o.exitCode = 0 → ∃ text lines, source = .ok text ∧ i.action.Shows text timing lines ∧
        o.stdout = unlines lines) ∧
      (∀ options text p r, (normalizeText options text).result = .ok (p, r) →
        (stagesReached (normalizeText options text).events =
          Stage.all.map fun stage => (stage, r.formula stage)) ∧
        ∀ report ∈ r.horn, report.isHorn = false ↔
          report.kind.description = HornKind.nonHorn.description) ∧
      ∀ options chosen chosen' stats, i.action = .normalize options chosen stats →
        (∀ stage, stage ∈ chosen' ↔ stage ∈ chosen) →
          { i with action := .normalize options chosen' stats }.outcome source timing = o := by
  intro o
  refine ⟨i.carryOut_eq_outcome source timing, ?_, ?_, ?_, ?_, ?_, ?_, ?_⟩
  -- the exit code separates the last of the three cases from the others
  · rcases i.outcome_cases source timing with ⟨_, _, h⟩ | ⟨_, _, _, _, _, h⟩ | ⟨_, _, _, _, h, _⟩
    · exact .inr h
    · exact .inr h
    · exact .inl h
  · constructor
    · intro hexit
      rcases i.outcome_cases source timing with ⟨e, he, _⟩ | ⟨text, events, e, htext, h, _⟩ |
        ⟨_, _, _, _, hzero, _⟩
      · exact .inl ⟨e, he⟩
      · exact .inr ⟨text, events, e, htext, h⟩
      · exact absurd (hexit.symm.trans hzero) (by decide)
    · rintro (⟨e, rfl⟩ | ⟨text, events, e, rfl, h⟩)
      · exact (reports_of_error e).exitCode_eq
      · exact (reports_of_fails h).exitCode_eq
  · rintro e rfl
    exact ⟨reports_of_error e, e.worded_message⟩
  · rintro text events e rfl h
    exact ⟨reports_of_fails h, e.worded_message, h.isLine_message⟩
  · intro hexit
    rcases i.outcome_cases source timing with ⟨_, _, hone⟩ | ⟨_, _, _, _, _, hone⟩ |
      ⟨text, lines, htext, h, _, hstdout⟩
    · exact absurd (hexit.symm.trans hone) (by decide)
    · exact absurd (hexit.symm.trans hone) (by decide)
    · exact ⟨text, lines, htext, h, hstdout⟩
  · intro options text p r h
    refine ⟨stagesReached_normalizeText h, fun report hreport => ?_⟩
    obtain ⟨c, _, rfl⟩ := List.mem_map.mp hreport
    exact isHorn_ofClause_eq_false_iff c
  · -- the lines for the chosen stages are the same, and the rest does not depend on them
    intro options chosen chosen' stats haction hchosen
    have hperform (text : String) : (Action.normalize options chosen' stats).perform text timing =
        i.action.perform text timing := by
      rw [haction]
      simp only [Action.perform, stageLines_congr hchosen]
    cases source with
    | error e => rfl
    | ok text =>
      show Outcome.ofJournal _ _ _ = Outcome.ofJournal _ _ _
      rw [hperform]

/-- Two stages that are chosen against their order and one of them twice, the times of a stage that
takes a microsecond and a half for each one before it, tokens, a clause and its kind, an unknown
command, and a file that is not there, once with a log and once without. -/
theorem Invocation.outcome_complete_or_error_chosen :
    let text := "P(x) \\implies \\neg Q"
    let timing := Timing.ofNanoseconds fun stage => 1500 * stage.index
    let stages (chosen : List Stage) : Invocation :=
      ⟨some .warn, .argument text, .normalize {} chosen false⟩
    let times : Invocation := ⟨some .warn, .argument text, .normalize {} [.dnfPrenex] true⟩
    let tokens (text : String) : Invocation := ⟨some .error, .argument text, .tokens⟩
    let clauses : Invocation := ⟨some .warn, .argument text, .clauses {}⟩
    let missing (threshold : Option Level) : Invocation :=
      ⟨threshold, .file "missing", .clauses {}⟩
    (stages [.cnf, .given, .cnf]).outcome (.ok text) timing =
        ⟨0, "original: P(x) \\implies \\neg Q\ncnf: \\neg P(x) \\lor \\neg Q\n", ""⟩ ∧
      (stages [.given, .cnf]).outcome (.ok text) timing =
        (stages [.cnf, .given, .cnf]).outcome (.ok text) timing ∧
      (∃ lines, (stages [.cnf, .given, .cnf]).action.Shows text timing lines) ∧
      times.outcome (.ok text) timing = ⟨0, unlines ["dnf-prenex: \\neg P(x) \\lor \\neg Q",
        "original                0ns", "implication-free        1.5µs",
        "negation-pushed         3µs", "double-negation-free    4.5µs",
        "standardized            6µs", "prenex                  7.5µs",
        "skolemized              9µs", "quantifier-free         10.5µs",
        "cnf                     12µs", "cnf-prenex              13.5µs",
        "dnf-prenex              15µs", "total                   82.5µs"], ""⟩ ∧
      (∃ lines, times.action.Shows text timing lines) ∧
      (tokens "P(x) Q").outcome (.ok "P(x) Q") timing =
        ⟨0, "    0  P(x)\n    5  Q\n    6  EOF\n", ""⟩ ∧
      (∃ lines, (tokens "P(x) Q").action.Shows "P(x) Q" timing lines) ∧
      clauses.outcome (.ok text) timing = ⟨0, "1: \\neg P(x) \\lor \\neg Q\n" ++
        "   horn: true, query (all literals negative)\n", ""⟩ ∧
      (∃ p r, (normalizeText {} text).result = .ok (p, r) ∧ r.horn.map HornReport.isHorn = [true] ∧
        ∀ report ∈ r.horn, report.isHorn = false ↔
          report.kind.description = HornKind.nonHorn.description) ∧
      ((tokens "P \\foo").outcome (.ok "P \\foo") timing).Reports (some .error) []
        "lexer error: unrecognized command '\\foo' (at offset 2)" ∧
      ((missing (some .error)).outcome (.error .notFound) timing).Reports (some .error) []
        "IO error: No such file or directory (os error 2)" ∧
      (missing (some .error)).outcome (.error .notFound) timing =
        ⟨1, "", "[ERROR] IO error: No such file or directory (os error 2)\n"⟩ ∧
      ((missing none).outcome (.error .notFound) timing).Reports none []
        "IO error: No such file or directory (os error 2)" ∧
      (missing none).outcome (.error .notFound) timing = ⟨1, "", ""⟩ := by
  intro text timing stages times tokens clauses missing
  have hhorn : (normalizeText {} text).result.map (fun x => x.2.horn.map HornReport.isHorn) =
      .ok [true] := by
    decide +kernel
  obtain ⟨⟨p, r⟩, hr, hflags⟩ := exists_eq_ok_of_map hhorn
  have hfault : tokenize "P \\foo" = ⟨[], .error ⟨.unknownCommand "foo", 2⟩⟩ :=
    congrArg₂ Journal.mk (by decide +kernel) (by decide +kernel)
  have hshows (i : Invocation) (text : String)
      (hexit : (i.outcome (.ok text) timing).exitCode = 0) :
      ∃ lines, i.action.Shows text timing lines := by
    obtain ⟨-, -, -, -, -, hlines, -, -⟩ := i.outcome_complete_or_error (.ok text) timing
    obtain ⟨_, lines, ⟨⟩, h, _⟩ := hlines hexit
    exact ⟨lines, h⟩
  have hmissing (threshold : Option Level) :
      ((missing threshold).outcome (.error .notFound) timing).Reports threshold []
        "IO error: No such file or directory (os error 2)" := by
    obtain ⟨-, -, -, herror, -, -, -, -⟩ :=
      (missing threshold).outcome_complete_or_error (.error .notFound) timing
    exact (herror _ rfl).1
  obtain ⟨-, -, -, -, -, -, hnormalize, hset⟩ :=
    (stages [.cnf, .given, .cnf]).outcome_complete_or_error (.ok text) timing
  obtain ⟨-, -, -, -, hfails, -, -, -⟩ :=
    (tokens "P \\foo").outcome_complete_or_error (.ok "P \\foo") timing
  refine ⟨by decide +kernel, ?_, hshows _ _ (by decide +kernel), by decide +kernel,
    hshows _ _ (by decide +kernel), by decide +kernel, hshows _ _ (by decide +kernel),
    by decide +kernel, ⟨p, r, hr, hflags, (hnormalize {} text p r hr).2⟩, ?_, hmissing _,
    by decide +kernel, hmissing _, by decide +kernel⟩
  · exact hset {} _ [.given, .cnf] false rfl fun stage => by simp [or_comm]
  · exact (hfails _ [] _ rfl (.tokens hfault)).1

end CommandLine

end ClausalForm
