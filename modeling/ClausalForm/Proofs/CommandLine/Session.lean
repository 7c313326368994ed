import ClausalForm.CommandLine.Session

/-!
# What sessions write

A part of a session adds lines to what was written before it, and does not depend on it. The lines
of a request carried out step by step are those of its outcome: every subcommand asks the library
for its whole answer before it shows the first line.

## Main definitions

* `Session.Writes`: what a part of a session comes to, and the lines that it adds
* `Session.Carries`: a part of a session shows the lines of a journal and reports its events

## Main results

* `Session.carries_perform`: every subcommand carries out its action
* `Invocation.carryOut_eq_outcome`: a session leaves behind the outcome of its request
-/

namespace ClausalForm.CommandLine

/-! ### Lines -/

@[simp] theorem unlines_nil : unlines [] = "" := rfl

@[simp] theorem unlines_append (xs ys : List String) :
    unlines (xs ++ ys) = unlines xs ++ unlines ys := by
  rw [unlines, List.map_append, String.join_append]
  rfl

@[simp] theorem unlines_singleton (line : String) : unlines [line] = line ++ "\n" := by
  simp [unlines, String.join]

@[simp] theorem eventLines_append (threshold : Option Level) (xs ys : List Event) :
    eventLines threshold (xs ++ ys) = eventLines threshold xs ++ eventLines threshold ys := by
  rw [eventLines, List.filter_append, List.map_append]
  rfl

/-- An event is reported exactly if it is severe enough. -/
theorem eventLines_singleton (threshold : Option Level) (e : Event) :
    eventLines threshold [e] = if e.level.isShown threshold then [eventLine e] else [] := by
  by_cases hshown : e.level.isShown threshold <;> simp [eventLines, hshown]

theorem flatMap_eventLines (threshold : Option Level) (es : List Event) :
    (es.flatMap fun e => eventLines threshold [e]) = eventLines threshold es := by
  induction es with
  | nil => rfl
  | cons e es ih => rw [List.flatMap_cons, ih, ← eventLines_append, List.singleton_append]

namespace Session

variable {α β : Type} {threshold : Option Level} {timing : Timing}

/-! ### Parts of a session -/

/-- The part `x` of a session comes to `result`, and adds these lines to whatever was written
before. -/
def Writes (x : Session α) (result : Except SessionError α) (out err : List String) : Prop :=
  ∀ s : Streams, x.run.run s = (result, ⟨s.stdout ++ unlines out, s.stderr ++ unlines err⟩)

/-- What is there after a part that follows lines of others. -/
theorem Writes.run_unlines {x : Session α} {result : Except SessionError α}
    {out err : List String} (h : x.Writes result out err) (out' err' : List String) :
    x.run.run ⟨unlines out', unlines err'⟩ =
      (result, ⟨unlines (out' ++ out), unlines (err' ++ err)⟩) := by
  rw [h, unlines_append, unlines_append]

theorem writes_pure (a : α) : Writes (pure a) (.ok a) [] [] := fun s => by
  simp only [unlines_nil, String.append_empty]
  rfl

theorem writes_throw (e : SessionError) : Writes (throw e : Session α) (.error e) [] [] :=
  fun s => by
    simp only [unlines_nil, String.append_empty]
    rfl

/-- A part that goes well is followed by the next one. -/
theorem Writes.bind {x : Session α} {next : α → Session β} {a : α}
    {result : Except SessionError β} {out err out' err' : List String}
    (hx : x.Writes (.ok a) out err) (hnext : (next a).Writes result out' err') :
    Writes (x >>= next) result (out ++ out') (err ++ err') := by
  intro s
  -- the second part starts from what the first one has left, which is as good as any state
  have hrun : (x >>= next).run.run s = (next a).run.run
      ⟨s.stdout ++ unlines out, s.stderr ++ unlines err⟩ := by
    rw [ExceptT.run_bind, StateT.run_bind, hx s]
    rfl
  rw [hrun, hnext]
  simp only [unlines_append, String.append_assoc]

/-- Nothing follows an error. -/
theorem Writes.bind_error {x : Session α} {e : SessionError} {out err : List String}
    (hx : x.Writes (.error e) out err) (next : α → Session β) :
    Writes (x >>= next) (.error e) out err := by
  intro s
  rw [ExceptT.run_bind, StateT.run_bind, hx s]
  rfl

theorem writes_printLine (line : String) : Writes (printLine line) (.ok ()) [line] [] := by
  intro s
  simp only [unlines_nil, String.append_empty, unlines_singleton, ← String.append_assoc]
  rfl

theorem writes_report (threshold : Option Level) (e : Event) :
    Writes (report threshold e) (.ok ()) [] (eventLines threshold [e]) := by
  rw [report, eventLines_singleton]
  by_cases hshown : e.level.isShown threshold
  · rw [if_pos hshown, if_pos hshown]
    intro s
    simp only [unlines_nil, String.append_empty, unlines_singleton, ← String.append_assoc]
    rfl
  · rw [if_neg hshown, if_neg hshown]
    exact writes_pure ()

/-- A loop writes what its turns write, one after the other. -/
theorem writes_forM {f : α → Session Unit} {out err : α → List String}
    (h : ∀ x, (f x).Writes (.ok ()) (out x) (err x)) (xs : List α) :
    Writes (forM xs f) (.ok ()) (xs.flatMap out) (xs.flatMap err) := by
  induction xs with
  | nil => exact writes_pure ()
  | cons x xs ih => exact (h x).bind ih

/-- A loop that reports nothing. -/
theorem writes_forM_out {f : α → Session Unit} {out : α → List String}
    (h : ∀ x, (f x).Writes (.ok ()) (out x) []) (xs : List α) :
    Writes (forM xs f) (.ok ()) (xs.flatMap out) [] := by
  have hforM := writes_forM h xs
  rwa [List.flatMap_eq_nil_iff.mpr fun _ _ => rfl] at hforM

/-- The loop that shows one line after the other. -/
theorem writes_forM_printLine (line : α → String) (xs : List α) :
    Writes (forM xs fun x => printLine (line x)) (.ok ()) (xs.map line) [] := by
  have hforM := writes_forM_out (fun x => writes_printLine (line x)) xs
  rwa [← List.map_eq_flatMap] at hforM

/-- The loop that shows the lines for some of the elements. -/
theorem writes_forM_filter (line : α → String) (p : α → Bool) (xs : List α) :
    Writes (forM xs fun x => if p x then printLine (line x) else pure ()) (.ok ())
      ((xs.filter p).map line) [] := by
  induction xs with
  | nil => exact writes_pure ()
  | cons x xs ih =>
    rw [List.forM_cons, List.filter_cons]
    by_cases hx : p x
    · rw [if_pos hx, if_pos hx]
      exact (writes_printLine (line x)).bind ih
    · rw [if_neg hx, if_neg hx]
      exact (writes_pure ()).bind ih

/-- A call reports the events of the library, shows nothing, and comes to what the library
answers. -/
theorem writes_call (threshold : Option Level) (x : Journal Failure α) :
    Writes (call threshold x) (x.result.mapError .library) [] (eventLines threshold x.events) := by
  have hevents : Writes (forM x.events (report threshold)) (.ok ()) []
      (eventLines threshold x.events) := by
    have hforM := writes_forM (writes_report threshold) x.events
    rwa [flatMap_eventLines, List.flatMap_eq_nil_iff.mpr fun _ _ => rfl] at hforM
  rw [call, ← List.append_nil (eventLines threshold x.events)]
  refine hevents.bind ?_
  cases x.result with
  | ok a => exact writes_pure a
  | error e => exact writes_throw _

/-! ### Actions -/

/-- The part `x` of a session shows the lines that `j` comes to, or nothing at all if `j` fails, and
reports the events of `j` in both cases. -/
structure Carries (threshold : Option Level) (x : Session Unit)
    (j : Journal Failure (List String)) : Prop where
  shows : ∀ {lines}, j.result = .ok lines →
    x.Writes (.ok ()) lines (eventLines threshold j.events)
  fails : ∀ {e}, j.result = .error e →
    x.Writes (.error (.library e)) [] (eventLines threshold j.events)

theorem carries_pure {x : Session Unit} {lines : List String} (h : x.Writes (.ok ()) lines []) :
    Carries threshold x (pure lines) where
  shows hlines := by
    cases hlines
    exact h
  fails he := nomatch he

/-- Whatever follows a call is not reached if the library fails, so that nothing is shown then. -/
theorem carries_call_bind {x : Journal Failure α} {next : α → Session Unit}
    {next' : α → Journal Failure (List String)}
    (h : ∀ a, Carries threshold (next a) (next' a)) :
    Carries threshold (call threshold x >>= next) (x >>= next') := by
  have hcall := writes_call threshold x
  cases hx : x.result with
  | ok a =>
    rw [hx] at hcall
    rw [Journal.bind_of_ok hx]
    constructor
    · intro lines hlines
      rw [eventLines_append]
      exact hcall.bind ((h a).shows hlines)
    · intro e he
      rw [eventLines_append]
      exact hcall.bind ((h a).fails he)
  | error e =>
    rw [hx] at hcall
    rw [Journal.bind_of_error hx]
    constructor
    · intro lines hlines
      cases hlines
    · -- the lines of the answer come after the call, and so do not come at all
      rintro _ ⟨⟩
      exact hcall.bind_error next

theorem carries_tokens (text : String) :
    Carries threshold (tokens threshold (.ok text)) (Action.tokens.perform text timing) :=
  carries_call_bind fun ts => carries_pure (writes_forM_printLine tokenLine ts)

theorem carries_parse (text : String) (nesting : Nat) :
    Carries threshold (parse threshold (.ok text) nesting)
      ((Action.parse nesting).perform text timing) := by
  refine carries_call_bind fun p => ?_
  have hstatements := writes_forM_printLine Formula.render p.statements
  by_cases hfaults : p.hasDiagnostics
  · -- the faults are reported after the statements, but on the other stream
    rw [if_pos hfaults, if_pos hfaults]
    constructor
    · intro lines hlines
      cases hlines
      rw [← List.append_nil (p.statements.map Formula.render)]
      exact hstatements.bind (writes_report threshold _)
    · intro e he
      cases he
  · rw [if_neg hfaults, if_neg hfaults]
    refine carries_pure ?_
    rw [← List.append_nil (p.statements.map Formula.render)]
    exact hstatements.bind (writes_pure ())

theorem writes_times (timing : Timing) : Writes (do
    forM Stage.all fun stage => printLine (padRight 24 stage.name ++ timing.stage stage)
    printLine (padRight 24 "total" ++ timing.total)) (.ok ()) (timeLines timing) [] := by
  have hstages := writes_forM_printLine
    (fun stage => padRight 24 stage.name ++ timing.stage stage) Stage.all
  simp only [timeLines, timeLine]
  exact hstages.bind (writes_printLine (padRight 24 "total" ++ timing.total))

theorem carries_normalize (text : String) (options : NormalizeOptions) (chosen : List Stage)
    (stats : Bool) :
    Carries threshold (normalize threshold (.ok text) timing options chosen stats)
      ((Action.normalize options chosen stats).perform text timing) := by
  refine carries_call_bind fun (_, r) => carries_pure ?_
  have hstages := writes_forM_filter stageLine
    (fun x => chosen.isEmpty || chosen.contains x.1) r.stages
  refine hstages.bind ?_
  cases stats with
  | false => exact writes_pure ()
  | true => exact writes_times timing

theorem carries_clauses (text : String) (options : NormalizeOptions) :
    Carries threshold (clauses threshold (.ok text) options)
      ((Action.clauses options).perform text timing) :=
  carries_call_bind fun (_, r) => carries_pure <| writes_forM_out
    (fun _ => (writes_printLine _).bind (writes_printLine _)) r.horn.zipIdx

/-- Every subcommand carries out its action. -/
theorem carries_perform (threshold : Option Level) (text : String) (timing : Timing)
    (action : Action) :
    Carries threshold (perform threshold (.ok text) timing action)
      (action.perform text timing) := by
  cases action with
  | tokens => exact carries_tokens text
  | parse nesting => exact carries_parse text nesting
  | normalize options chosen stats => exact carries_normalize text options chosen stats
  | clauses options => exact carries_clauses text options

/-- Without a text there is nothing to do. -/
theorem writes_perform_error (e : ReadError) (action : Action) :
    Writes (perform threshold (.error e) timing action) (.error (.input e)) [] [] := by
  cases action with
  | tokens | parse | normalize | clauses => exact (writes_throw _).bind_error _

/-- A session whose work goes well. -/
theorem run_whole_of_ok {source : Except ReadError String} {action : Action}
    {out err : List String}
    (h : (perform threshold source timing action).Writes (.ok ()) out err) :
    (whole threshold source timing action).run {} = (0, ⟨unlines out, unlines err⟩) := by
  have hrun : (perform threshold source timing action).run.run {} = _ := h.run_unlines [] []
  rw [whole, StateT.run_bind, hrun]
  rfl

/-- A session that ends with an error reports it last. -/
theorem run_whole_of_error {source : Except ReadError String} {action : Action} {e : SessionError}
    {out err : List String}
    (h : (perform threshold source timing action).Writes (.error e) out err) :
    (whole threshold source timing action).run {} =
      (1, ⟨unlines out, unlines (err ++ eventLines threshold [.failed e.message])⟩) := by
  have hrun : (perform threshold source timing action).run.run {} = _ := h.run_unlines [] []
  have hreport := (writes_report threshold (.failed e.message)).run_unlines out err
  rw [whole, StateT.run_bind, hrun]
  -- what is left to do is to report the error, after what has been written
  change (do
    let (_, s) ← (report threshold (.failed e.message)).run.run ⟨unlines out, unlines err⟩
    pure (1, s) : Id (Nat × Streams)) = _
  rw [hreport, List.append_nil]
  rfl

end Session

/-- A session leaves behind the outcome of its request. -/
theorem Invocation.carryOut_eq_outcome (i : Invocation) (source : Except ReadError String)
    (timing : Timing) : i.carryOut source timing = i.outcome source timing := by
  cases source with
  | error e =>
    rw [carryOut, Session.run_whole_of_error (Session.writes_perform_error e i.action)]
    rfl
  | ok text =>
    have hcarries := Session.carries_perform i.threshold text timing i.action
    rw [carryOut, outcome, Outcome.ofJournal]
    cases hresult : (i.action.perform text timing).result with
    | ok lines => rw [Session.run_whole_of_ok (hcarries.shows hresult)]
    | error e =>
      rw [Session.run_whole_of_error (hcarries.fails hresult), ← eventLines_append]
      rfl

end ClausalForm.CommandLine
