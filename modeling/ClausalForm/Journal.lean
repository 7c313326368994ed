import ClausalForm.Diagnostic
import ClausalForm.Formula.Rendering
import ClausalForm.Stage

/-!
# Events and journals

What the library reports while it works, and computations that report. A computation that fails
keeps the events that came before the failure.

## Main definitions

* `Level`, `Event`: what is reported, and how severe it is
* `Journal`: the events of a computation, in order, and its result

## Main results

* `Journal.result_bind`, `Journal.events_bind`: a step's result and events after another step
* `Journal.mem_events_bind`: where an event of two steps comes from
-/

namespace ClausalForm

/-- How severe an event is. -/
inductive Level where
  | error
  | warn
  | info
  | debug
  | trace
deriving DecidableEq, Repr, Inhabited

namespace Level

/-- The position of a level, the most severe first. -/
def rank : Level → Nat
  | error => 0
  | warn => 1
  | info => 2
  | debug => 3
  | trace => 4

/-- The label of a level in a log. -/
def label : Level → String
  | error => "ERROR"
  | warn => "WARN"
  | info => "INFO"
  | debug => "DEBUG"
  | trace => "TRACE"

/-- Whether an event of this level is shown when `threshold` is the least severe level shown.
Without a threshold nothing is shown. -/
def isShown (level : Level) : (threshold : Option Level) → Bool
  | none => false
  | some t => level.rank ≤ t.rank

end Level

/-- Something worth reporting. -/
inductive Event where
  /-- A character that belongs to no token was skipped. -/
  | ignored (c : Char) (offset : Nat)
  /-- A syntax fault was recorded. -/
  | diagnosed (d : Diagnostic)
  /-- A binder got a fresh name. -/
  | renamed (name fresh : String)
  /-- An existential variable gave way to a term. -/
  | replaced (name : String) (term : Term)
  /-- The statement at `index` was taken for normalization. -/
  | selected (index : Nat) (f : Formula)
  /-- Normalization reached a stage. -/
  | reached (stage : Stage) (f : Formula)
  /-- Normalization ended with this many clauses, so many of them Horn clauses. -/
  | counted (clauses horn : Nat)
  /-- A text was parsed in spite of this many syntax faults. -/
  | recovered (faults : Nat)
  /-- The work ended with an error. -/
  | failed (message : String)
deriving DecidableEq, Repr

namespace Event

/-- The level at which an event is reported. -/
def level : Event → Level
  | ignored .. | diagnosed _ => .warn
  | renamed .. | replaced .. => .trace
  | selected .. | reached .. | counted .. => .debug
  | recovered _ => .info
  | failed _ => .error

/-- The wording of an event. -/
def message : Event → String
  | ignored c offset =>
    "ignoring unexpected character '" ++ c.toString ++ "' at offset " ++ toString offset
  | diagnosed d => if d.error.isFatal then "dropping statement: " ++ d.message else d.message
  | renamed name fresh => "renaming bound variable '" ++ name ++ "' to '" ++ fresh ++ "'"
  | replaced name term =>
    "replacing existential variable '" ++ name ++ "' with '" ++ term.render ++ "'"
  | selected index f => "normalizing statement " ++ toString index ++ ": " ++ f.render
  | reached stage f => stage.name ++ ": " ++ f.render
  | counted clauses horn =>
    toString clauses ++ " clauses, " ++ toString horn ++ " of them Horn"
  | recovered faults => "recovered from " ++ toString faults ++ " parse errors"
  | failed message => message

end Event

/-- The events of a computation in the order in which they happened, and its result. -/
structure Journal (ε α : Type) where
  events : List Event
  result : Except ε α

namespace Journal

variable {ε ε' α β : Type}

/-- A result that reports nothing. -/
def ofExcept (result : Except ε α) : Journal ε α := ⟨[], result⟩

/-- A single event. -/
def report (e : Event) : Journal ε Unit := ⟨[e], .ok ()⟩

/-- A computation followed by one that uses its result, unless it failed. -/
def andThen (x : Journal ε α) (next : α → Journal ε β) : Journal ε β :=
  match x.result with
  | .ok a => ⟨x.events ++ (next a).events, (next a).result⟩
  | .error e => ⟨x.events, .error e⟩

instance : Monad (Journal ε) where
  pure a := ⟨[], .ok a⟩
  bind := andThen

/-- A computation with its error reworded. -/
def mapError (f : ε → ε') (x : Journal ε α) : Journal ε' α :=
  ⟨x.events, x.result.mapError f⟩

@[simp] theorem events_pure (a : α) : (pure a : Journal ε α).events = [] := rfl

@[simp] theorem result_pure (a : α) : (pure a : Journal ε α).result = .ok a := rfl

@[simp] theorem events_ofExcept (r : Except ε α) : (ofExcept r).events = [] := rfl

@[simp] theorem result_ofExcept (r : Except ε α) : (ofExcept r).result = r := rfl

@[simp] theorem events_report (e : Event) : (report e : Journal ε Unit).events = [e] := rfl

@[simp] theorem result_report (e : Event) : (report e : Journal ε Unit).result = .ok () := rfl

@[simp] theorem events_mapError (f : ε → ε') (x : Journal ε α) :
    (x.mapError f).events = x.events := rfl

@[simp] theorem result_mapError (f : ε → ε') (x : Journal ε α) :
    (x.mapError f).result = x.result.mapError f := rfl

theorem result_mapError_eq_ok_iff {f : ε → ε'} {x : Journal ε α} {a : α} :
    (x.mapError f).result = .ok a ↔ x.result = .ok a := by
  constructor
  · intro h
    rw [result_mapError] at h
    cases hx : x.result with
    | ok b =>
      rw [hx] at h
      cases h
      rfl
    | error e =>
      rw [hx] at h
      cases h
  · intro h
    rw [result_mapError, h]
    rfl

/-- A step after one that came to `a`. -/
theorem bind_of_ok {x : Journal ε α} {a : α} (h : x.result = .ok a) (next : α → Journal ε β) :
    (x >>= next) = ⟨x.events ++ (next a).events, (next a).result⟩ := by
  change andThen x next = _
  rw [andThen, h]

/-- No step follows one that failed. -/
theorem bind_of_error {x : Journal ε α} {e : ε} (h : x.result = .error e)
    (next : α → Journal ε β) : (x >>= next) = ⟨x.events, .error e⟩ := by
  change andThen x next = _
  rw [andThen, h]

/-- The result of two steps is the result of the second on that of the first. -/
@[simp] theorem result_bind (x : Journal ε α) (next : α → Journal ε β) :
    (x >>= next).result = x.result >>= fun a => (next a).result := by
  change (andThen x next).result = _
  unfold andThen
  cases x.result <;> rfl

/-- The events of two steps are those of the first and then, unless it failed, those of the
second. -/
theorem events_bind (x : Journal ε α) (next : α → Journal ε β) :
    (x >>= next).events = x.events ++ x.result.toOption.elim [] fun a => (next a).events := by
  change (andThen x next).events = _
  unfold andThen
  cases x.result <;> simp [Except.toOption]

/-- A step that only makes something of a result reports nothing. -/
@[simp] theorem events_bind_pure (x : Journal ε α) (g : α → β) :
    (x >>= fun a => (pure (g a) : Journal ε β)).events = x.events := by
  rw [events_bind]
  cases x.result <;> simp [Except.toOption]

/-- An event of two steps is one of the first, or one of the second on what the first came to. -/
theorem mem_events_bind {x : Journal ε α} {next : α → Journal ε β} {e : Event} :
    e ∈ (x >>= next).events ↔ e ∈ x.events ∨ ∃ a, x.result = .ok a ∧ e ∈ (next a).events := by
  rw [events_bind, List.mem_append]
  cases x.result <;> simp [Except.toOption]

end Journal

end ClausalForm
