import ClausalForm.Proofs.Formula.Truth

/-!
# Occurrences of variables

The variables of a formula as they are met from left to right, each with the quantifiers that it is
met below. A variable is free in the formula if it is met somewhere below no quantifier of its own.
The free variables can be collected on a single way through the formula, with a stack of the
variables that are bound on the way and a list of what was met for the first time.

## Main definitions

* `Occurrence`: a variable in an atom, and the variables that are bound around it
* `Formula.occurrences`: all of them, from left to right
* `Formula.firstFree`: the position of the first free occurrence of a variable
* `Collector`: what is bound and what was found, on the way through a formula

## Main results

* `map_name_filter_isFree`: the free occurrences are those that are free for their quantifiers
* `pairwise_firstFree`: first occurrences are in the order in which they are met
* `Collector.collected_eq`: the way through the formula finds the free variables
* `firstOccurrences_freeVariables`: what the free variables are
-/

namespace ClausalForm

universe u

/-- An occurrence of a variable in an atom. -/
structure Occurrence where
  name : String
  /-- The variables of the quantifiers around it, the innermost one first. -/
  around : List String
deriving DecidableEq, Repr

/-- Whether no quantifier around the occurrence binds its variable. -/
def Occurrence.isFree (o : Occurrence) : Bool := o.name ∉ o.around

namespace Formula

/-! ### Occurrences -/

/-- The occurrences of variables, from left to right, where quantifiers further out bind the
variables `around`. -/
def occurrencesBelow (around : List String) : Formula → List Occurrence
  | prop _ args => (Term.varsOf args).map fun x => ⟨x, around⟩
  | var x => [⟨x, around⟩]
  | neg f => f.occurrencesBelow around
  | binary _ l r => l.occurrencesBelow around ++ r.occurrencesBelow around
  | quant _ x f => f.occurrencesBelow (x :: around)

/-- The occurrences of variables, from left to right. -/
def occurrences (f : Formula) : List Occurrence := f.occurrencesBelow []

/-- The position of the first free occurrence of a variable among all occurrences. -/
def firstFree (f : Formula) (x : String) : Nat :=
  f.occurrences.findIdx fun o => o.isFree && o.name == x

/-- An occurrence is free for the quantifiers around it exactly if it is one of the free occurrences
and none of the quantifiers further out binds it. -/
theorem map_name_filter_isFree (around : List String) (f : Formula) :
    ((f.occurrencesBelow around).filter Occurrence.isFree).map Occurrence.name =
      f.free.filter fun x => x ∉ around := by
  induction f generalizing around with
  | prop p args =>
    rw [occurrencesBelow, List.filter_map, List.map_map]
    exact List.map_id _
  | var x =>
    by_cases h : x ∈ around <;> simp [occurrencesBelow, free, Occurrence.isFree, h]
  | neg f ih => exact ih around
  | binary op l r ihl ihr =>
    rw [occurrencesBelow, List.filter_append, List.map_append, ihl, ihr, free, List.filter_append]
  | quant q x f ih => rw [occurrencesBelow, ih, free, filter_not_mem_cons]

theorem map_name_filter_isFree_occurrences (f : Formula) :
    (f.occurrences.filter Occurrence.isFree).map Occurrence.name = f.free := by
  rw [occurrences, map_name_filter_isFree, List.filter_eq_self.mpr (by simp)]

/-- A variable is free exactly if it occurs below no quantifier that binds it. -/
theorem mem_free_iff_exists_occurrence {f : Formula} {x : String} :
    x ∈ f.free ↔ ∃ o ∈ f.occurrences, o.name = x ∧ x ∉ o.around := by
  rw [← map_name_filter_isFree_occurrences]
  simp only [List.mem_map, List.mem_filter]
  constructor
  · rintro ⟨o, ⟨ho, hfree⟩, rfl⟩
    exact ⟨o, ho, rfl, by simpa [Occurrence.isFree] using hfree⟩
  · rintro ⟨o, ho, rfl, hfree⟩
    exact ⟨o, ⟨ho, by simpa [Occurrence.isFree] using hfree⟩, rfl⟩

/-! ### First occurrences -/

/-- The first occurrences among the free ones are in the order in which they are met. -/
theorem pairwise_findIdx_eraseDups (os : List Occurrence) :
    ((os.filter Occurrence.isFree).map Occurrence.name).eraseDups.Pairwise fun x y =>
      os.findIdx (fun o => o.isFree && o.name == x) <
        os.findIdx fun o => o.isFree && o.name == y := by
  induction os with
  | nil => exact List.Pairwise.nil
  | cons o os ih =>
    cases hfree : o.isFree with
    | false =>
      -- every position is one further on
      rw [List.filter_cons_of_neg (by simp [hfree])]
      simpa [List.findIdx_cons, hfree] using ih
    | true =>
      have hother {x : String} (hx : o.name ≠ x) :
          (o :: os).findIdx (fun o => o.isFree && o.name == x) =
            os.findIdx (fun o => o.isFree && o.name == x) + 1 := by
        simp [List.findIdx_cons, beq_false_of_ne hx]
      -- the other variables are those that are left when this one is taken out
      have hne {x : String} {xs : List String} (hx : x ∈ xs.filter fun y => !y == o.name) :
          o.name ≠ x := by
        rintro rfl
        simp at hx
      rw [List.filter_cons_of_pos hfree, List.map_cons, List.eraseDups_cons, eraseDups_filter]
      refine List.pairwise_cons.mpr ⟨fun y hy => ?_, ?_⟩
      · rw [hother (hne hy)]
        simp [List.findIdx_cons, hfree]
      · refine (ih.filter _).imp_of_mem fun {x y} hx hy hlt => ?_
        rw [hother (hne hx), hother (hne hy)]
        exact Nat.succ_lt_succ hlt

theorem pairwise_firstFree (f : Formula) :
    f.free.eraseDups.Pairwise fun x y => f.firstFree x < f.firstFree y := by
  rw [← map_name_filter_isFree_occurrences]
  exact pairwise_findIdx_eraseDups f.occurrences

end Formula

/-! ### Collecting with a stack -/

/-- What is known on the way through a formula. -/
structure Collector where
  /-- The variables of the quantifiers around, the innermost one on top. -/
  bound : List String
  /-- The variables that were met free so far, each once. -/
  found : List String
deriving DecidableEq, Repr

namespace Collector

/-- A part of the way, which may end at the limit of levels. -/
abbrev Run (α : Type) := StateT Collector (Except PassError) α

/-- Adds a variable that is met, unless it is bound around or was found before. -/
def meet (x : String) : Run Unit :=
  modify fun c =>
    if x ∈ c.bound ∨ x ∈ c.found then c else { c with found := c.found ++ [x] }

/-- Puts the variable of a quantifier on the stack. -/
def push (x : String) : Run Unit :=
  modify fun c => { c with bound := x :: c.bound }

/-- Takes the variable on top off the stack. -/
def pop : Run Unit :=
  modify fun c => { c with bound := c.bound.tail }

/-- The way through a formula, descending at most `n` levels out of `limit`. -/
def collect (limit : Nat) : (n : Nat) → Formula → Run Unit
  | _, .prop _ args => forM (Term.varsOf args) meet
  | _, .var x => meet x
  | 0, .neg _ | 0, .binary .. | 0, .quant .. => throw (.recursionLimit limit)
  | n + 1, .neg f => collect limit n f
  | n + 1, .binary _ l r => do
    collect limit n l
    collect limit n r
  | n + 1, .quant _ x f => do
    push x
    collect limit n f
    pop

/-- The variables that are found on the way through the whole formula. -/
def collected (limits : Limits) (f : Formula) : Except PassError (List String) := do
  let (_, c) ← (collect limits.depth limits.depth f).run ⟨[], []⟩
  return c.found

/-- A single variable is found if it is free and new. -/
theorem run_meet (x : String) (bound seen : List String) :
    (meet x).run ⟨bound, seen.eraseDups⟩ =
      .ok ((), ⟨bound, (seen ++ [x].filter fun y => y ∉ bound).eraseDups⟩) := by
  show Except.ok ((), if _ then _ else _) = _
  by_cases hbound : x ∈ bound
  · simp [hbound]
  · by_cases hseen : x ∈ seen
    · simp [hbound, hseen, List.eraseDups_append, List.removeAll]
    · simp [hbound, hseen, List.eraseDups_append, List.removeAll, List.eraseDups_cons]

theorem run_forM_meet (xs bound seen : List String) :
    (forM xs meet).run ⟨bound, seen.eraseDups⟩ =
      .ok ((), ⟨bound, (seen ++ xs.filter fun y => y ∉ bound).eraseDups⟩) := by
  induction xs generalizing seen with
  | nil =>
    rw [List.filter_nil, List.append_nil, List.forM_nil, StateT.run_pure]
    rfl
  | cons x xs ih =>
    rw [List.forM_cons, StateT.run_bind, run_meet]
    show (forM xs meet).run _ = _
    rw [ih, List.append_assoc, ← List.filter_append, List.singleton_append]

/-- On its way through a formula a collector finds what is free there and not bound around, after
what it has found before. Its stack is in the end what it was. -/
theorem run_collect (limit n : Nat) (f : Formula) (bound seen : List String) :
    (collect limit n f).run ⟨bound, seen.eraseDups⟩ =
      withLevels limit f.height n
        ((), ⟨bound, (seen ++ f.free.filter fun y => y ∉ bound).eraseDups⟩) := by
  induction f generalizing n bound seen with
  | prop p args =>
    rw [collect, run_forM_meet, Formula.height, withLevels_zero, Formula.free]
  | var x => rw [collect, run_meet, Formula.height, withLevels_zero, Formula.free]
  | neg f ih =>
    cases n with
    | zero => rfl
    | succ n => rw [collect, ih, Formula.height, withLevels_succ_succ, Formula.free]
  | binary op l r ihl ihr =>
    cases n with
    | zero => rfl
    | succ n =>
      rw [collect, StateT.run_bind, ihl, Formula.height, withLevels_succ_succ]
      refine withLevels_bind ?_
      rw [ihr, Formula.free, List.filter_append, List.append_assoc]
  | quant q x f ih =>
    cases n with
    | zero => rfl
    | succ n =>
      have hbody := ih n (x :: bound) seen
      rw [Formula.height, withLevels_succ_succ, Formula.free, Formula.filter_not_mem_cons]
      -- what `pop` takes off the stack is what `push` has put there
      show (do
        let (_, c) ← (collect limit n f).run ⟨x :: bound, seen.eraseDups⟩
        pure ((), { c with bound := c.bound.tail })) = _
      rw [hbody]
      exact withLevels_bind_pure ..

/-- The way through the formula finds the free variables. -/
theorem collected_eq (limits : Limits) (f : Formula) :
    collected limits f = f.freeVariables limits := by
  have hrun := run_collect limits.depth limits.depth f [] []
  rw [List.nil_append, List.filter_eq_self.mpr (by simp)] at hrun
  rw [Formula.freeVariables_eq, collected]
  show ((collect limits.depth limits.depth f).run ⟨[], [].eraseDups⟩ >>= _) = _
  rw [hrun]
  exact withLevels_bind_pure ..

end Collector

namespace Formula

/-- What the free variables are. They are found on one way through the formula with a stack of bound
variables. They are listed without repetition and in the order of their first free occurrences, and
are exactly the variables that occur somewhere below no quantifier of their own, whatever is bound
elsewhere. The truth of the formula depends on their values alone. -/
theorem firstOccurrences_freeVariables {limits : Limits} {f : Formula} {xs : List String}
    (h : f.freeVariables limits = .ok xs) :
    Collector.collected limits f = .ok xs ∧ xs.Nodup ∧
      (∀ x, x ∈ xs ↔ ∃ o ∈ f.occurrences, o.name = x ∧ x ∉ o.around) ∧
      (xs.Pairwise fun x y => f.firstFree x < f.firstFree y) ∧
      (∀ op l r, f = binary op l r → ∀ x,
        (x ∈ l.boundNames ∧ x ∈ r.free) ∨ (x ∈ l.free ∧ x ∈ r.boundNames) → x ∈ xs) ∧
      ∀ {D : Type u} (I : Interpretation D) (e e' : String → D),
        (∀ x ∈ xs, e x = e' x) → (f.Holds I e ↔ f.Holds I e') := by
  have hcollected := Collector.collected_eq limits f
  rw [h] at hcollected
  rw [freeVariables_eq, withLevels_eq_ok_iff] at h
  obtain ⟨-, rfl⟩ := h
  have hmem (x : String) : x ∈ f.free.eraseDups ↔ x ∈ f.free := List.mem_eraseDups
  refine ⟨hcollected, ?_, fun x => ?_, pairwise_firstFree f, ?_, fun I e e' he => ?_⟩
  · -- of two equal names neither comes first
    refine (pairwise_firstFree f).imp fun {x y} hlt => ?_
    rintro rfl
    exact Nat.lt_irrefl _ hlt
  · rw [hmem, mem_free_iff_exists_occurrence]
  · rintro op l r rfl x hx
    rw [hmem, free, List.mem_append]
    exact hx.elim (fun hx => .inr hx.2) fun hx => .inl hx.1
  · exact holds_congr fun x hx => he x ((hmem x).mpr hx)

/-- A variable that is bound on the left, twice, and free on the right. -/
theorem firstOccurrences_freeVariables_shadowed :
    let l := quant .universal "x" (binary .disj
      (neg (quant .existential "x" (prop "P" [.app "f" [.var "x", .var "z"]])))
      (binary .implies (var "x") (var "y")))
    let f := binary .conj l (prop "Q" [.var "z", .var "x", .var "w"])
    f.freeVariables {} = .ok ["z", "y", "x", "w"] ∧
      Collector.collected {} f = .ok ["z", "y", "x", "w"] ∧
      (⟨"x", ["x"]⟩ ∈ f.occurrences ∧ ⟨"x", []⟩ ∈ f.occurrences ∧ "x" ∈ l.boundNames) ∧
      (∃ o ∈ f.occurrences, o.name = "x" ∧ "x" ∉ o.around) ∧
      f.firstFree "y" < f.firstFree "x" ∧
      ∀ (I : Interpretation Nat) (e : String → Nat),
        f.Holds I (Function.update e "v" 0) ↔ f.Holds I e := by
  intro l f
  have hf : f.freeVariables {} = .ok ["z", "y", "x", "w"] := by decide +kernel
  obtain ⟨hcollected, -, hmem, horder, -, hholds⟩ := firstOccurrences_freeVariables hf
  refine ⟨hf, hcollected, by decide, (hmem "x").mp (by decide), ?_, fun I e => ?_⟩
  · exact List.rel_of_pairwise_cons (List.pairwise_cons.mp horder).2 (by decide)
  · refine hholds I _ e fun x hx => Function.update_of_ne ?_ 0 e
    rintro rfl
    exact absurd hx (by decide)

end Formula

end ClausalForm
