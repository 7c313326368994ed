import ClausalForm.Formula
import ClausalForm.Limits
import Mathlib.Data.Nat.Basic

/-!
# Levels of descent

A pass descends a formula and pays one level at each node that is no atom. What it answers is
therefore settled by two things that do not know of levels: the answer that it has with levels
enough, and the number of levels that this answer takes.

## Main definitions

* `Formula.height`: the number of nodes above the deepest atom
* `withLevels`: an answer that takes a number of levels
* `IsLimited`: a computation that reports the limit of levels under a condition, and never fails
  otherwise
* `Persists`: an answer that is there, if at all, is also that of another computation

## Main results

* `withLevels_bind`: two steps on the same level take the greater of their numbers
* `withLevels_eq_ok_iff`: when there are levels enough
* `isLimited_withLevels`: when there are not
* `levels_induction`: induction on the levels of two computations at once
* `Persists.withLevels`: an answer that takes a number of levels persists with more of them
-/

namespace ClausalForm

/-- The number of nodes above the deepest atom. -/
def Formula.height : Formula → Nat
  | prop .. | var _ => 0
  | neg f | quant _ _ f => f.height + 1
  | binary _ l r => max l.height r.height + 1

variable {α β : Type}

/-- The answer `a`, which takes `need` levels, where `n` are left out of `limit`. -/
def withLevels (limit need n : Nat) (a : α) : Except PassError α :=
  if need ≤ n then .ok a else .error (.recursionLimit limit)

@[simp] theorem withLevels_zero (limit n : Nat) (a : α) : withLevels limit 0 n a = .ok a := by
  simp [withLevels]

@[simp] theorem withLevels_succ_zero (limit k : Nat) (a : α) :
    withLevels limit (k + 1) 0 a = .error (.recursionLimit limit) := by
  simp [withLevels]

@[simp] theorem withLevels_succ_succ (limit k n : Nat) (a : α) :
    withLevels limit (k + 1) (n + 1) a = withLevels limit k n a := by
  simp [withLevels]

/-- An answer is there exactly if there are levels enough for it. -/
theorem withLevels_eq_ok_iff {limit k n : Nat} {a b : α} :
    withLevels limit k n a = .ok b ↔ k ≤ n ∧ a = b := by
  by_cases h : k ≤ n <;> simp [withLevels, h]

/-- The computation reports that `limit` has been reached exactly under the condition `p`, and has
an answer otherwise. -/
structure IsLimited (limit : Nat) (x : Except PassError α) (p : Prop) : Prop where
  error_iff : x = .error (.recursionLimit limit) ↔ p
  exists_ok : ¬ p → ∃ a, x = .ok a

theorem isLimited_withLevels {limit need n : Nat} {p : Prop} (hp : p ↔ n < need)
    (a : α) : IsLimited limit (withLevels limit need n a) p := by
  rw [withLevels]
  split
  · rename_i hle
    have hnot : ¬ p := by
      rw [hp]
      omega
    refine ⟨iff_of_false ?_ hnot, fun _ => ⟨a, rfl⟩⟩
    intro h
    cases h
  · rename_i hlt
    have hp' : p := by
      rw [hp]
      omega
    exact ⟨iff_of_true rfl hp', fun hnot => absurd hp' hnot⟩

/-- A step without levels of its own changes the answer only. -/
@[simp] theorem withLevels_bind_pure (limit k n : Nat) (a : α) (g : α → β) :
    (withLevels limit k n a >>= fun x => pure (g x)) = withLevels limit k n (g a) := by
  unfold withLevels
  split <;> rfl

@[simp] theorem withLevels_map (limit k n : Nat) (a : α) (g : α → β) :
    (withLevels limit k n a).map g = withLevels limit k n (g a) := by
  unfold withLevels
  split <;> rfl

/-- Two steps that start on the same level take the greater of their numbers of levels. -/
theorem withLevels_bind {limit k k' n : Nat} {a : α} {b : β} {next : α → Except PassError β}
    (h : next a = withLevels limit k' n b) :
    (withLevels limit k n a >>= next) = withLevels limit (max k k') n b := by
  by_cases hk : k ≤ n
  · have hmax : max k k' ≤ n ↔ k' ≤ n := by omega
    simp only [withLevels, hk, hmax, if_true]
    exact h
  · -- the first step fails, whatever the second one takes
    have hmax : ¬ max k k' ≤ n := by omega
    simp only [withLevels, hk, hmax, if_false]
    rfl

/-- What is computed from an answer tells that there is one. -/
theorem exists_eq_ok_of_map {ε : Type} {x : Except ε α} {g : α → β} {b : β}
    (h : x.map g = .ok b) : ∃ a, x = .ok a ∧ g a = b := by
  cases x with
  | ok a => exact ⟨a, rfl, Except.ok.inj h⟩
  | error e => cases h

theorem eq_error_of_map {ε : Type} {x : Except ε α} {g : α → β} {e : ε}
    (h : x.map g = .error e) : x = .error e := by
  cases x with
  | ok a => cases h
  | error e' => exact congrArg _ (Except.error.inj h)

/-- A step that succeeded in two parts. -/
theorem bind_eq_ok_iff {ε : Type} {x : Except ε α} {next : α → Except ε β} {b : β} :
    (x >>= next) = .ok b ↔ ∃ a, x = .ok a ∧ next a = .ok b := by
  cases x with
  | ok a =>
    constructor
    · intro h
      exact ⟨a, rfl, h⟩
    · rintro ⟨a', ha, h⟩
      cases ha
      exact h
  | error e =>
    constructor
    · intro h
      cases h
    · rintro ⟨_, h, _⟩
      cases h

/-! ### Answers that persist -/

/-- Induction on the levels of two computations that go down together, the second of which has no
fewer levels left. -/
theorem levels_induction {motive : (n n' : Nat) → n ≤ n' → Prop}
    (zero : ∀ n', motive 0 n' n'.zero_le)
    (succ : ∀ n n' (hle : n ≤ n'), motive n n' hle →
      motive (n + 1) (n' + 1) (Nat.succ_le_succ hle)) {n n' : Nat} (hle : n ≤ n') :
    motive n n' hle := by
  induction n generalizing n' with
  | zero => exact zero n'
  | succ n ih =>
    obtain ⟨n', rfl⟩ : ∃ m, n' = m + 1 := Nat.exists_eq_add_of_le' (by omega)
    exact succ n n' (Nat.le_of_succ_le_succ hle) (ih _)

/-- The answer of `x`, if it has one, is the answer of `y`. -/
def Persists {ε : Type} (x y : Except ε α) : Prop := ∀ a, x = .ok a → y = .ok a

namespace Persists

variable {ε : Type}

theorem refl (x : Except ε α) : Persists x x := fun _ => id

theorem error (e : ε) (y : Except ε α) : Persists (.error e) y := nofun

theorem bind {x y : Except ε α} {next next' : α → Except ε β} (h : Persists x y)
    (hnext : ∀ a, Persists (next a) (next' a)) : Persists (x >>= next) (y >>= next') := by
  intro b hb
  obtain ⟨a, ha, hb⟩ := bind_eq_ok_iff.mp hb
  exact bind_eq_ok_iff.mpr ⟨a, h a ha, hnext a b hb⟩

theorem withLevels {limit limit' k n n' : Nat} (hle : n ≤ n') (a : α) :
    Persists (withLevels limit k n a) (withLevels limit' k n' a) := by
  intro b hb
  rw [withLevels_eq_ok_iff] at hb ⊢
  exact ⟨Nat.le_trans hb.1 hle, hb.2⟩

end Persists

end ClausalForm
