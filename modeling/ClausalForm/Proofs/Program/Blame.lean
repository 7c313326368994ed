import ClausalForm.Proofs.Program.Attempts
import ClausalForm.Proofs.Program.RoundTrip
import Mathlib.Data.List.Forall2
import Mathlib.Data.List.Nodup
import Mathlib.Data.List.Perm.Subperm

/-!
# The tokens that diagnostics blame

Every diagnostic is about one token: the stray one, the parenthesis that is not closed, the command
that lacks its operand or its variable, or the one whose operand is a level too deep. No token is
blamed twice, so there are no more diagnostics than tokens before the end.

A token is given with all that follow it, since two diagnostics look at the next one: the offset of
a variable that is missing is where it would stand, and that of an operand that is too deep is where
it would start.

## Main definitions

* `Blames`: the token that a diagnostic is about
* `Reading.Blamed`: different tokens for all diagnostics between two points of the reading

## Main results

* `Reading.Attempt.blamed`: the diagnostics of an attempt blame tokens that it takes
* `Program.exists_places_of_ofTokens`: the diagnostics of a program
-/

namespace ClausalForm

open Reading (frontToken frontOffset isStray)

/-- The diagnostic is about the first of the tokens, in a sequence that may have `limit` levels and
whose last token is at `last`. -/
inductive Blames (limit last : Nat) : Diagnostic → List Located → Prop
  /-- A stray token is passed over. -/
  | stray {t : Located} {ts : List Located} (ht : isStray t.token) :
    Blames limit last ⟨.unexpectedToken t.token, t.offset⟩ (t :: ts)
  | unclosed {offset : Nat} {ts : List Located} :
    Blames limit last ⟨.unclosedParen, offset⟩ (⟨.openParen, offset⟩ :: ts)
  | operand {c : Command} {offset : Nat} {ts : List Located} :
    Blames limit last ⟨.missingOperand c, offset⟩ (⟨.command c, offset⟩ :: ts)
  /-- What follows a quantifier is no variable; it may be the end. -/
  | unbound {q : Quantifier} {offset : Nat} {ts : List Located}
    (hts : ∀ x, frontToken ts ≠ .var x) :
    Blames limit last ⟨.missingBoundVariable q (frontToken ts), frontOffset last ts⟩
      (⟨.command (.quantifier q), offset⟩ :: ts)
  /-- The operand of a negation is too deep. -/
  | deepNeg {offset : Nat} {ts : List Located} :
    Blames limit last ⟨.nestingTooDeep limit, frontOffset last ts⟩ (⟨.command .neg, offset⟩ :: ts)
  /-- The body of a quantifier is too deep. -/
  | deepQuant {q : Quantifier} {x : String} {offset offset' : Nat} {ts : List Located} :
    Blames limit last ⟨.nestingTooDeep limit, frontOffset last ts⟩
      (⟨.command (.quantifier q), offset⟩ :: ⟨.var x, offset'⟩ :: ts)
  /-- The inside of a parenthesis is too deep. -/
  | deepParens {offset : Nat} {ts : List Located} :
    Blames limit last ⟨.nestingTooDeep limit, frontOffset last ts⟩ (⟨.openParen, offset⟩ :: ts)
  /-- The right operand of a connective is too deep. -/
  | deepJoin {op : Connective} {offset : Nat} {ts : List Located} :
    Blames limit last ⟨.nestingTooDeep limit, offset⟩ (⟨.command (.connective op), offset⟩ :: ts)

namespace Reading

/-- Between a point with the tokens `ts` ahead and a later one with the tokens `rest` ahead, the
diagnostics are about tokens that are taken there, each about a token of its own. -/
def Blamed (limit last : Nat) (ts rest : List Located) (ds : List Diagnostic) : Prop :=
  rest <:+ ts ∧ ∃ places : List (List Located),
    List.Forall₂ (Blames limit last) ds places ∧ places.Nodup ∧
      ∀ us ∈ places, us <:+ ts ∧ rest.length < us.length

namespace Blamed

variable {limit last : Nat} {t : Located} {ts mid rest : List Located} {d : Diagnostic}
  {ds ds' : List Diagnostic}

theorem nil (h : rest <:+ ts) : Blamed limit last ts rest [] :=
  ⟨h, [], .nil, List.nodup_nil, nofun⟩

theorem append (h : Blamed limit last ts mid ds) (h' : Blamed limit last mid rest ds') :
    Blamed limit last ts rest (ds ++ ds') := by
  obtain ⟨hmid, places, hblames, hnodup, hplaces⟩ := h
  obtain ⟨hrest, places', hblames', hnodup', hplaces'⟩ := h'
  refine ⟨hrest.trans hmid, places ++ places', List.rel_append hblames hblames', ?_, ?_⟩
  · -- the tokens of the first part come before the point in the middle
    refine List.nodup_append.mpr ⟨hnodup, hnodup', fun us hus vs hvs heq => ?_⟩
    have hlt := (hplaces us hus).2
    have hle := (hplaces' vs hvs).1.length_le
    rw [heq] at hlt
    omega
  · refine List.forall_mem_append.mpr ⟨fun us hus => ⟨(hplaces us hus).1, ?_⟩, fun us hus => ?_⟩
    · exact Nat.lt_of_le_of_lt hrest.length_le (hplaces us hus).2
    · exact ⟨(hplaces' us hus).1.trans hmid, (hplaces' us hus).2⟩

/-- Tokens that are taken before or after make no difference. -/
theorem mono {ts' rest' : List Located} (h : Blamed limit last ts rest ds) (hts : ts <:+ ts')
    (hrest : rest' <:+ rest) : Blamed limit last ts' rest' ds := by
  have hbefore : Blamed limit last ts' rest ([] ++ ds) := (nil hts).append h
  have hafter := hbefore.append (nil hrest)
  rwa [List.nil_append, List.append_nil] at hafter

/-- A diagnostic may be about the first token if all others are about later ones. -/
theorem concat (h : Blamed limit last ts rest ds) (hd : Blames limit last d (t :: ts)) :
    Blamed limit last (t :: ts) rest (ds ++ [d]) := by
  obtain ⟨hrest, places, hblames, hnodup, hplaces⟩ := h
  refine ⟨hrest.trans (List.suffix_cons t ts), places ++ [t :: ts],
    List.rel_append hblames (.cons hd .nil), ?_, ?_⟩
  · refine List.nodup_append.mpr ⟨hnodup, List.nodup_singleton _, fun us hus vs hvs heq => ?_⟩
    have hle := (hplaces us hus).1.length_le
    rw [heq, List.mem_singleton.mp hvs, List.length_cons] at hle
    omega
  · refine List.forall_mem_append.mpr ⟨fun us hus => ⟨?_, (hplaces us hus).2⟩, ?_⟩
    · exact (hplaces us hus).1.trans (List.suffix_cons t ts)
    · exact List.forall_mem_singleton.mpr ⟨List.suffix_rfl, Nat.lt_succ_of_le hrest.length_le⟩

theorem single (hd : Blames limit last d (t :: ts)) : Blamed limit last (t :: ts) ts [d] :=
  concat (nil List.suffix_rfl) hd

theorem cons (t : Located) (h : Blamed limit last ts rest ds) :
    Blamed limit last (t :: ts) rest ds :=
  h.mono (List.suffix_cons t ts) List.suffix_rfl

end Blamed

/-- All diagnostics of a reply, that of a fault last. -/
def Reply.diagnostics : Reply → List Diagnostic
  | formula _ _ passed | nothing _ passed => passed
  | fault d _ passed => passed ++ [d]

theorem Reply.diagnostics_after (ds : List Diagnostic) (r : Reply) :
    (r.after ds).diagnostics = ds ++ r.diagnostics := by
  cases r with
  | formula | nothing => rfl
  | fault => exact List.append_assoc ..

variable {limit last n : Nat} {ts : List Located} {r : Reply}

theorem Blamed.operand {c : Command} {offset : Nat} {build : Formula → Formula}
    (h : Blamed limit last ts r.rest r.diagnostics) :
    Blamed limit last (⟨.command c, offset⟩ :: ts) (r.operand c offset build).rest
      (r.operand c offset build).diagnostics := by
  cases r with
  | formula | fault => exact h.cons _
  | nothing => exact h.concat .operand

theorem Blamed.closed {offset : Nat} (h : Blamed limit last ts r.rest r.diagnostics) :
    Blamed limit last (⟨.openParen, offset⟩ :: ts) (r.closed offset).rest
      (r.closed offset).diagnostics := by
  unfold Reply.closed
  split
  · exact (h.mono List.suffix_rfl (List.suffix_cons _ _)).cons _
  · exact h.concat .unclosed
  · exact h.concat .unclosed
  · exact h.cons _

/-- The diagnostics of an attempt are about tokens that it takes. -/
theorem Attempt.blamed {task : Task} (h : Attempt limit last task n ts r) :
    Blamed limit last ts r.rest r.diagnostics := by
  induction h with
  | stray ht _ ih =>
    rw [Reply.rest_after, Reply.diagnostics_after]
    exact (Blamed.single (.stray ht)).append ih
  | prop | var => exact .nil (List.suffix_cons _ _)
  | neg _ ih => exact ih.operand
  | negTooDeep => exact .single .deepNeg
  | @quant n offset offset' q x ts r _ ih =>
    -- between the quantifier and its body is the variable
    exact (ih.cons ⟨.var x, offset'⟩).operand
  | quantTooDeep => exact (Blamed.nil (List.suffix_cons _ _)).concat .deepQuant
  | quantUnbound hts => exact .single (.unbound hts)
  | parens _ ih => exact ih.closed
  | parensTooDeep => exact .single .deepParens
  | nothing | stop => exact .nil List.suffix_rfl
  | chain _ _ ihfirst ihrest =>
    rw [Reply.rest_after, Reply.diagnostics_after]
    exact ihfirst.append ihrest
  | noChain _ _ ih => exact ih
  | joinTooDeep => exact .single .deepJoin
  | join _ _ _ ihright ihrest =>
    rw [Reply.rest_after, Reply.diagnostics_after]
    exact (ihright.cons _).append ihrest
  | joinNothing _ _ ih => exact ih.concat .operand
  | joinFault _ _ ih => exact ih.cons _

end Reading

/-! ### Programs -/

namespace Program

open Reading (Attempt Blamed Leaves attempt_iff beforeEnd fromEnd)

variable {limit last : Nat}

theorem leaves_dropCloseParens (ts : List Located) : Leaves ts (dropCloseParens ts) := by
  refine ⟨_, List.takeWhile_append_dropWhile.symm, fun t ht heof => ?_⟩
  have hclose := List.mem_takeWhile_imp ht
  rw [heof] at hclose
  cases hclose

/-- The diagnostics of a program are about tokens before the end. -/
theorem blamed_read (ts : List Located) :
    Blamed limit last ts (fromEnd ts) (read limit last ts).diagnostics := by
  fun_induction read limit last ts with
  | case1 ts hfront =>
    rw [Reading.fromEnd_of_frontToken hfront]
    exact .nil List.suffix_rfl
  | case2 ts hfront f rest passed hread ih =>
    have hattempt : Attempt limit last (.expression 0) limit ts (.formula f rest passed) :=
      attempt_iff.mpr hread
    rw [hattempt.leaves.fromEnd_eq]
    exact hattempt.blamed.append ih
  | case3 ts hfront rest passed hread =>
    have hattempt : Attempt limit last (.expression 0) limit ts (.nothing rest passed) :=
      attempt_iff.mpr hread
    rw [hattempt.leaves.fromEnd_eq, Reading.fromEnd_of_frontToken (hattempt.leavesEnd.1 rfl)]
    exact hattempt.blamed
  | case4 ts hfront d rest passed hread ih =>
    have hattempt : Attempt limit last (.expression 0) limit ts (.fault d rest passed) :=
      attempt_iff.mpr hread
    have hdrop := leaves_dropCloseParens rest
    rw [hattempt.leaves.fromEnd_eq, show Reading.Reply.rest _ = rest from rfl, hdrop.fromEnd_eq]
    exact hattempt.blamed.append (ih.mono hdrop.isSuffix List.suffix_rfl)

/-- Every diagnostic of a program is about a token before the end, no two of them are about the same
one, and so there are no more of them than such tokens. -/
theorem exists_places_of_ofTokens (limit : Nat) (ts : List Located) :
    (∃ places : List Nat, places.Nodup ∧ (∀ i ∈ places, i < (beforeEnd ts).length) ∧
      List.Forall₂ (fun d i => Blames limit (lastOffset ts) d (ts.drop i))
        (ofTokens limit ts).diagnostics places) ∧
      (ofTokens limit ts).diagnostics.length ≤ (beforeEnd ts).length := by
  obtain ⟨-, suffixes, hblames, hnodup, hsuffixes⟩ :
    Blamed limit (lastOffset ts) ts (fromEnd ts) (ofTokens limit ts).diagnostics := blamed_read ts
  -- a token is at the place at which its suffix starts
  let places := suffixes.map fun us => ts.length - us.length
  have hdrop : places.map (fun i => ts.drop i) = suffixes := by
    rw [List.map_map]
    refine (List.map_congr_left fun us hus => ?_).trans (List.map_id suffixes)
    exact (List.suffix_iff_eq_drop.mp (hsuffixes us hus).1).symm
  have hplaces : places.Nodup := by
    rw [← hdrop] at hnodup
    exact hnodup.of_map
  have hwithin : ∀ i ∈ places, i < (beforeEnd ts).length := by
    have hlength := congrArg List.length (Reading.beforeEnd_append_fromEnd ts)
    rw [List.length_append] at hlength
    refine List.forall_mem_map.mpr fun us hus => ?_
    have hle := (hsuffixes us hus).1.length_le
    have hlt := (hsuffixes us hus).2
    omega
  have hforall : List.Forall₂ (fun d i => Blames limit (lastOffset ts) d (ts.drop i))
      (ofTokens limit ts).diagnostics places := by
    rw [← hdrop] at hblames
    exact List.forall₂_map_right_iff.mp hblames
  refine ⟨⟨places, hplaces, hwithin, hforall⟩, ?_⟩
  have hsubset : places ⊆ List.range (beforeEnd ts).length :=
    fun i hi => List.mem_range.mpr (hwithin i hi)
  have hle := (List.subperm_of_subset hplaces hsubset).length_le
  rwa [List.length_range, ← hforall.length_eq] at hle

end Program

end ClausalForm
