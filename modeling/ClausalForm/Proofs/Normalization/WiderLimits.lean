import ClausalForm.Proofs.NormalForm.WiderLimits
import ClausalForm.Proofs.Normalization.Run
import ClausalForm.Proofs.Program.WiderLimit

/-!
# Wider limits

Limits only reject. A program in which no statement was too deep for its limit is the same within a
wider one, with its statements and its diagnostics, and so is what a pass or the normalization comes
to, if it succeeds.

## Main results

* `Normalization.IsRun.of_le`: a run is a run within wider limits
* `eq_within_wider_limits`: limits change no program, no pass and no normalization
-/

namespace ClausalForm

/-- A run is a run within wider limits. -/
theorem Normalization.IsRun.of_le {limits limits' : Limits} {f : Formula} {r : Normalization}
    (h : r.IsRun limits f) (hdepth : limits.depth ≤ limits'.depth)
    (hsuffix : limits.suffix ≤ limits'.suffix) : r.IsRun limits' f :=
  have hpass (g : Formula) : g.PassesPersist limits limits' := g.passesPersist hdepth hsuffix
  { given := h.given
    implicationFree := (hpass f).eliminateImplication _ h.implicationFree
    negationPushed := (hpass _).pushNegation _ h.negationPushed
    doubleNegationFree := (hpass _).removeDoubleNegation _ h.doubleNegationFree
    standardized := (hpass _).standardize _ h.standardized
    prenex := (hpass _).hoistQuantifiers _ h.prenex
    skolemized := (hpass _).skolemize _ h.skolemized
    quantifierFree := h.quantifierFree
    cnf := (hpass _).distributeToCnf _ h.cnf
    cnfPrenex := (hpass _).toConjunctivePrenex _ h.cnfPrenex
    dnfPrenex := (hpass _).toDisjunctivePrenex _ h.dnfPrenex }

/-- Limits only reject. What is read within a limit that no statement was too deep for is read
within every wider one, and what a pass or the normalization comes to it comes to within wider
limits as well. -/
theorem eq_within_wider_limits :
    (∀ (limit limit' : Nat) (ts : List Located), limit ≤ limit' →
      (∀ d ∈ (Program.ofTokens limit ts).diagnostics, ∀ k, d.error ≠ .nestingTooDeep k) →
        Program.ofTokens limit' ts = Program.ofTokens limit ts) ∧
    ∀ limits limits' : Limits, limits.depth ≤ limits'.depth → limits.suffix ≤ limits'.suffix →
      ∀ f : Formula, f.PassesPersist limits limits' ∧
        ∀ r, (f.normalize limits).result = .ok r → (f.normalize limits').result = .ok r := by
  refine ⟨fun limit limit' ts hle h => Program.read_eq_of_le hle h,
    fun limits limits' hdepth hsuffix f => ⟨f.passesPersist hdepth hsuffix, fun r hr => ?_⟩⟩
  rw [Formula.normalize_eq_ok_iff] at hr ⊢
  exact hr.of_le hdepth hsuffix

set_option maxRecDepth 10000 in
/-- A program with two faults that were passed over, and a formula that takes four levels and one
suffix. With a level or a suffix less it is rejected. -/
theorem eq_within_wider_limits_default :
    let ts : List Located := [⟨.command .neg, 0⟩, ⟨.openParen, 5⟩, ⟨.prop "P" [] "P", 6⟩,
      ⟨.command (.connective .conj), 8⟩, ⟨.eof, 13⟩]
    let f : Formula := .binary .conj (.quant .universal "x" (.prop "P" [.var "x"]))
      (.neg (.quant .universal "x" (.prop "Q" [.var "x"])))
    Program.ofTokens 100 ts = ⟨[.neg (.prop "P" [])],
        [⟨.missingOperand (.connective .conj), 8⟩, ⟨.unclosedParen, 5⟩]⟩ ∧
      (f.normalize { depth := 3 }).result = .error (.recursionLimit 3) ∧
      (f.normalize { suffix := 0 }).result = .error (.namesExhausted "x" 0) ∧
      ∃ r, (f.normalize { depth := 4, suffix := 1 }).result = .ok r ∧
        (f.normalize {}).result = .ok r := by
  intro ts f
  have hread : Program.ofTokens 3 ts = ⟨[.neg (.prop "P" [])],
      [⟨.missingOperand (.connective .conj), 8⟩, ⟨.unclosedParen, 5⟩]⟩ := by decide +kernel
  have hsame := eq_within_wider_limits.1 3 100 ts (by decide) (by rw [hread]; simp)
  have hrun : (f.normalize { depth := 4, suffix := 1 }).result.map Normalization.given =
      .ok f := by
    decide +kernel
  obtain ⟨r, hr, -⟩ := exists_eq_ok_of_map hrun
  obtain ⟨-, hpersists⟩ := eq_within_wider_limits.2 { depth := 4, suffix := 1 } {} (by decide)
    (by decide) f
  exact ⟨hsame.trans hread, by decide +kernel, by decide +kernel, r, hr, hpersists r hr⟩

end ClausalForm
