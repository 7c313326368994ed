import ClausalForm.Proofs.Program.Attempts
import ClausalForm.Proofs.Program.RoundTrip

/-!
# Reading by the grammar

Reading descends by strength and knows of no categories. With levels enough it reads the tokens of
a phrase as the formula of the phrase, up to a connective that belongs to a chain outside.
Conversely, what it has joined so far is at every point a phrase, as tight as the connectives that
may follow are loose. So a token sequence is read without a fault exactly if it is a sequence of
chains of the loosest connective, and the formulas of these are the statements.

## Main definitions

* `Category.barrier`: the strength of the connectives that end a phrase being read
* `Phrase.IsRead`: what the tokens of a phrase are read as
* `Derives`: tokens that are written for a formula at a level of the grammar
* `Reading.IsSound`: what is read is derived

## Main results

* `Phrase.isRead`: phrases are read
* `Reading.isSound`: only phrases are read
* `Program.ofTokens_diagnostics_eq_nil_iff`: the programs without a fault and their statements
-/

namespace ClausalForm

open Reading (Reply primary connectives expression exists_eq_cons_of_map)

/-! ### Phrases are read -/

/-- The connectives that end a phrase of the level while it is read are those with less than this
strength: a chain that is grouped to the left goes on with more operands outside itself. -/
def Category.barrier : Category → Nat
  | primary => 5
  | chain op => op.rightStrength

theorem Connective.precedence_lt_five (op : Connective) : op.precedence < 5 := by
  cases op <;> decide

theorem Connective.rightStrength_le_five (op : Connective) : op.rightStrength ≤ 5 := by
  cases op <;> decide

theorem Connective.barrier_chain_le_operand (op : Connective) :
    (Category.chain op).barrier ≤ op.operand.barrier := by
  cases op <;> decide

theorem Connective.precedence_lt_barrier_operand (op : Connective) :
    op.precedence < op.operand.barrier := by
  cases op <;> decide

theorem endsChain_five (us : List Token) : EndsChain 5 us :=
  fun op _ _ => op.precedence_lt_five

variable {limit last : Nat}

/-- A connective that is strong enough joins the formula after it, and the chain goes on. -/
theorem Reading.connectives_join {n s offset : Nat} {op : Connective} {left right : Formula}
    {ts rest : List Located} (hs : s ≤ op.precedence)
    (h : expression limit last n op.rightStrength ts = .formula right rest []) :
    connectives limit last (n + 1) s left (⟨.command (.connective op), offset⟩ :: ts) =
      connectives limit last n s (.binary op left right) rest := by
  rw [expression] at h
  conv =>
    lhs
    unfold connectives
  simp only [if_pos hs, h, Reply.after_nil]

/-- What the tokens of a phrase are read as with as many levels as there are tokens: a primary as
its formula, and every phrase as its formula with the connectives after it still to come. -/
structure Phrase.IsRead (limit last : Nat) {c : Category} (p : Phrase c) : Prop where
  primary : c = .primary → ∀ (n : Nat) (ts rest : List Located),
    ts.map Located.token = p.tokens → p.tokens.length ≤ n →
    primary limit last n (ts ++ rest) = .formula p.formula rest []
  expression : ∀ (n s : Nat) (ts rest : List Located), ts.map Located.token = p.tokens →
    p.tokens.length ≤ n → s ≤ c.strength → EndsChain c.barrier (rest.map Located.token) →
    ∃ m, n ≤ m + p.tokens.length ∧
      expression limit last n s (ts ++ rest) = connectives limit last m s p.formula rest

namespace Phrase.IsRead

/-- A phrase is read as its formula where its tokens come to an end for the reading as well. -/
theorem formula {c : Category} {p : Phrase c} (h : p.IsRead limit last) {n s : Nat}
    {ts rest : List Located} (hts : ts.map Located.token = p.tokens) (hn : p.tokens.length ≤ n)
    (hs : s ≤ c.strength) (hbarrier : EndsChain c.barrier (rest.map Located.token))
    (hrest : EndsChain s (rest.map Located.token)) :
    Reading.expression limit last n s (ts ++ rest) = .formula p.formula rest [] := by
  obtain ⟨m, _, hread⟩ := h.expression n s ts rest hts hn hs hbarrier
  rw [hread, Reading.connectives_of_ends hrest]

theorem of_primary {p : Phrase .primary}
    (h : ∀ (n : Nat) (ts rest : List Located), ts.map Located.token = p.tokens →
      p.tokens.length ≤ n →
      Reading.primary limit last n (ts ++ rest) = .formula p.formula rest []) :
    p.IsRead limit last := by
  refine ⟨fun _ => h, fun n s ts rest hts hn _ _ => ⟨n, Nat.le_add_right n _, ?_⟩⟩
  rw [Reading.expression, h n ts rest hts hn, Reply.andThen, Reply.after_nil]

theorem prop (name : String) (args : List String) (text : String) :
    (Phrase.prop name args text).IsRead limit last := by
  refine of_primary fun n ts rest hts _ => ?_
  exact (Reading.readsPrimary_prop name args text n ts rest hts).eq_formula (Nat.zero_le n)

theorem var (x : String) : (Phrase.var x).IsRead limit last := by
  refine of_primary fun n ts rest hts _ => ?_
  exact (Reading.readsPrimary_var x n ts rest hts).eq_formula (Nat.zero_le n)

theorem neg {p : Phrase .primary} (h : p.IsRead limit last) : (Phrase.neg p).IsRead limit last := by
  refine of_primary fun n ts₀ rest hts₀ hn => ?_
  obtain ⟨offset, ts, rfl, hts⟩ := exists_eq_cons_of_map hts₀
  rw [Phrase.tokens, List.length_cons] at hn
  obtain ⟨n, rfl⟩ := Nat.exists_eq_add_of_le' (Nat.le_trans (Nat.le_add_left 1 _) hn)
  have hoperand := h.primary rfl n ts rest hts (Nat.le_of_succ_le_succ hn)
  unfold Reading.primary
  show Reply.after [] ((Reading.primary limit last n (ts ++ rest)).operand ..) = _
  rw [hoperand]
  rfl

theorem quant {p : Phrase .primary} (h : p.IsRead limit last) (q : Quantifier) (x : String) :
    (Phrase.quant q x p).IsRead limit last := by
  refine of_primary fun n ts₀ rest hts₀ hn => ?_
  obtain ⟨offset, ts₁, rfl, hts₁⟩ := exists_eq_cons_of_map hts₀
  obtain ⟨offset', ts, rfl, hts⟩ := exists_eq_cons_of_map hts₁
  rw [Phrase.tokens, List.length_cons, List.length_cons] at hn
  obtain ⟨n, rfl⟩ := Nat.exists_eq_add_of_le' (Nat.le_trans (Nat.le_add_left 1 _) hn)
  have hbody := h.primary rfl n ts rest hts (by omega)
  unfold Reading.primary
  show Reply.after [] ((Reading.primary limit last n (ts ++ rest)).operand ..) = _
  rw [hbody]
  rfl

theorem parens {p : Phrase (.chain .iff)} (h : p.IsRead limit last) :
    (Phrase.parens p).IsRead limit last := by
  refine of_primary fun n ts₀ rest hts₀ hn => ?_
  obtain ⟨offset, ts₁, rfl, hts₁⟩ := exists_eq_cons_of_map hts₀
  obtain ⟨ts, closing, rfl, hts, hclosing⟩ := List.map_eq_append_iff.mp hts₁
  obtain ⟨offset', ts', rfl, hts'⟩ := exists_eq_cons_of_map hclosing
  obtain rfl := List.map_eq_nil_iff.mp hts'
  rw [Phrase.tokens, List.length_cons, List.length_append] at hn
  obtain ⟨n, rfl⟩ := Nat.exists_eq_add_of_le' (Nat.le_trans (Nat.le_add_left 1 _) hn)
  -- the closing parenthesis ends the inside, whatever strength is asked for
  have hends (s : Nat) : EndsChain s ((⟨.closeParen, offset'⟩ :: rest).map Located.token) :=
    .closeParen _
  have hinside := h.formula (n := n) hts (by omega) (Nat.zero_le _) (hends _) (hends 0)
  rw [List.cons_append, List.append_assoc]
  unfold Reading.primary
  show Reply.after [] ((Reading.expression limit last n 0
    (ts ++ ⟨.closeParen, offset'⟩ :: rest)).closed offset) = _
  rw [hinside]
  rfl

theorem single {op : Connective} {p : Phrase op.operand} (h : p.IsRead limit last) :
    (Phrase.single p).IsRead limit last := by
  refine ⟨nofun, fun n s ts rest hts hn hs hrest => ?_⟩
  refine h.expression n s ts rest hts hn ?_ (hrest.mono op.barrier_chain_le_operand)
  rw [op.strength_operand]
  exact Nat.le_succ_of_le hs

/-- The step by which a chain is read: once its left part is read, the connective and its right
operand are joined to it, and the reading goes on. -/
theorem exists_connectives_join {c c' : Category} {l : Phrase c} {r : Phrase c'} {op : Connective}
    (hl : l.IsRead limit last) (hr : r.IsRead limit last) (hlbarrier : op.precedence < c.barrier)
    (hlstrength : op.precedence ≤ c.strength) (hrbarrier : op.rightStrength ≤ c'.barrier)
    (hrstrength : op.rightStrength ≤ c'.strength) {n s : Nat} {ts rest : List Located}
    (hts : ts.map Located.token = l.tokens ++ .command (.connective op) :: r.tokens)
    (hn : (l.tokens ++ .command (.connective op) :: r.tokens).length ≤ n) (hs : s ≤ op.precedence)
    (hrest : EndsChain op.rightStrength (rest.map Located.token)) :
    ∃ m, n ≤ m + (l.tokens ++ .command (.connective op) :: r.tokens).length ∧
      Reading.expression limit last n s (ts ++ rest) =
        Reading.connectives limit last m s (.binary op l.formula r.formula) rest := by
  obtain ⟨tsl, ts₁, rfl, htsl, hts₁⟩ := List.map_eq_append_iff.mp hts
  obtain ⟨offset, tsr, rfl, htsr⟩ := exists_eq_cons_of_map hts₁
  rw [List.length_append, List.length_cons] at hn ⊢
  rw [List.append_assoc, List.cons_append]
  obtain ⟨m, hm, hread⟩ := hl.expression n s tsl
    (⟨.command (.connective op), offset⟩ :: (tsr ++ rest)) htsl (by omega) (hs.trans hlstrength)
    (EndsChain.cons_connective_iff.mpr hlbarrier)
  -- the connective takes a level of those that the left part has left
  obtain ⟨m, rfl⟩ := Nat.exists_eq_add_of_le' (show 1 ≤ m by omega)
  have hoperand := hr.formula htsr (show r.tokens.length ≤ m by omega) hrstrength
    (hrest.mono hrbarrier) hrest
  refine ⟨m, by omega, ?_⟩
  rw [hread, Reading.connectives_join hs hoperand]

theorem joinLeft {op : Connective} (h : op.isRightAssociative = false) {l : Phrase (.chain op)}
    {r : Phrase op.operand} (hl : l.IsRead limit last) (hr : r.IsRead limit last) :
    (Phrase.joinLeft h l r).IsRead limit last := by
  refine ⟨nofun, fun n s ts rest hts hn hs hrest => ?_⟩
  have hright : op.rightStrength = op.precedence + 1 := if_neg (by simp [h])
  refine exists_connectives_join hl hr ?_ le_rfl op.barrier_chain_le_operand ?_ hts hn hs hrest
  · exact Nat.lt_of_succ_le hright.ge
  · rw [op.strength_operand]
    exact hright.le

theorem joinRight {op : Connective} (h : op.isRightAssociative = true) {l : Phrase op.operand}
    {r : Phrase (.chain op)} (hl : l.IsRead limit last) (hr : r.IsRead limit last) :
    (Phrase.joinRight h l r).IsRead limit last := by
  refine ⟨nofun, fun n s ts rest hts hn hs hrest => ?_⟩
  have hright : op.rightStrength = op.precedence := if_pos h
  refine exists_connectives_join hl hr op.precedence_lt_barrier_operand ?_ le_rfl hright.le hts hn
    hs hrest
  rw [op.strength_operand]
  exact Nat.le_succ _

end Phrase.IsRead

/-- Every phrase is read from its tokens. -/
theorem Phrase.isRead {c : Category} (p : Phrase c) : p.IsRead limit last := by
  induction p with
  | prop name args text => exact .prop name args text
  | var x => exact .var x
  | neg p ih => exact .neg ih
  | quant q x p ih => exact .quant ih q x
  | parens p ih => exact .parens ih
  | single p ih => exact .single ih
  | joinLeft h l r ihl ihr => exact .joinLeft h ihl ihr
  | joinRight h l r ihl ihr => exact .joinRight h ihl ihr

/-! ### What is read is a phrase -/

/-- The tokens `us` are those of a phrase of the level `c` that says `f`. -/
def Derives (c : Category) (us : List Token) (f : Formula) : Prop :=
  ∃ p : Phrase c, p.tokens = us ∧ p.formula = f

theorem Category.strength_le_five (c : Category) : c.strength ≤ 5 := by
  cases c with
  | primary => exact le_rfl
  | chain op => exact op.precedence_lt_five.le

theorem Category.strength_inj {c c' : Category} (h : c.strength = c'.strength) : c = c' := by
  cases c with
  | primary =>
    cases c' with
    | primary => rfl
    | chain op => exact absurd h.symm op.precedence_lt_five.ne
  | chain op =>
    cases c' with
    | primary => exact absurd h op.precedence_lt_five.ne
    | chain op' =>
      have hop : op = op' := by
        revert h
        cases op <;> cases op' <;> decide
      rw [hop]

/-- A phrase is one of every looser level too, as a chain of a single operand. -/
theorem Derives.loosen {c c' : Category} {us : List Token} {f : Formula} (h : Derives c us f)
    (hc : c'.strength ≤ c.strength) : Derives c' us f := by
  obtain ⟨k, hk⟩ := Nat.exists_eq_add_of_le hc
  -- Induction on the number of levels between the two.
  induction k generalizing c' with
  | zero =>
    rw [Category.strength_inj hk.symm]
    exact h
  | succ k ih =>
    cases c' with
    | primary =>
      have hle := c.strength_le_five
      rw [Category.strength_primary] at hk
      omega
    | chain op =>
      rw [Category.strength_chain] at hc hk
      have hstrength := op.strength_operand
      have hoperand : Derives op.operand us f := ih (by omega) (by omega)
      obtain ⟨p, htokens, hformula⟩ := hoperand
      exact ⟨.single p, htokens, hformula⟩

/-- Every phrase is a chain of the loosest connective. -/
theorem Derives.chain_iff {c : Category} {us : List Token} {f : Formula} (h : Derives c us f) :
    Derives (.chain .iff) us f := by
  refine h.loosen ?_
  cases c with
  | primary => decide
  | chain op => cases op <;> decide

theorem Category.barrier_le_strength_add_one (c : Category) : c.barrier ≤ c.strength + 1 := by
  cases c with
  | primary => decide
  | chain op => cases op <;> decide

theorem Category.precedence_lt_strength {c : Category} {op : Connective}
    (h : op.isRightAssociative = true) (hop : op.precedence < c.barrier) :
    op.precedence < c.strength := by
  cases c with
  | primary => exact op.precedence_lt_five
  | chain op' =>
    revert h hop
    cases op <;> cases op' <;> decide

/-- Two phrases with a connective between them are a chain of the connective, if it does not end the
left one and is not in the right one outside parentheses. -/
theorem Derives.join {c c' : Category} {us vs : List Token} {f g : Formula} {op : Connective}
    (hf : Derives c us f) (hg : Derives c' vs g) (hleft : op.precedence < c.barrier)
    (hright : op.rightStrength ≤ c'.strength) :
    Derives (.chain op) (us ++ .command (.connective op) :: vs) (.binary op f g) := by
  have hoperand := op.strength_operand
  cases h : op.isRightAssociative with
  | false =>
    have hstrength : op.rightStrength = op.precedence + 1 := if_neg (by simp [h])
    have hbarrier := c.barrier_le_strength_add_one
    obtain ⟨l, rfl, rfl⟩ : Derives (.chain op) us f :=
      hf.loosen (by rw [Category.strength_chain]; omega)
    obtain ⟨r, rfl, rfl⟩ : Derives op.operand vs g := hg.loosen (by omega)
    exact ⟨.joinLeft h l r, rfl, rfl⟩
  | true =>
    have hstrength : op.rightStrength = op.precedence := if_pos h
    have hlt := Category.precedence_lt_strength h hleft
    obtain ⟨l, rfl, rfl⟩ : Derives op.operand us f := hf.loosen (by omega)
    obtain ⟨r, rfl, rfl⟩ : Derives (.chain op) vs g :=
      hg.loosen (by rw [Category.strength_chain]; omega)
    exact ⟨.joinRight h l r, rfl, rfl⟩

/-! ### Replies without a fault -/

namespace Reading

namespace Reply

variable {r : Reply} {f : Formula} {rest : List Located}

theorem after_eq_formula_nil {ds : List Diagnostic} :
    r.after ds = .formula f rest [] ↔ ds = [] ∧ r = .formula f rest [] := by
  cases r <;> simp [after, and_left_comm, and_comm]

theorem after_eq_nothing_nil {ds : List Diagnostic} :
    r.after ds = .nothing rest [] ↔ ds = [] ∧ r = .nothing rest [] := by
  cases r <;> simp [after, and_left_comm, and_comm]

theorem operand_ne_nothing {c : Command} {offset : Nat} {build : Formula → Formula}
    {passed : List Diagnostic} : r.operand c offset build ≠ .nothing rest passed := by
  cases r <;> nofun

theorem closed_ne_nothing {offset : Nat} : r.closed offset ≠ .nothing rest [] := by
  unfold closed
  split
  · nofun
  · nofun
  · simp
  · rename_i hnothing
    exact hnothing rest []

theorem exists_of_operand_eq_formula {c : Command} {offset : Nat} {build : Formula → Formula}
    {passed : List Diagnostic} (h : r.operand c offset build = .formula f rest passed) :
    ∃ g, r = .formula g rest passed ∧ build g = f := by
  cases r <;> cases h
  exact ⟨_, rfl, rfl⟩

/-- A parenthesis that is not closed is a fault. -/
theorem exists_of_closed_eq_formula {offset : Nat} (h : r.closed offset = .formula f rest []) :
    ∃ offset', r = .formula f (⟨.closeParen, offset'⟩ :: rest) [] := by
  unfold closed at h
  split at h
  · cases h
    exact ⟨_, rfl⟩
  · simp at h
  · cases h
  · rename_i hformula _
    exact absurd h (hformula f rest [])

theorem exists_of_andThen_eq_formula {next : Formula → List Located → Reply}
    (h : r.andThen next = .formula f rest []) :
    ∃ g mid, r = .formula g mid [] ∧ next g mid = .formula f rest [] := by
  cases r with
  | formula g mid passed =>
    obtain ⟨rfl, hnext⟩ := after_eq_formula_nil.mp h
    exact ⟨g, mid, rfl, hnext⟩
  | nothing | fault => cases h

end Reply

variable {n : Nat} {f : Formula} {ts rest : List Located}

/-- Where no token is passed over, none is left out. -/
theorem dropStrays_of_strayFaults_eq_nil (h : strayFaults ts = []) : dropStrays ts = ts := by
  cases ts with
  | nil => rfl
  | cons t ts =>
    cases hstray : isStray t.token with
    | true => simp [strayFaults, hstray] at h
    | false => exact List.dropWhile_cons_of_neg (by simp [hstray])

/-- Where nothing is read and no fault is met, the end is at the front. -/
theorem Attempt.frontToken_eq_eof {task : Task} {r : Reply} (h : Attempt limit last task n ts r)
    (hr : r = .nothing rest []) : frontToken ts = .eof := by
  induction h with
  | stray => cases (Reply.after_eq_nothing_nil.mp hr).1
  | prop | var | negTooDeep | quantTooDeep | quantUnbound | parensTooDeep => cases hr
  | neg | quant => exact absurd hr Reply.operand_ne_nothing
  | parens => exact absurd hr Reply.closed_ne_nothing
  | nothing hts => exact hts
  | noChain _ _ ih => exact ih hr
  | chain _ hrest | join _ _ hrest =>
    -- a chain of connectives comes to something
    have hnothing := hrest.leavesEnd.2 _ _ rfl
    rw [(Reply.after_eq_nothing_nil.mp hr).2] at hnothing
    cases hnothing
  | stop | joinTooDeep | joinNothing | joinFault => cases hr

/-- What is read without a fault is derived: a primary, and a chain with a phrase at its left that
is tight enough for the connective that may follow. -/
structure IsSound (limit last n : Nat) : Prop where
  primary : ∀ {ts f rest}, Reading.primary limit last n ts = .formula f rest [] →
    ∃ us, ts.map Located.token = us ++ rest.map Located.token ∧ Derives .primary us f
  connectives : ∀ {s c us left ts f rest},
    Reading.connectives limit last n s left ts = .formula f rest [] → Derives c us left →
    s ≤ c.strength → EndsChain c.barrier (ts.map Located.token) →
    ∃ c' us', us ++ ts.map Located.token = us' ++ rest.map Located.token ∧ Derives c' us' f ∧
      s ≤ c'.strength ∧ EndsChain s (rest.map Located.token)

/-- An expression that is read without a fault is derived, and ends before the tokens that are
left. -/
theorem IsSound.expression (h : IsSound limit last n) {s : Nat} (hs : s ≤ 5)
    (hread : expression limit last n s ts = .formula f rest []) :
    ∃ c us, ts.map Located.token = us ++ rest.map Located.token ∧ Derives c us f ∧
      s ≤ c.strength ∧ EndsChain s (rest.map Located.token) := by
  obtain ⟨g, mid, hprimary, hconnectives⟩ := Reply.exists_of_andThen_eq_formula hread
  obtain ⟨us, hts, hg⟩ := h.primary hprimary
  obtain ⟨c, us', hmid, hf, hc, hrest⟩ := h.connectives hconnectives hg hs (endsChain_five _)
  exact ⟨c, us', hts.trans hmid, hf, hc, hrest⟩

theorem derives_of_primary {limit last n : Nat} (hbelow : ∀ m < n, IsSound limit last m)
    (h : primary limit last n ts = .formula f rest []) :
    ∃ us, ts.map Located.token = us ++ rest.map Located.token ∧ Derives .primary us f := by
  unfold primary at h
  obtain ⟨hstrays, h⟩ := Reply.after_eq_formula_nil.mp h
  rw [dropStrays_of_strayFaults_eq_nil hstrays] at h
  split at h
  case h_1 p args text offset rest' _ =>
    cases h
    exact ⟨_, rfl, .prop p args text, rfl, rfl⟩
  case h_2 x offset rest' _ =>
    cases h
    exact ⟨_, rfl, .var x, rfl, rfl⟩
  case h_3 offset rest' _ =>
    cases n with
    | zero => cases h
    | succ n =>
      obtain ⟨g, hg, rfl⟩ := Reply.exists_of_operand_eq_formula h
      obtain ⟨us, hus, p, rfl, rfl⟩ := (hbelow n (Nat.lt_succ_self n)).primary hg
      refine ⟨_, ?_, .neg p, rfl, rfl⟩
      simp [Phrase.tokens, hus]
  case h_4 q offset x offset' rest' _ =>
    cases n with
    | zero => cases h
    | succ n =>
      obtain ⟨g, hg, rfl⟩ := Reply.exists_of_operand_eq_formula h
      obtain ⟨us, hus, p, rfl, rfl⟩ := (hbelow n (Nat.lt_succ_self n)).primary hg
      refine ⟨_, ?_, .quant q x p, rfl, rfl⟩
      simp [Phrase.tokens, hus]
  case h_5 => cases h
  case h_6 offset rest' _ =>
    cases n with
    | zero => cases h
    | succ n =>
      obtain ⟨offset', hclosed⟩ := Reply.exists_of_closed_eq_formula h
      obtain ⟨c, us, hus, hf, -⟩ :=
        (hbelow n (Nat.lt_succ_self n)).expression (Nat.zero_le 5) hclosed
      obtain ⟨p, rfl, rfl⟩ := hf.chain_iff
      refine ⟨_, ?_, .parens p, rfl, rfl⟩
      simp [Phrase.tokens, hus]
  case h_7 => cases h

theorem Stops.endsChain {s : Nat} (h : Stops ts) : EndsChain s (ts.map Located.token) := by
  intro op vs hts
  obtain ⟨offset, rest, rfl, -⟩ := exists_eq_cons_of_map hts
  exact absurd rfl (h op offset rest)

theorem derives_of_connectives {limit last n : Nat} (hbelow : ∀ m < n, IsSound limit last m)
    {s : Nat} {c : Category} {us : List Token} {left : Formula}
    (h : connectives limit last n s left ts = .formula f rest []) (hleft : Derives c us left)
    (hs : s ≤ c.strength) (hends : EndsChain c.barrier (ts.map Located.token)) :
    ∃ c' us', us ++ ts.map Located.token = us' ++ rest.map Located.token ∧ Derives c' us' f ∧
      s ≤ c'.strength ∧ EndsChain s (rest.map Located.token) := by
  unfold connectives at h
  split at h
  · rename_i op offset rest'
    split at h
    · rename_i hstrength
      cases n with
      | zero => cases h
      | succ n =>
        have hsound := hbelow n (Nat.lt_succ_self n)
        simp only at h
        split at h
        · -- the right operand is joined, and the chain goes on from there
          rename_i right mid passed heq
          obtain ⟨rfl, hnext⟩ := Reply.after_eq_formula_nil.mp h
          obtain ⟨c', us', hus', hright, hc', hmid⟩ :=
            hsound.expression op.rightStrength_le_five heq
          have hjoined := hleft.join hright (hends op _ rfl) hc'
          obtain ⟨c'', us'', hus'', hresult⟩ := hsound.connectives hnext hjoined hstrength hmid
          refine ⟨c'', us'', ?_, hresult⟩
          rw [← hus'']
          simp [hus']
        · simp at h
        · rename_i hformula _
          exact absurd h (hformula f rest [])
    · -- the connective belongs to a chain outside
      rename_i hstrength
      cases h
      exact ⟨c, us, rfl, hleft, hs, EndsChain.cons_connective_iff.mpr (Nat.lt_of_not_le hstrength)⟩
  · rename_i hconnective
    cases h
    have hstops : Stops ts := hconnective
    exact ⟨c, us, rfl, hleft, hs, hstops.endsChain⟩

theorem isSound (limit last n : Nat) : IsSound limit last n := by
  induction n using Nat.strongRecOn with
  | ind n ih => exact ⟨derives_of_primary ih, derives_of_connectives ih⟩

end Reading

/-! ### Programs -/

namespace Program

/-- Phrases one after the other are read as their formulas, without a fault. -/
theorem read_eq_of_phrases {limit : Nat} (ps : List (Phrase (.chain .iff))) {ts : List Located}
    (hts : ts.map Located.token = ps.flatMap Phrase.tokens ++ [.eof])
    (hlimit : (ps.flatMap Phrase.tokens).length ≤ limit) :
    read limit last ts = ⟨ps.map Phrase.formula, []⟩ := by
  induction ps generalizing ts with
  | nil =>
    obtain ⟨offset, ts', rfl, -⟩ := exists_eq_cons_of_map hts
    exact read_of_front_eof rfl
  | cons p ps ih =>
    rw [List.flatMap_cons, List.append_assoc] at hts
    rw [List.flatMap_cons, List.length_append] at hlimit
    obtain ⟨tsp, rest, rfl, htsp, hrest⟩ := List.map_eq_append_iff.mp hts
    -- no connective comes after the phrase: the next one starts, or the end is there
    have hends (s : Nat) : EndsChain s (rest.map Located.token) := by
      rw [hrest]
      exact Phrase.endsChain_flatMap_tokens ps (.of_not_connective (t := .eof) nofun _)
    have hread : expression limit last limit 0 (tsp ++ rest) = .formula p.formula rest [] :=
      p.isRead.formula htsp (by omega) (Nat.zero_le _) (hends _) (hends 0)
    have hfront := Reply.Returns.frontToken_ne_eof (.inl ⟨Nat.zero_le limit, hread⟩)
    rw [read_of_formula hfront hread, ih hrest (by omega)]
    rfl

/-- Tokens without the end are a front part of those before the end. -/
theorem exists_eq_append_of_eof_not_mem {us vs ws : List Token}
    (h : us ++ [.eof] = vs ++ ws) (hvs : .eof ∉ vs) :
    ∃ us' : List Token, us = vs ++ us' ∧ ws = us' ++ [.eof] := by
  induction vs generalizing us with
  | nil => exact ⟨us, rfl, h.symm⟩
  | cons v vs ih =>
    rw [List.mem_cons, not_or] at hvs
    cases us with
    | nil => exact absurd (List.cons.inj h).1 hvs.1
    | cons u us =>
      obtain ⟨rfl, hrest⟩ := List.cons.inj h
      obtain ⟨us', rfl, hws⟩ := ih hrest hvs.2
      exact ⟨us', rfl, hws⟩

/-- What is read without a fault is a sequence of phrases. -/
theorem exists_phrases_of_read {limit : Nat} {ts : List Located} {us : List Token}
    (hts : ts.map Located.token = us ++ [.eof]) (heof : .eof ∉ us)
    (h : (read limit last ts).diagnostics = []) :
    ∃ ps : List (Phrase (.chain .iff)), ps.flatMap Phrase.tokens = us := by
  fun_induction read limit last ts generalizing us with
  | case1 ts hfront =>
    -- the end comes last, so nothing is before it
    cases us with
    | nil => exact ⟨[], rfl⟩
    | cons u us =>
      obtain ⟨offset, ts', rfl, -⟩ := exists_eq_cons_of_map hts
      have hu : u = .eof := hfront
      exact absurd (List.mem_cons.mpr (.inl hu.symm)) heof
  | case2 ts hfront f rest passed hread ih =>
    obtain ⟨rfl, hrest⟩ := List.append_eq_nil_iff.mp h
    obtain ⟨c, vs, hvs, hf, -⟩ :=
      (Reading.isSound limit last limit).expression (Nat.zero_le 5) hread
    obtain ⟨p, rfl, -⟩ := hf.chain_iff
    obtain ⟨us', rfl, hrest'⟩ :=
      exists_eq_append_of_eof_not_mem (hts.symm.trans hvs) p.eof_not_mem_tokens
    obtain ⟨ps, rfl⟩ := ih hrest' (fun hmem => heof (List.mem_append_right _ hmem)) hrest
    exact ⟨p :: ps, rfl⟩
  | case3 ts hfront rest passed hread =>
    cases h
    have hattempt : Reading.Attempt limit last (.expression 0) limit ts (.nothing rest []) :=
      Reading.attempt_iff.mpr hread
    exact absurd (hattempt.frontToken_eq_eof rfl) hfront
  | case4 ts hfront d rest passed hread ih => simp [after] at h

/-- The programs without a fault, where there are as many nesting levels as tokens: a token sequence
is read without a fault exactly if it can be derived as a sequence of chains of the loosest
connective, it is then derived in one way only, and the statements are the formulas of this
derivation. -/
theorem ofTokens_diagnostics_eq_nil_iff {limit : Nat} {ts : List Located} {us : List Token}
    (hts : ts.map Located.token = us ++ [.eof]) (heof : .eof ∉ us) (hlimit : us.length ≤ limit) :
    ((ofTokens limit ts).diagnostics = [] ↔
      ∃ ps : List (Phrase (.chain .iff)), ps.flatMap Phrase.tokens = us) ∧
    ∀ ps : List (Phrase (.chain .iff)), ps.flatMap Phrase.tokens = us →
      (ofTokens limit ts).statements = ps.map Phrase.formula ∧
        ∀ qs : List (Phrase (.chain .iff)), qs.flatMap Phrase.tokens = us → qs = ps := by
  have hread (ps : List (Phrase (.chain .iff))) (hps : ps.flatMap Phrase.tokens = us) :
      ofTokens limit ts = ⟨ps.map Phrase.formula, []⟩ := by
    cases hps
    exact read_eq_of_phrases ps hts hlimit
  refine ⟨⟨exists_phrases_of_read hts heof, fun ⟨ps, hps⟩ => ?_⟩, fun ps hps => ⟨?_, ?_⟩⟩
  · rw [hread ps hps]
  · rw [hread ps hps]
  · intro qs hqs
    exact Phrase.flatMap_tokens_inj (hqs.trans hps.symm)

/-- Two statements, the first of which groups to the left and to the right. -/
theorem ofTokens_diagnostics_eq_nil_two :
    let connective (op : Connective) : Token := .command (.connective op)
    let p : Token := .prop "P" [] "P"
    let us : List Token := [p, connective .conj, p, connective .conj, .var "x", connective .implies,
      p, connective .implies, .openParen, .var "x", .closeParen, .command .neg, .var "y"]
    let ts : List Located := (us ++ [Token.eof]).map fun t => ⟨t, 0⟩
    let f : Formula := .prop "P" []
    (ofTokens 13 ts).diagnostics = [] ∧
      (ofTokens 13 ts).statements =
        [.binary .implies (.binary .conj (.binary .conj f f) (.var "x"))
          (.binary .implies f (.var "x")), .neg (.var "y")] ∧
      ∃ ps : List (Phrase (.chain .iff)), ps.flatMap Phrase.tokens = us ∧
        ∀ qs : List (Phrase (.chain .iff)), qs.flatMap Phrase.tokens = us → qs = ps := by
  intro connective p us ts f
  have hts : ts.map Located.token = us ++ [.eof] := by decide
  obtain ⟨hiff, hderived⟩ :=
    ofTokens_diagnostics_eq_nil_iff hts (by decide) (show us.length ≤ 13 by decide)
  have hdiagnostics : (ofTokens 13 ts).diagnostics = [] := by decide +kernel
  obtain ⟨ps, hps⟩ := hiff.mp hdiagnostics
  exact ⟨hdiagnostics, by decide +kernel, ps, hps, (hderived ps hps).2⟩

end Program

end ClausalForm
