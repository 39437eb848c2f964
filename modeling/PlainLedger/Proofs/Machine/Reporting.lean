import PlainLedger.Proofs.Machine.Tokens

/-!
# Options of reports

How many tokens a machine is quiet for after an error, and how many alternatives it lists in a
message, decide what it says about unexpected tokens and nothing else. Two runs that differ in these
options take the same steps. The reason is that a token is dropped if none has been shifted since
the machine went on after an error, and that does not depend on the number of tokens it is quiet
for, as long as it is quiet at all.
-/

namespace PlainLedger

variable {α V σ : Type}

/-- Neither the values of tokens and of completed rules nor what is remembered of them depend on the
reports that the reducer has been given. What is remembered is the `same` apart from reports, and
`said` are all the diagnostics so far, also those that the reducer adds on its own. -/
structure Reducer.Heedless (r : Reducer α V σ) (same : σ → σ → Prop)
    (said : σ → List Diagnostic) : Prop where
  equivalence : Equivalence same
  report (d : Diagnostic) (m : σ) : same (r.report d m) m
  release {m m' : σ} (v : V) (h : same m m') : same (r.release v m) (r.release v m')
  value {m m' : σ} (t : Token) (h : same m m') : (r.ofToken t m).1 = (r.ofToken t m').1
  token {m m' : σ} (t : Token) (h : same m m') : same (r.ofToken t m).2 (r.ofToken t m').2
  verdict {m m' : σ} (a : α) (red : Reduction V) (h : same m m') :
    (r.reduce a red m).1 = (r.reduce a red m').1
  reduce {m m' : σ} (a : α) (red : Reduction V) (h : same m m') :
    same (r.reduce a red m).2 (r.reduce a red m').2
  said_report (d : Diagnostic) (m : σ) : said (r.report d m) = said m ++ [d]
  said_release (v : V) (m : σ) : said (r.release v m) = said m
  said_token {m m' : σ} (t : Token) (h : same m m') :
    ∃ ds, said (r.ofToken t m).2 = said m ++ ds ∧ said (r.ofToken t m').2 = said m' ++ ds
  said_reduce {m m' : σ} (a : α) (red : Reduction V) (h : same m m') :
    ∃ ds, said (r.reduce a red m).2 = said m ++ ds ∧ said (r.reduce a red m').2 = said m' ++ ds

/-- What is said about an unexpected token, with at most `limit` alternatives. -/
def complaint (file : String) (line : Line) (found : Terminal) (expected : List Terminal)
    (limit : Nat) : Diagnostic :=
  ⟨file, line, .grammatical, unexpectedMessage found expected limit⟩

/-! ## Records that differ in complaints -/

/-- Two records that are the same up to complaints about unexpected tokens, which are cut where the
options say. A complaint is left out of the record with the higher threshold only. -/
inductive Aligned {τ : Type} (tell : Diagnostic → τ) (file : String) (o₁ o₂ : Options) :
    List τ → List τ → Prop where
  | nil : Aligned tell file o₁ o₂ [] []
  | same {xs ys : List τ} (h : Aligned tell file o₁ o₂ xs ys) (x : τ) :
      Aligned tell file o₁ o₂ (xs ++ [x]) (ys ++ [x])
  | both {xs ys : List τ} (h : Aligned tell file o₁ o₂ xs ys) (line : Line) (found : Terminal)
      (expected : List Terminal) :
      Aligned tell file o₁ o₂
        (xs ++ [tell (complaint file line found expected o₁.maxExpectedTokens)])
        (ys ++ [tell (complaint file line found expected o₂.maxExpectedTokens)])
  | first {xs ys : List τ} (h : Aligned tell file o₁ o₂ xs ys)
      (hlt : o₁.recoveryShifts < o₂.recoveryShifts) (line : Line) (found : Terminal)
      (expected : List Terminal) :
      Aligned tell file o₁ o₂
        (xs ++ [tell (complaint file line found expected o₁.maxExpectedTokens)]) ys
  | second {xs ys : List τ} (h : Aligned tell file o₁ o₂ xs ys)
      (hlt : o₂.recoveryShifts < o₁.recoveryShifts) (line : Line) (found : Terminal)
      (expected : List Terminal) :
      Aligned tell file o₁ o₂ xs
        (ys ++ [tell (complaint file line found expected o₂.maxExpectedTokens)])

namespace Aligned

variable {τ : Type} {tell : Diagnostic → τ} {file : String} {o₁ o₂ : Options} {xs ys : List τ}

theorem refl (xs : List τ) : Aligned tell file o₁ o₂ xs xs := by
  induction xs using List.reverseRecOn with
  | nil => exact .nil
  | append_singleton xs x ih => exact ih.same x

theorem append (h : Aligned tell file o₁ o₂ xs ys) (zs : List τ) :
    Aligned tell file o₁ o₂ (xs ++ zs) (ys ++ zs) := by
  induction zs using List.reverseRecOn with
  | nil => simpa using h
  | append_singleton zs z ih =>
    rw [← List.append_assoc, ← List.append_assoc]
    exact ih.same z

end Aligned

/-! ## Machines in step -/

/-- The machine with other options. -/
def Engine.withOptions (e : Engine α) (o : Options) : Engine α := { e with options := o }

/-- The two have done the same and hold the same, up to complaints. -/
structure Twin (e : Engine α) (o₁ o₂ : Options) (same : σ → σ → Prop)
    (said : σ → List Diagnostic) (c₁ c₂ : Config V σ) : Prop where
  stack : c₁.stack = c₂.stack
  ahead : c₁.ahead? = c₂.ahead?
  input : c₁.input = c₂.input
  exhausted : c₁.exhausted = c₂.exhausted
  lastSpan : c₁.lastSpan = c₂.lastSpan
  memory : same c₁.memory c₂.memory
  log : Aligned .report e.context.file o₁ o₂ c₁.log.toList c₂.log.toList
  said : Aligned id e.context.file o₁ o₂ (said c₁.memory) (said c₂.memory)

/-- Both have shifted equally many tokens since they last went on after an error. -/
def CountAlike (o₁ o₂ : Options) (c₁ c₂ : Config V σ) : Prop :=
  ∃ since, c₁.Counts o₁.recoveryShifts since ∧ c₂.Counts o₂.recoveryShifts since

/-- The steps lead on to twins, or end with the same outcome. -/
def Step.Twins (e : Engine α) (o₁ o₂ : Options) (same : σ → σ → Prop)
    (said : σ → List Diagnostic) : Step V σ → Step V σ → Prop
  | .running c₁, .running c₂ => Twin e o₁ o₂ same said c₁ c₂ ∧ CountAlike o₁ o₂ c₁ c₂
  | .accepted v₁ c₁, .accepted v₂ c₂ => v₁ = v₂ ∧ Twin e o₁ o₂ same said c₁ c₂
  | .aborted cause₁ c₁, .aborted cause₂ c₂ => cause₁ = cause₂ ∧ Twin e o₁ o₂ same said c₁ c₂
  | _, _ => False

@[simp] theorem unwind_withOptions (e : Engine α) (o : Options) (slots : List (Slot V)) :
    Config.unwind (e.withOptions o) slots = Config.unwind e slots := by
  induction slots with
  | nil => rfl
  | cons x rest ih =>
    cases rest with
    | nil => rfl
    | cons y rest =>
      unfold Config.unwind
      rw [ih]
      rfl

section

variable {e : Engine α} {o₁ o₂ : Options} {r : Reducer α V σ} {same : σ → σ → Prop}
  {said : σ → List Diagnostic} {c₁ c₂ : Config V σ}

namespace Twin

theorem record (h : Twin e o₁ o₂ same said c₁ c₂) (ev : Event V) :
    Twin e o₁ o₂ same said (c₁.record ev) (c₂.record ev) := by
  refine { h with log := ?_ }
  simp only [Config.record, Array.toList_push]
  exact h.log.same ev

theorem report (hr : r.Heedless same said) (h : Twin e o₁ o₂ same said c₁ c₂) (d : Diagnostic) :
    Twin e o₁ o₂ same said (c₁.report r d) (c₂.report r d) := by
  refine { h with memory := ?_, log := ?_, said := ?_ }
  · apply hr.equivalence.trans (hr.report d _)
    exact hr.equivalence.trans h.memory (hr.equivalence.symm (hr.report d _))
  · simp only [Config.report, Array.toList_push]
    exact h.log.same _
  · simp only [Config.report, hr.said_report]
    exact h.said.same d

theorem release (hr : r.Heedless same said) (h : Twin e o₁ o₂ same said c₁ c₂) (v : V) :
    Twin e o₁ o₂ same said (c₁.release r v) (c₂.release r v) := by
  refine { h with memory := hr.release v h.memory, said := ?_ }
  simp only [Config.release, hr.said_release]
  exact h.said

theorem read (hr : r.Heedless same said) (h : Twin e o₁ o₂ same said c₁ c₂) :
    (c₁.read (e.withOptions o₁) r).1 = (c₂.read (e.withOptions o₂) r).1 ∧
      Twin e o₁ o₂ same said (c₁.read (e.withOptions o₁) r).2
        (c₂.read (e.withOptions o₂) r).2 := by
  by_cases hended : c₁.exhausted = true
  · rw [Config.read_of_exhausted _ _ hended, Config.read_of_exhausted _ _ (h.exhausted ▸ hended),
      h.lastSpan]
    exact ⟨rfl, h⟩
  · cases hinput : c₁.input with
    | nil =>
      rw [Config.read_of_nil _ _ (eq_false_of_ne_true hended) hinput,
        Config.read_of_nil _ _ (h.exhausted ▸ eq_false_of_ne_true hended) (h.input ▸ hinput)]
      refine ⟨?_, { h.record (.pull none) with exhausted := rfl }⟩
      rw [h.lastSpan]
    | cons t rest =>
      have hpull : Twin e o₁ o₂ same said
          ({ c₁ with input := rest }.record (.pull (some t)))
          ({ c₂ with input := rest }.record (.pull (some t))) := by
        apply Twin.record
        exact { h with input := rfl }
      unfold Config.read
      rw [if_neg hended, if_neg (h.exhausted ▸ hended), ← h.input, hinput]
      refine ⟨rfl, ?_⟩
      dsimp only
      split
      · exact { hpull.report hr _ with lastSpan := rfl }
      · exact { hpull with lastSpan := rfl }

theorem peek (hr : r.Heedless same said) (h : Twin e o₁ o₂ same said c₁ c₂) :
    (c₁.peek (e.withOptions o₁) r).1 = (c₂.peek (e.withOptions o₂) r).1 ∧
      Twin e o₁ o₂ same said (c₁.peek (e.withOptions o₁) r).2
        (c₂.peek (e.withOptions o₂) r).2 := by
  cases hahead : c₁.ahead? with
  | some t =>
    rw [Config.peek_of_ahead _ _ hahead, Config.peek_of_ahead _ _ (h.ahead ▸ hahead)]
    exact ⟨rfl, h⟩
  | none =>
    obtain ⟨htoken, hread⟩ := h.read hr
    rw [Config.peek_of_none _ _ hahead, Config.peek_of_none _ _ (h.ahead ▸ hahead)]
    exact ⟨htoken, { hread with ahead := congrArg some htoken }⟩

theorem consult (hr : r.Heedless same said) (h : Twin e o₁ o₂ same said c₁ c₂) (row : Row) :
    Twin e o₁ o₂ same said (c₁.consult (e.withOptions o₁) r row)
      (c₂.consult (e.withOptions o₂) r row) := by
  unfold Config.consult
  split
  · exact (h.peek hr).2
  · exact h

theorem currentLine_eq (h : Twin e o₁ o₂ same said c₁ c₂) :
    c₁.currentLine (e.withOptions o₁) = c₂.currentLine (e.withOptions o₂) := by
  unfold Config.currentLine Config.currentSpan
  rw [h.ahead, h.lastSpan]
  rfl

theorem popped (hr : r.Heedless same said) (h : Twin e o₁ o₂ same said c₁ c₂)
    (popped : List (Slot V)) :
    Twin e o₁ o₂ same said
      (popped.foldl (fun c x ↦ (c.release r x.value).record (.pop x)) c₁)
      (popped.foldl (fun c x ↦ (c.release r x.value).record (.pop x)) c₂) := by
  induction popped generalizing c₁ c₂ with
  | nil => exact h
  | cons x popped ih => exact ih ((h.release hr x.value).record (.pop x))

/-- A complaint is made by both, by the one that is not quiet, or by none of them. -/
theorem complain (hr : r.Heedless same said) (h : Twin e o₁ o₂ same said c₁ c₂)
    (hcount : CountAlike o₁ o₂ c₁ c₂) (n : Nat) (t : Token) :
    Twin e o₁ o₂ same said (c₁.complain (e.withOptions o₁) r n t)
      (c₂.complain (e.withOptions o₂) r n t) := by
  have hforget : ∀ (m : σ) (d : Diagnostic), same m (r.report d m) :=
    fun m d ↦ hr.equivalence.symm (hr.report d m)
  obtain ⟨since, hcount₁, hcount₂⟩ := hcount
  unfold Config.Counts at hcount₁ hcount₂
  -- the one that is quiet while the other is not has the higher threshold
  have hlt : ∀ a b : Nat, (since.map (a - ·)).getD 0 = 0 → (since.map (b - ·)).getD 0 ≠ 0 →
      a < b := by
    intro a b ha hb
    cases since with
    | none => exact (hb rfl).elim
    | some k => simp only [Option.map_some, Option.getD_some] at ha hb; omega
  unfold Config.complain
  by_cases hsilent : t.kind.isSilent = true
  · simp only [hsilent, Bool.not_true, Bool.and_false, Bool.false_eq_true, if_false]
    exact h
  · simp only [hsilent, Bool.not_false, Bool.and_true, decide_eq_true_eq]
    by_cases h₁ : c₁.quiet = 0 <;> by_cases h₂ : c₂.quiet = 0
    · rw [if_pos h₁, if_pos h₂]
      refine { h with memory := ?_, log := ?_, said := ?_ }
      · apply hr.equivalence.trans (hr.report _ _)
        exact hr.equivalence.trans h.memory (hforget _ _)
      · simp only [Config.report, Array.toList_push]
        exact h.log.both _ _ _
      · simp only [Config.report, hr.said_report]
        exact h.said.both _ _ _
    · rw [if_pos h₁, if_neg h₂]
      have hthreshold := hlt _ _ (hcount₁ ▸ h₁) (hcount₂ ▸ h₂)
      refine { h with memory := ?_, log := ?_, said := ?_ }
      · exact hr.equivalence.trans (hr.report _ _) h.memory
      · simp only [Config.report, Array.toList_push]
        exact h.log.first hthreshold _ _ _
      · simp only [Config.report, hr.said_report]
        exact h.said.first hthreshold _ _ _
    · rw [if_neg h₁, if_pos h₂]
      have hthreshold := hlt _ _ (hcount₂ ▸ h₂) (hcount₁ ▸ h₁)
      refine { h with memory := ?_, log := ?_, said := ?_ }
      · exact hr.equivalence.trans h.memory (hforget _ _)
      · simp only [Config.report, Array.toList_push]
        exact h.log.second hthreshold _ _ _
      · simp only [Config.report, hr.said_report]
        exact h.said.second hthreshold _ _ _
    · rw [if_neg h₁, if_neg h₂]
      exact h

/-! ## Steps of twins -/

theorem push (hr : r.Heedless same said) (h : Twin e o₁ o₂ same said c₁ c₂)
    (hcount : CountAlike o₁ o₂ c₁ c₂) (n : Nat) (v : V) (span : Span) :
    Step.Twins e o₁ o₂ same said (c₁.push r n v span) (c₂.push r n v span) := by
  unfold Config.push
  rw [h.stack]
  cases c₂.stack.push ⟨n, v, span⟩ with
  | ok stack => exact ⟨{ h with stack := rfl }, hcount⟩
  | error overflow => exact ⟨rfl, { h.release hr v with stack := h.stack }⟩

theorem shift (hr : r.Heedless same said) (h : Twin e o₁ o₂ same said c₁ c₂)
    (hcount : CountAlike o₁ o₂ c₁ c₂) (n : Nat) :
    Step.Twins e o₁ o₂ same said (c₁.shift r n) (c₂.shift r n) := by
  cases hahead : c₂.ahead? with
  | none =>
    unfold Config.shift
    rw [h.ahead, hahead]
    exact ⟨rfl, h⟩
  | some t =>
    obtain ⟨v, m, hvalue⟩ : ∃ v m, r.ofToken t c₁.memory = (v, m) := ⟨_, _, rfl⟩
    obtain ⟨v', m', hvalue'⟩ : ∃ v' m', r.ofToken t c₂.memory = (v', m') := ⟨_, _, rfl⟩
    have hv := hr.value t h.memory
    have hm := hr.token t h.memory
    obtain ⟨ds, hsaid, hsaid'⟩ := hr.said_token t h.memory
    rw [hvalue, hvalue'] at hv hm
    rw [hvalue] at hsaid
    rw [hvalue'] at hsaid'
    cases hv
    rw [Config.shift_eq (h.ahead.trans hahead) hvalue, Config.shift_eq hahead hvalue']
    apply Twin.push hr
    · have hread := h.record (.shift t v)
      refine { hread with ahead := rfl, memory := hm, said := ?_ }
      rw [show (c₁.taken t v m).memory = m from rfl, show (c₂.taken t v m').memory = m' from rfl,
        hsaid, hsaid']
      exact h.said.append ds
    · obtain ⟨since, hcount₁, hcount₂⟩ := hcount
      exact ⟨since.map (· + 1), hcount₁.shift rfl, hcount₂.shift rfl⟩

theorem unwound (hr : r.Heedless same said) (h : Twin e o₁ o₂ same said c₁ c₂) :
    Twin e o₁ o₂ same said (c₁.unwound (e.withOptions o₁) r)
      (c₂.unwound (e.withOptions o₂) r) := by
  unfold Config.unwound
  rw [unwind_withOptions, unwind_withOptions, h.stack]
  apply Twin.popped hr
  exact { h with stack := rfl }

theorem recover (hr : r.Heedless same said) (h : Twin e o₁ o₂ same said c₁ c₂) (start : Span) :
    Step.Twins e o₁ o₂ same said (c₁.recover (e.withOptions o₁) r start)
      (c₂.recover (e.withOptions o₂) r start) := by
  have hunwound := h.unwound hr
  have hspan : c₁.skippedSpan (e.withOptions o₁) start =
      c₂.skippedSpan (e.withOptions o₂) start := by
    unfold Config.skippedSpan Config.currentSpan
    rw [unwind_withOptions, unwind_withOptions, h.stack, h.ahead, h.lastSpan]
  rw [Config.recover_eq, Config.recover_eq, unwind_withOptions, unwind_withOptions, h.stack, hspan]
  cases (Config.unwind e c₂.stack.slots).2 with
  | nil => exact ⟨rfl, hunwound⟩
  | cons x rest =>
    have hshift : ∀ o, (e.withOptions o).errorShift? x.state = e.errorShift? x.state := fun _ ↦ rfl
    dsimp only
    rw [hshift, hshift]
    cases e.errorShift? x.state with
    | none =>
      refine ⟨?_, hunwound⟩
      rw [hunwound.currentLine_eq]
      rfl
    | some n =>
      apply Twin.push hr (hunwound.record _)
      -- both are as quiet as they can be
      obtain ⟨m₁, log₁, heq₁⟩ := c₁.unwound_eq (e := e.withOptions o₁) (r := r)
      obtain ⟨m₂, log₂, heq₂⟩ := c₂.unwound_eq (e := e.withOptions o₂) (r := r)
      rw [heq₁, heq₂]
      exact ⟨some 0, rfl, rfl⟩

theorem goto (hr : r.Heedless same said) (h : Twin e o₁ o₂ same said c₁ c₂)
    (hcount : CountAlike o₁ o₂ c₁ c₂) (lhs rule : Nat) (v : V) (span : Span) :
    Step.Twins e o₁ o₂ same said (c₁.goto (e.withOptions o₁) r lhs rule v span)
      (c₂.goto (e.withOptions o₂) r lhs rule v span) := by
  have hrow : ∀ o n, (e.withOptions o).row? n = e.row? n := fun _ _ ↦ rfl
  unfold Config.goto
  rw [h.stack]
  cases c₂.stack.top? with
  | none => exact ⟨rfl, h.release hr v⟩
  | some x =>
    dsimp only
    rw [hrow, hrow]
    cases (e.row? x.state).bind fun row ↦ row.goto? lhs with
    | none => exact ⟨rfl, h.release hr v⟩
    | some n => exact h.push hr hcount n v span

/-- The reducer makes the same of a completed rule. -/
theorem reduced (hr : r.Heedless same said) (h : Twin e o₁ o₂ same said c₁ c₂) (k : Nat)
    (p : Rule α) (red : Reduction V) :
    Twin e o₁ o₂ same said (c₁.reduced k p (r.reduce p.action red c₁.memory))
      (c₂.reduced k p (r.reduce p.action red c₂.memory)) := by
  obtain ⟨ds, hsaid₁, hsaid₂⟩ := hr.said_reduce p.action red h.memory
  refine { h with stack := ?_, memory := hr.reduce _ _ h.memory, log := ?_, said := ?_ }
  · simp only [Config.reduced, h.stack]
  · simp only [Config.reduced, Array.toList_push, h.stack, hr.verdict _ _ h.memory]
    exact h.log.same _
  · simp only [Config.reduced, hsaid₁, hsaid₂]
    exact h.said.append ds

theorem reduce (hr : r.Heedless same said) (h : Twin e o₁ o₂ same said c₁ c₂)
    (hcount : CountAlike o₁ o₂ c₁ c₂) (k : Nat) :
    Step.Twins e o₁ o₂ same said (c₁.reduce (e.withOptions o₁) r k)
      (c₂.reduce (e.withOptions o₂) r k) := by
  cases hrule : e.grammar.rules[k]? with
  | none =>
    have hnone : ∀ (o : Options) (c : Config V σ), c.reduce (e.withOptions o) r k =
        .aborted (.defect (.unknownRule k)) c := by
      intro o c
      unfold Config.reduce Engine.withOptions
      dsimp only
      rw [hrule]
    rw [hnone, hnone]
    exact ⟨rfl, h⟩
  | some p =>
    have hreduced := h.reduced hr k p (.ofSlots k p.rhs.length c₂.stack.slots)
    have hverdict := hr.verdict p.action (.ofSlots k p.rhs.length c₂.stack.slots) h.memory
    rw [Config.reduce_eq (e := e.withOptions o₁) hrule rfl,
      Config.reduce_eq (e := e.withOptions o₂) hrule rfl, h.stack, hverdict]
    cases (r.reduce p.action (.ofSlots k p.rhs.length c₂.stack.slots) c₂.memory).1 with
    | value v => exact hreduced.goto hr hcount p.lhs k v _
    | rejected message => exact (hreduced.report hr _).recover hr _
    | fatal cause => exact ⟨rfl, hreduced⟩

theorem accept (h : Twin e o₁ o₂ same said c₁ c₂) :
    Step.Twins e o₁ o₂ same said c₁.accept c₂.accept := by
  unfold Config.accept
  rw [h.stack]
  cases c₂.stack.pop? with
  | none => exact ⟨rfl, h⟩
  | some out => exact ⟨rfl, { h with stack := rfl }⟩

/-- One drops the token if the other does: neither has shifted anything since it last went on after
an error. -/
theorem fail (h₁ : 1 ≤ o₁.recoveryShifts) (h₂ : 1 ≤ o₂.recoveryShifts) (hr : r.Heedless same said)
    (h : Twin e o₁ o₂ same said c₁ c₂) (hcount : CountAlike o₁ o₂ c₁ c₂) (n : Nat) :
    Step.Twins e o₁ o₂ same said (c₁.fail (e.withOptions o₁) r n)
      (c₂.fail (e.withOptions o₂) r n) := by
  obtain ⟨htoken, hpeek⟩ := h.peek hr
  have hcount' : CountAlike o₁ o₂ (c₁.peek (e.withOptions o₁) r).2
      (c₂.peek (e.withOptions o₂) r).2 := by
    obtain ⟨since, hcount₁, hcount₂⟩ := hcount
    exact ⟨since, (Config.quiet_peek _ _ c₁).trans hcount₁,
      (Config.quiet_peek _ _ c₂).trans hcount₂⟩
  have hcomplain := hpeek.complain hr hcount' n (c₁.peek (e.withOptions o₁) r).1
  have hdrop : c₁.quiet = o₁.recoveryShifts ↔ c₂.quiet = o₂.recoveryShifts := by
    obtain ⟨since, hcount₁, hcount₂⟩ := hcount
    unfold Config.Counts at hcount₁ hcount₂
    rw [hcount₁, hcount₂]
    cases since with
    | none => simp only [Option.map_none, Option.getD_none]; omega
    | some k => simp only [Option.map_some, Option.getD_some]; omega
  unfold Config.fail
  dsimp only
  rw [Config.quiet_complain, Config.quiet_complain, Config.quiet_peek, Config.quiet_peek, ← htoken]
  by_cases hquiet : c₁.quiet = o₁.recoveryShifts
  · rw [if_pos (show c₁.quiet = (e.withOptions o₁).options.recoveryShifts from hquiet),
      if_pos (show c₂.quiet = (e.withOptions o₂).options.recoveryShifts from hdrop.mp hquiet)]
    split
    · refine ⟨?_, hcomplain⟩
      rw [hcomplain.currentLine_eq]
      rfl
    · apply Twin.recover hr
      apply Twin.record
      exact { hcomplain with ahead := rfl }
  · rw [if_neg (show ¬c₁.quiet = (e.withOptions o₁).options.recoveryShifts from hquiet),
      if_neg (show ¬c₂.quiet = (e.withOptions o₂).options.recoveryShifts from
        fun hquiet' ↦ hquiet (hdrop.mpr hquiet'))]
    exact hcomplain.recover hr _

/-- Twins take the same step. -/
theorem step (h₁ : 1 ≤ o₁.recoveryShifts) (h₂ : 1 ≤ o₂.recoveryShifts) (hr : r.Heedless same said)
    (h : Twin e o₁ o₂ same said c₁ c₂) (hcount : CountAlike o₁ o₂ c₁ c₂) :
    Step.Twins e o₁ o₂ same said (c₁.step (e.withOptions o₁) r)
      (c₂.step (e.withOptions o₂) r) := by
  cases hslots : c₁.stack.slots with
  | nil =>
    rw [Config.step_of_nil hslots, Config.step_of_nil (h.stack ▸ hslots)]
    exact ⟨rfl, h⟩
  | cons x rest =>
    have hrow : ∀ o, (e.withOptions o).rowAt x.state = e.rowAt x.state := fun _ ↦ rfl
    rw [Config.step_of_cons hslots, Config.step_of_cons (h.stack ▸ hslots), (h.peek hr).1, hrow,
      hrow]
    have hconsult := h.consult hr (e.rowAt x.state)
    have hcount' : CountAlike o₁ o₂ (c₁.consult (e.withOptions o₁) r (e.rowAt x.state))
        (c₂.consult (e.withOptions o₂) r (e.rowAt x.state)) := by
      obtain ⟨since, hcount₁, hcount₂⟩ := hcount
      exact ⟨since, (Config.quiet_consult _ _ _ c₁).trans hcount₁,
        (Config.quiet_consult _ _ _ c₂).trans hcount₂⟩
    cases (e.rowAt x.state).decide (c₂.peek (e.withOptions o₂) r).1.kind with
    | none => exact hconsult.fail h₁ h₂ hr hcount' x.state
    | some a =>
      cases a with
      | shift n => exact hconsult.shift hr hcount' n
      | reduce k => exact hconsult.reduce hr hcount' k
      | accept => exact hconsult.accept

theorem clear (hr : r.Heedless same said) (h : Twin e o₁ o₂ same said c₁ c₂) :
    Twin e o₁ o₂ same said (Engine.clear r c₁) (Engine.clear r c₂) := by
  have hslots : ∀ (slots : List (Slot V)) {c₁ c₂ : Config V σ},
      Twin e o₁ o₂ same said c₁ c₂ →
        Twin e o₁ o₂ same said (slots.foldl (fun c x ↦ c.release r x.value) c₁)
          (slots.foldl (fun c x ↦ c.release r x.value) c₂) := by
    intro slots
    induction slots with
    | nil => exact fun h ↦ h
    | cons x slots ih => exact fun h ↦ ih (h.release hr x.value)
  unfold Engine.clear
  rw [h.stack]
  apply hslots
  exact { h with stack := rfl }

end Twin

/-! ## Runs -/

end

/-- An unexpected token is reported. -/
def Event.isComplaint : Event V → Bool
  | .report d => d.kind = .grammatical
  | _ => false

end PlainLedger
