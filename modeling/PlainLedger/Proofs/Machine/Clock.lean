import PlainLedger.Proofs.Machine.Reading

/-!
# The line that a machine is at

If each token of a source begins on the line where the one before it ends, or on a later one, the
line that a machine is at never goes back: it stays the same as long as no token is read, and what
is read begins on a later line or on the same one.
-/

namespace PlainLedger

/-- No token ends before it begins, and each begins where those before it have ended. -/
def Token.Successive (ts : List Token) : Prop :=
  (∀ t ∈ ts, t.span.firstLine ≤ t.span.lastLine) ∧
    ts.Pairwise fun t u ↦ t.span.lastLine ≤ u.span.firstLine

instance (ts : List Token) : Decidable (Token.Successive ts) := by
  unfold Token.Successive
  infer_instance

namespace Config

variable {α V σ : Type}

/-- The line on which the token read ahead begins, or the last one read. -/
def line (c : Config V σ) : Nat := c.currentSpan.firstLine

/-- Nothing that has not been used up begins above this line. -/
def horizon (c : Config V σ) : Nat :=
  (c.ahead?.map fun t ↦ t.span.firstLine).getD c.lastSpan.lastLine

/-- The tokens not yet read come in order. The token read ahead is the last one that was read, or
the end that comes after it. -/
structure Punctual (c : Config V σ) : Prop where
  proper : c.lastSpan.firstLine ≤ c.lastSpan.lastLine
  ahead : ∀ t, c.ahead? = some t →
    t.span = c.lastSpan ∨ t.kind = .endOfInput ∧ t.span = c.lastSpan.endPoint
  input : Token.Successive c.input

/-- What has not been read begins where the last token read has ended. -/
def Begun (c : Config V σ) : Prop := ∀ t ∈ c.input, c.lastSpan.lastLine ≤ t.span.firstLine

variable {e : Engine α} {r : Reducer α V σ} {c c' : Config V σ}

theorem currentLine_eq (c : Config V σ) : c.currentLine e = e.context.reported c.line := rfl

theorem line_of_ahead {t : Token} (h : c.ahead? = some t) : c.line = t.span.firstLine := by
  rw [line, currentSpan, h]
  rfl

theorem horizon_of_ahead {t : Token} (h : c.ahead? = some t) :
    c.horizon = t.span.firstLine := by
  rw [horizon, h]
  rfl

theorem line_of_none (h : c.ahead? = none) : c.line = c.lastSpan.firstLine := by
  rw [line, currentSpan, h]
  rfl

theorem horizon_of_none (h : c.ahead? = none) : c.horizon = c.lastSpan.lastLine := by
  rw [horizon, h]
  rfl

theorem Punctual.line_le_horizon (h : c.Punctual) : c.line ≤ c.horizon := by
  cases hahead : c.ahead? with
  | none =>
    rw [line_of_none hahead, horizon_of_none hahead]
    exact h.proper
  | some t => rw [line_of_ahead hahead, horizon_of_ahead hahead]

/-- A token other than the end stands where the last one was read. -/
theorem Punctual.span_eq (h : c.Punctual) {t : Token} (hahead : c.ahead? = some t)
    (hkind : t.kind ≠ .endOfInput) : t.span = c.lastSpan :=
  (h.ahead t hahead).resolve_right fun hend ↦ hkind hend.1

/-! ## Parts of a step that read no token -/

theorem SameReading.line_eq (h : SameReading c c') : c'.line = c.line := by
  rw [line, currentSpan, h.ahead, h.lastSpan]
  rfl

theorem SameReading.horizon_eq (h : SameReading c c') : c'.horizon = c.horizon := by
  rw [horizon, h.ahead, h.lastSpan]
  rfl

theorem Punctual.of_same (h : c.Punctual) (hsame : SameReading c c') : c'.Punctual := by
  refine ⟨?_, ?_, ?_⟩
  · rw [hsame.lastSpan]
    exact h.proper
  · rw [hsame.lastSpan, hsame.ahead]
    exact h.ahead
  · rw [hsame.input]
    exact h.input

theorem Begun.of_same (h : c.Begun) (hsame : SameReading c c') : c'.Begun := by
  rw [Begun, hsame.input, hsame.lastSpan]
  exact h

/-- The token ahead is used up. -/
theorem Punctual.consume (h : c.Punctual) (hahead : c'.ahead? = none)
    (hlast : c'.lastSpan = c.lastSpan) (hinput : c'.input = c.input) : c'.Punctual := by
  refine ⟨?_, ?_, ?_⟩
  · rw [hlast]
    exact h.proper
  · intro t ht
    rw [hahead] at ht
    cases ht
  · rw [hinput]
    exact h.input

/-! ## Reading -/

theorem punctual_start (input : List Token) (m : σ) (h : Token.Successive input) :
    (e.start r input m).config.Punctual := by
  unfold Engine.start
  dsimp only
  split
  · exact ⟨le_rfl, (fun _ h ↦ by cases h), h⟩
  · refine Punctual.of_same ?_ (sameReading_push _ _ _ _)
    exact ⟨le_rfl, (fun _ h ↦ by cases h), h⟩

/-- What comes of asking for a token. -/
inductive Reads (e : Engine α) (r : Reducer α V σ) (c : Config V σ) :
    Token → Config V σ → Prop where
  | nothing {c' : Config V σ} (hend : c.exhausted = true ∨ c.input = [])
      (hlast : c'.lastSpan = c.lastSpan) (hinput : c'.input = c.input)
      (hmemory : c'.memory = c.memory) : Reads e r c (.endOfInput c.lastSpan.endPoint) c'
  | token {t : Token} {rest : List Token} {c' : Config V σ} (hrest : c.input = t :: rest)
      (hlast : c'.lastSpan = t.span) (hinput : c'.input = rest)
      (hmemory : c'.memory =
        if t.kind = .lexError then
          r.report (diagnostic e .lexical (e.context.lineOf t.span) (lexicalMessage t)) c.memory
        else c.memory) : Reads e r c t c'

theorem reads_read (c : Config V σ) : Reads e r c (c.read e r).1 (c.read e r).2 := by
  by_cases hx : c.exhausted = true
  · rw [read_of_exhausted e r hx]
    exact .nothing (Or.inl hx) rfl rfl rfl
  · cases hi : c.input with
    | nil =>
      rw [read_of_nil e r (eq_false_of_ne_true hx) hi]
      exact .nothing (Or.inr hi) rfl rfl rfl
    | cons t rest =>
      unfold Config.read
      rw [if_neg hx, hi]
      dsimp only
      by_cases hlex : t.kind = .lexError
      · rw [if_pos hlex]
        exact .token hi rfl rfl (if_pos hlex).symm
      · rw [if_neg hlex]
        exact .token hi rfl rfl (if_neg hlex).symm

/-- If no token has been read ahead, a look reads one. -/
theorem exists_reads (h : c.ahead? = none) :
    ∃ t c', c.peek e r = (t, c') ∧ c'.ahead? = some t ∧ Reads e r c t c' := by
  refine ⟨_, _, peek_of_none e r h, rfl, ?_⟩
  cases hread : c.read e r with
  | mk t c' =>
    have hreads := c.reads_read (e := e) (r := r)
    rw [hread] at hreads
    cases hreads with
    | nothing hend hlast hinput hmemory => exact .nothing hend hlast hinput hmemory
    | token hrest hlast hinput hmemory => exact .token hrest hlast hinput hmemory

theorem Punctual.peek (h : c.Punctual) : (c.peek e r).2.Punctual := by
  cases hahead : c.ahead? with
  | some t => rwa [peek_of_ahead e r hahead]
  | none =>
    obtain ⟨t, c', hpeek, hahead', hreads⟩ := exists_reads (e := e) (r := r) hahead
    obtain ⟨hproper, -, hsorted⟩ := h
    rw [hpeek]
    cases hreads with
    | nothing _ hlast hinput _ =>
      refine ⟨?_, ?_, ?_⟩
      · rwa [hlast]
      · rintro t ht
        cases hahead'.symm.trans ht
        rw [hlast]
        exact Or.inr ⟨rfl, rfl⟩
      · rwa [hinput]
    | token hrest hlast hinput _ =>
      rw [hrest] at hsorted
      refine ⟨?_, ?_, ?_⟩
      · rw [hlast]
        exact hsorted.1 _ (List.mem_cons_self ..)
      · rintro t ht
        cases hahead'.symm.trans ht
        exact Or.inl hlast.symm
      · rw [hinput]
        exact ⟨fun u hu ↦ hsorted.1 u (List.mem_cons_of_mem _ hu), hsorted.2.of_cons⟩

/-- Once a token has been asked for, the others come after it. -/
theorem begun_peek (h : c.Punctual) (hb : c.Begun ∨ c.ahead? = none ∧ c.exhausted = false) :
    (c.peek e r).2.Begun := by
  cases hahead : c.ahead? with
  | some t =>
    rw [peek_of_ahead e r hahead]
    refine hb.resolve_right fun hnone ↦ ?_
    rw [hahead] at hnone
    cases hnone.1
  | none =>
    obtain ⟨t, c', hpeek, -, hreads⟩ := exists_reads (e := e) (r := r) hahead
    rw [hpeek, Begun]
    cases hreads with
    | nothing hend hlast hinput _ =>
      rw [hlast, hinput]
      rcases hb with hb | ⟨-, hexhausted⟩
      · exact hb
      · rw [hend.resolve_left (ne_true_of_eq_false hexhausted)]
        exact nofun
    | token hrest hlast hinput _ =>
      rw [hlast, hinput]
      have hsorted := h.input.2
      rw [hrest] at hsorted
      exact (List.pairwise_cons.mp hsorted).1

/-- The token ahead begins where all that has been used up has ended. -/
theorem horizon_le_peek (hb : c.Begun) : c.horizon ≤ (c.peek e r).2.line := by
  cases hahead : c.ahead? with
  | some t =>
    rw [peek_of_ahead e r hahead, line_of_ahead hahead, horizon_of_ahead hahead]
  | none =>
    obtain ⟨t, c', hpeek, hahead', hreads⟩ := exists_reads (e := e) (r := r) hahead
    rw [hpeek, horizon_of_none hahead, line_of_ahead hahead']
    cases hreads with
    | nothing => exact le_rfl
    | token hrest =>
      refine hb _ ?_
      rw [hrest]
      exact List.mem_cons_self ..

/-- Reading says nothing, unless the token is none. -/
theorem memory_peek (c : Config V σ) :
    (c.peek e r).2.memory = c.memory ∨
      (c.peek e r).1.kind = .lexError ∧ ∃ d : Diagnostic, d.kind = .lexical ∧
        d.line = (c.peek e r).2.currentLine e ∧ (c.peek e r).2.memory = r.report d c.memory := by
  cases hahead : c.ahead? with
  | some t =>
    rw [peek_of_ahead e r hahead]
    exact Or.inl rfl
  | none =>
    obtain ⟨t, c', hpeek, hahead', hreads⟩ := exists_reads (e := e) (r := r) hahead
    rw [hpeek, currentLine_eq, line_of_ahead hahead']
    cases hreads with
    | nothing _ _ _ hmemory => exact Or.inl hmemory
    | token _ _ _ hmemory =>
      rw [hmemory]
      split
      · rename_i hlex
        exact Or.inr ⟨hlex, _, rfl, rfl, rfl⟩
      · exact Or.inl rfl

end Config

end PlainLedger
