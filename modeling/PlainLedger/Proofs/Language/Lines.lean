import PlainLedger.Proofs.Language.Between
import PlainLedger.Proofs.Language.Recognition

/-!
# Whole lines

Where a line has ended, the phrases that are open are completed one after the other, unless an
indented line comes next, until the list of declarations is reached. So a text of whole lines, in
whatever disorder, is read to its end.
-/

namespace PlainLedger

/-- The rule that is completed at the end of the text. -/
def Row.completes? (row : Row) : Option Nat :=
  match row.decide .endOfInput with
  | some (.reduce k) => some k
  | _ => none

namespace Language

variable {H ε σ ω : Type}

/-- The symbols that lines end with, and those of phrases of whole lines. -/
def lineSymbols : List Symbol :=
  [.terminal .eol, .terminal .skipped, .terminal .error] ++
    ([Category.eol, .emptyLine, .keyValue, .keyValueList, .posting, .postingOrKvList, .directive,
      .entry, .pushTag, .popTag, .optionSetting, .includeFile, .plugin] ++ entryCategories).map
      Category.symbol

/-- The token is the last one of its line. -/
def EndsLine (t : Token) : Prop := .terminal t.kind ∈ lineSymbols

instance (t : Token) : Decidable (EndsLine t) := by
  unfold EndsLine
  infer_instance

/-- In the state a rule of whole lines is completed, unless an indented line comes next. -/
def Concludes (n : Nat) : Prop :=
  ∃ row ∈ tables.row? n, ∃ k ∈ row.completes?, ∃ p ∈ grammar.rules[k]?,
    (∀ t ∈ Terminal.all, t = .indent ∨ row.decide t = some (.reduce k)) ∧
      p.action.warns = false ∧
      (.nonterminal p.lhs ∈ lineSymbols ∨ p.lhs = Category.declarations.index)

instance (n : Nat) : Decidable (Concludes n) := by
  unfold Concludes
  infer_instance

theorem concludes_of_edge {n m : Nat} {x : Symbol} (h : grammar.Edge n x m) (hx : x ∈ lineSymbols) :
    Concludes m := by
  have hall : ∀ s ∈ grammar.states, ∀ e ∈ s.edges, e.1 ∈ lineSymbols → Concludes e.2 := by
    unfold Concludes
    rw [states_eq, tables_eq]
    decide +kernel
  obtain ⟨s, hs, hlookup⟩ := h
  obtain ⟨l₁, l₂, hedges, -⟩ := List.lookup_eq_some_iff.mp hlookup
  refine hall s (List.mem_of_getElem? hs) (x, m) ?_ hx
  rw [hedges]
  exact List.mem_append_right _ (List.mem_cons_self ..)

theorem concludes_skipped : Concludes skipped := concludes_of_edge edge_between_skipped (by decide)

/-- What is done where lines have ended. -/
theorem Concludes.decide {n : Nat} (h : Concludes n) {row : Row} (hrow : tables.row? n = some row) :
    ∃ k p, grammar.rules[k]? = some p ∧ p.action.warns = false ∧ p.lhs ≠ Category.file.index ∧
      (∀ t, t ≠ .indent → row.decide t = some (.reduce k)) ∧
      ∀ {y m}, grammar.Edge y (.nonterminal p.lhs) m → Concludes m ∨ m = between := by
  obtain ⟨row', hrow', k, -, p, hrule, hdecide, hwarns, hlhs⟩ := h
  cases Option.some.inj (hrow.symm.trans hrow')
  refine ⟨k, p, hrule, hwarns, ?_, fun t ht ↦ (hdecide t (Terminal.mem_all t)).resolve_left ht, ?_⟩
  · intro hfile
    rw [hfile] at hlhs
    exact absurd hlhs (by decide)
  intro y m hedge
  rcases hlhs with hlhs | hlhs
  · exact Or.inl (concludes_of_edge hedge hlhs)
  · rw [hlhs] at hedge
    exact Or.inr (edge_declarations hedge).2

/-! ## Runs over whole lines -/

/-- What is pending ends with the end of a line, and if nothing is pending, a line has ended. -/
structure Lineal (c : Config (Value H) (Session σ)) : Prop where
  spelled : ∃ xs, Spelled grammar (fun _ _ ↦ True) c.stack.slots xs
  last : ∀ t ∈ c.pending.getLast?, EndsLine t
  rested : c.pending = [] → ∀ x ∈ c.stack.slots.head?,
    Concludes x.state ∨ x.state = between ∨ x.state = closing
  closed : ∀ x ∈ c.stack.slots.head?, x.state = closing → c.pending = []

section Steps

variable {i : Interpretation H ε σ ω} {ctx : Context} {options : Options}
  {c c' : Config (Value H) (Session σ)}

/-- Nothing is unexpected where a line has ended and nothing is pending. -/
theorem Lineal.decide_ne_none (h : Lineal c) {x : Slot (Value H)} {rest : List (Slot (Value H))}
    {row : Row} (hslots : c.stack.slots = x :: rest) (hrow : tables.row? x.state = some row)
    (hpending : c.pending = []) : row.decide .endOfInput ≠ none := by
  rcases h.rested hpending x (by simp [hslots]) with hx | hx | hx
  · obtain ⟨k, p, -, -, -, hdecide, -⟩ := hx.decide hrow
    simp [hdecide .endOfInput (by decide)]
  · obtain ⟨k, hdecide⟩ := decide_between_end (hx ▸ hrow)
    simp [hdecide]
  · simp [decide_closing (hx ▸ hrow)]

/-- Recovery leads to the list of declarations. -/
theorem lineal_of_recovers {slots : List (Slot (Value H))} {pending : List Token} {m : Session σ}
    {xs : List Symbol} {s : Step (Value H) (Session σ)}
    (h : Config.Recovers (engine ctx options) (reducer i ctx) slots pending m s)
    (hs : Spelled grammar (fun _ _ ↦ True) slots xs) (hlast : ∀ t ∈ pending.getLast?, EndsLine t)
    (hstuck : ∃ z ∈ slots, (engine ctx options).errorShift? z.state ≠ none) :
    s.Post Lineal (fun _ _ ↦ True) fun cause _ ↦ ∃ d, cause = .stackOverflow d := by
  cases s with
  | accepted v c' => trivial
  | aborted cause c' =>
    cases h with
    | stuck hnone _ =>
      obtain ⟨z, hz, hshift⟩ := hstuck
      exact (hshift (hnone z hz)).elim
    | @overflow d _ _ => exact ⟨d, rfl⟩
  | running c' =>
    obtain ⟨above, ds, bottom, z, -, -, hz, -, hslots', hedge, hds⟩ := resume_above h hs
    have hhead : c'.stack.slots.head? = some z := by rw [hslots', List.head?_cons]
    cases h with
    | resume _ _ _ _ hpending _ _ =>
      refine ⟨?_, ?_, ?_, ?_⟩
      · rw [hslots']
        exact ⟨_, hds.push hedge trivial⟩
      · rwa [hpending]
      · rintro - x hx
        cases Option.some.inj (hhead.symm.trans hx)
        exact Or.inl (hz ▸ concludes_skipped)
      · intro x hx hclosing
        cases Option.some.inj (hhead.symm.trans hx)
        exact absurd (hz.symm.trans hclosing) (by decide)

/-- Where nothing is refused, a rule has a value unless what it is given does not fit. -/
theorem Interpretation.Accepting.verdict (hi : i.Accepting) {p : Production}
    {red : Reduction (Value H)} {s s' : Session σ} {verdict : Verdict (Value H)}
    (h : (reducer i ctx).reduce p red s = (verdict, s')) :
    (∃ v, verdict = .value v) ∨ ∃ d, verdict = .fatal (.defect d) := by
  simp only [reducer] at h
  split at h
  · cases h
    exact Or.inr ⟨_, rfl⟩
  · obtain ⟨v, s'', hperform⟩ := hi.exists_value _ _ _
    rw [hperform] at h
    cases h
    exact Or.inl ⟨v, rfl⟩

/-- A run over whole lines goes on to its end, unless there is no room on the stack. -/
theorem lineal_of_moves (hi : i.Accepting) {s : Step (Value H) (Session σ)}
    (h : Config.Moves (engine ctx options) (reducer i ctx) c s) (hc : Lineal c) :
    s.Post Lineal (fun _ _ ↦ True)
      fun cause _ ↦ (∃ d, cause = .stackOverflow d) ∨ ∃ d, cause = .defect d := by
  obtain ⟨xs, hs⟩ := hc.spelled
  have hrecovers : ∀ {slots : List (Slot (Value H))} {pending : List Token} {m : Session σ}
      {xs : List Symbol},
      Config.Recovers (engine ctx options) (reducer i ctx) slots pending m s →
      Spelled grammar (fun _ _ ↦ True) slots xs → (∀ t ∈ pending.getLast?, EndsLine t) →
      (∃ z ∈ slots, (engine ctx options).errorShift? z.state ≠ none) →
      s.Post Lineal (fun _ _ ↦ True)
        fun cause _ ↦ (∃ d, cause = .stackOverflow d) ∨ ∃ d, cause = .defect d :=
    fun h hs hlast hstuck ↦ (lineal_of_recovers h hs hlast hstuck).imp (fun _ h ↦ h)
      (fun _ _ h ↦ h) fun _ _ h ↦ Or.inl h
  cases h with
  | @shift x rest row t ts n c' v m hslots hrow hpending hdecide hvalue hslots' hpending' _ _ _ =>
    have hlast := hc.last
    rw [hslots] at hs
    rw [hpending] at hlast
    have hedge : grammar.Edge x.state (.terminal t.kind) n :=
      Config.edge_of_shift tables_engine hrow hdecide
    refine ⟨⟨_, hslots' ▸ hs.push hedge trivial⟩, ?_, ?_, ?_⟩
    · rw [hpending']
      cases ts with
      | nil => simp
      | cons u us => simpa using hlast
    · intro hnil z hz
      rw [hpending'] at hnil
      subst hnil
      rw [hslots'] at hz
      cases hz
      exact Or.inl (concludes_of_edge hedge (hlast t rfl))
    · intro z hz hclosing
      rw [hslots'] at hz
      cases hz
      obtain rfl : n = closing := hclosing
      cases (edge_to_closing hedge).2
  | @reduce x y rest below row row' k n p v m c' hslots hrow hdecide hrule hbelow hrow' hgoto
      hverdict hslots' hpending _ hquiet' _ =>
    rw [hslots] at hs
    have hedge : grammar.Edge y.state (.nonterminal p.lhs) n :=
      Config.edge_of_goto? tables_engine hrow' hgoto
    obtain ⟨-, -, -, hs'⟩ := hs.of_decide hrow hdecide hrule hbelow
    refine ⟨⟨_, hslots' ▸ hs'.push hedge trivial⟩, ?_, ?_, ?_⟩
    · rw [hpending]
      exact hc.last
    · intro hnil z hz
      rw [hslots'] at hz
      cases hz
      rw [hpending] at hnil
      rw [Config.upcoming_eq_endOfInput_iff.mpr hnil] at hdecide
      rcases hc.rested hnil x (by simp [hslots]) with hx | hx | hx
      · obtain ⟨k', p', hrule', -, -, hdecide', hgoes⟩ := hx.decide hrow
        cases hdecide.symm.trans (hdecide' _ (by decide))
        cases Option.some.inj (hrule.symm.trans hrule')
        rcases hgoes hedge with hn | hn
        · exact Or.inl hn
        · exact Or.inr (Or.inl hn)
      · obtain ⟨-, hlhs⟩ := decide_between (hx ▸ hrow) hdecide hrule
        rw [hlhs] at hedge
        exact Or.inr (Or.inr (edge_file hedge).2)
      · exact (state_ne_closing hs hrow hdecide hrule hbelow hedge hx).elim
    · intro z hz hclosing
      rw [hslots'] at hz
      cases hz
      obtain rfl : n = closing := hclosing
      rw [hpending, ← Config.upcoming_eq_endOfInput_iff]
      exact eq_endOfInput_of_edge_closing hs hrow hdecide hrule hbelow hedge
  | @reject _ _ _ _ _ _ _ _ _ _ _ _ _ _ _ _ hverdict _ _ =>
    rcases hi.verdict hverdict with ⟨v, hv⟩ | ⟨d, hd⟩
    · cases hv
    · cases hd
  | @fatal _ _ _ _ _ cause _ _ _ _ _ _ hverdict _ =>
    rcases hi.verdict hverdict with ⟨v, hv⟩ | ⟨d, hd⟩
    · cases hv
    · cases hd
      exact Or.inr ⟨d, rfl⟩
  | accept => trivial
  | @skip x rest row t ts m _ hslots hrow hdecide hpending _ _ hrecover =>
    have hlast := hc.last
    rw [hslots] at hs
    rw [hpending] at hlast
    refine hrecovers hrecover hs ?_ (exists_errorShift?_of_decide hs hrow hdecide fun hx ↦ ?_)
    · cases ts with
      | nil => simp
      | cons u us => simpa using hlast
    · rw [hc.closed x (by simp [hslots]) hx] at hpending
      cases hpending
  | @fail x rest row _ _ hslots hrow hdecide _ _ hrecover =>
    rw [hslots] at hs
    refine hrecovers hrecover hs hc.last (exists_errorShift?_of_decide hs hrow hdecide fun hx ↦ ?_)
    exact Config.upcoming_eq_endOfInput_iff.mpr (hc.closed x (by simp [hslots]) hx)
  | hopeless hslots hrow hdecide hpending _ _ =>
    exact (hc.decide_ne_none hslots hrow hpending hdecide).elim
  | @overflow d _ _ => exact Or.inl ⟨d, rfl⟩

end Steps

end Language

end PlainLedger
