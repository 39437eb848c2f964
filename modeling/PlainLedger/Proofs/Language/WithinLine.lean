import PlainLedger.Proofs.Language.Resumption

/-!
# Within a line

From its first token to the end of its line nothing of a declaration is completed that is one of
whole lines, and no token is read on the way that a declaration can begin with. So where an error is
found within a line, the machine goes on with the next such token of the line or with its end,
whatever it has read of the line before.
-/

namespace PlainLedger.Language

variable {H ε σ ω : Type}

/-! ## Lines -/

/-- The kinds of tokens that a declaration begins with. -/
def headKinds : List Terminal := [.date, .pushTag, .popTag, .optionWord, .includeWord, .plugin]

/-- The kinds of tokens that stand before a line or at its end, and of those that are none. -/
def marginKinds : List Terminal :=
  [.eol, .comment, .skipped, .indent, .endOfInput, .error, .lexError]

/-- The tokens of one line, with its end. -/
inductive IsLine : List Token → Prop where
  | last {t : Token} (h : t.kind = .eol) : IsLine [t]
  | cons {t : Token} {ts : List Token} (h : t.kind ∉ marginKinds) (hts : IsLine ts) :
      IsLine (t :: ts)

/-- What is left of a line from the first token after its head that reading is taken up with. -/
def later (ts : List Token) : List Token := ts.tail.dropWhile fun t ↦ t.kind ∉ resumable

theorem headKinds_subset : headKinds ⊆ resumable := by decide

theorem mem_resumable_iff {k : Terminal} (h : k ∉ marginKinds) : k ∈ resumable ↔ k ∈ headKinds := by
  revert h
  cases k <;> decide

theorem dropWhile_of_eol {t : Token} (h : t.kind = .eol) (ts : List Token) :
    ((t :: ts).dropWhile fun t ↦ t.kind ∉ resumable) = t :: ts := by
  refine List.dropWhile_cons_of_neg ?_
  rw [h]
  decide

namespace IsLine

variable {t : Token} {ts : List Token}

theorem ne_nil (h : IsLine ts) : ts ≠ [] := by
  cases h <;> exact List.cons_ne_nil _ _

theorem kind_getLast? (h : IsLine ts) : ∀ t ∈ ts.getLast?, t.kind = .eol := by
  induction h with
  | last h => exact fun t ht ↦ Option.some.inj ht ▸ h
  | cons _ hts ih =>
    rwa [List.getLast?_cons_of_ne_nil hts.ne_nil]

/-- A line holds neither the end of the text nor what is no token. -/
theorem ne_of_mem (h : IsLine ts) {k : Terminal} (hk : k ∈ marginKinds) (heol : k ≠ .eol) :
    ∀ t ∈ ts, t.kind ≠ k := by
  induction h with
  | last h =>
    rintro t ht rfl
    rw [List.mem_singleton.mp ht] at heol
    exact heol h
  | cons h _ ih =>
    refine List.forall_mem_cons.mpr ⟨?_, ih⟩
    rintro rfl
    exact h hk

/-- What is left of a line when tokens are dropped is a line. -/
theorem dropWhile (h : IsLine ts) : IsLine (ts.dropWhile fun t ↦ t.kind ∉ resumable) := by
  induction h with
  | last h =>
    rw [dropWhile_of_eol h]
    exact .last h
  | @cons t ts h hts ih =>
    by_cases ht : t.kind ∈ resumable
    · rw [List.dropWhile_cons_of_neg (by simpa using ht)]
      exact .cons h hts
    · rwa [List.dropWhile_cons_of_pos (by simpa using ht)]

/-- If only the end of the line is left of it, no declaration can begin within the line. -/
theorem not_mem_headKinds (hlater : later ts = [] ∨ ∃ t, later ts = [t] ∧ t.kind = .eol) :
    ∀ t ∈ ts.tail, t.kind ∉ headKinds := by
  intro t ht hhead
  have hresumable : t.kind ∈ resumable := headKinds_subset hhead
  rw [← List.takeWhile_append_dropWhile (p := fun t ↦ decide (t.kind ∉ resumable)) (l := ts.tail),
    List.mem_append] at ht
  rcases ht with ht | ht
  · have hout := List.mem_takeWhile_imp ht
    exact of_decide_eq_true hout hresumable
  · change t ∈ later ts at ht
    rcases hlater with hlater | ⟨u, hlater, hu⟩
    · rw [hlater] at ht
      cases ht
    · rw [hlater, List.mem_singleton] at ht
      rw [ht, hu] at hhead
      exact absurd hhead (by decide)

end IsLine

/-! ## States -/

/-- Where edges lead from the states that are neither for the end of a line nor for an indent. -/
def onward (ns : List Nat) : List Nat :=
  ns.flatMap fun n ↦ (grammar.states[n]?.toList.flatMap fun s ↦ s.edges).filterMap fun e ↦
    if e.1 ∈ lineSymbols ∨ e.1 = .terminal .indent then none else some e.2

/-- The states that the machine comes to within a line. -/
def innerStates : List Nat := (fun ns ↦ (ns ++ onward ns).eraseDups)^[11] (onward [between])

section Edges

variable {n m : Nat} {x : Symbol} {t : Terminal}

theorem inner_edge (h : grammar.Edge n x m) (hn : n = between ∨ n ∈ innerStates) :
    (x ∈ lineSymbols ∨ x = .terminal .indent ∨ m ∈ innerStates) ∧
      (n ∈ innerStates → ∀ t ∈ headKinds, x ≠ .terminal t) := by
  have hall : ∀ n ∈ between :: innerStates, ∀ s ∈ grammar.states[n]?, ∀ e ∈ s.edges,
      (e.1 ∈ lineSymbols ∨ e.1 = .terminal .indent ∨ e.2 ∈ innerStates) ∧
      (n ∈ innerStates → ∀ t ∈ headKinds, e.1 ≠ .terminal t) := by
    unfold innerStates onward
    rw [states_eq]
    decide +kernel
  obtain ⟨s, hs, hx⟩ := h
  obtain ⟨l₁, l₂, hedges, -⟩ := List.lookup_eq_some_iff.mp hx
  refine hall n (List.mem_cons.mpr hn) s hs (x, m) ?_
  rw [hedges]
  exact List.mem_append_right _ (List.mem_cons_self ..)

/-- A token within a line leads to a state within the line. -/
theorem inner_shift (h : grammar.Edge n (.terminal t) m) (hn : n = between ∨ n ∈ innerStates)
    (ht : t ∉ marginKinds) : m ∈ innerStates := by
  refine ((inner_edge h hn).1.resolve_left fun hline ↦ ?_).resolve_left fun hindent ↦ ?_
  · revert ht hline
    cases t <;> decide
  · cases hindent
    exact ht (by decide)

theorem inner_reduce {row : Row} {k : Nat} {p : Rule Production} (hn : n ∈ innerStates)
    (hrow : tables.row? n = some row) (hdecide : row.decide t = some (.reduce k))
    (hrule : grammar.rules[k]? = some p) :
    .nonterminal p.lhs ∉ lineSymbols ∧ p.lhs ≠ Category.declarations.index ∧
      p.lhs ≠ Category.file.index := by
  have hall : ∀ n ∈ innerStates, ∀ row ∈ tables.row? n,
      ∀ k ∈ Row.reduced row.actions ++ row.default?.toList, ∀ p ∈ grammar.rules[k]?,
        .nonterminal p.lhs ∉ lineSymbols ∧ p.lhs ≠ Category.declarations.index ∧
          p.lhs ≠ Category.file.index := by
    unfold innerStates onward
    rw [states_eq, tables_eq]
    decide +kernel
  exact hall n hn row hrow k (Row.mem_reduced_of_decide hdecide) p hrule

end Edges

/-! ## The machine within a line -/

/-- The list of declarations is above the bottom that the machine began with. -/
def Holds (s₀ : Stack (Value H)) (es : List H) (above : List (Slot (Value H)))
    (c : Config (Value H) (Session σ)) : Prop :=
  ∃ ds b, c.stack.slots = above ++ [ds, b] ∧ ds.state = between ∧ ds.value = .list es ∧
    s₀.slots.getLast? = some b

/-- The machine has read some of the line, of which it holds phrases, but not its end. -/
inductive Within (s₀ : Stack (Value H)) (es : List H) (ts : List Token)
    (c : Config (Value H) (Session σ)) : Prop where
  | before (h : Holds s₀ es [] c) (hpending : c.pending = ts)
  | inside {above : List (Slot (Value H))} (h : Holds s₀ es above c) (hne : above ≠ [])
      (hinner : ∀ x ∈ above, x.state ∈ innerStates) (hline : IsLine c.pending)
      (hlater : (c.pending.dropWhile fun t ↦ t.kind ∉ resumable) = later ts)

section Steps

variable {i : Interpretation H ε σ ω} {ctx : Context} {options : Options} {s₀ : Stack (Value H)}
  {es : List H} {ts : List Token} {c c' : Config (Value H) (Session σ)} {xs : List Symbol}

theorem Within.isLine (h : Within s₀ es ts c) (hline : IsLine ts) : IsLine c.pending := by
  cases h with
  | before _ hpending => rwa [hpending]
  | inside _ _ _ hline' _ => exact hline'

/-- What is completed within a line does not take the list of declarations off the stack. -/
theorem length_le_of_inner (ctx : Context) (options : Options) {above : List (Slot (Value H))}
    {x ds b : Slot (Value H)}
    {rest : List (Slot (Value H))} {row : Row} {t : Terminal} {k : Nat} {p : Rule Production}
    (hs : Spelled grammar (fun _ _ ↦ True) (above ++ [ds, b]) xs) (hds : ds.state = between)
    (hslots : above ++ [ds, b] = x :: rest) (hrow : tables.row? x.state = some row)
    (hdecide : row.decide t = some (.reduce k)) (hrule : grammar.rules[k]? = some p)
    (hlhs : p.lhs ≠ Category.declarations.index ∧ p.lhs ≠ Category.file.index) :
    p.rhs.length ≤ above.length := by
  obtain ⟨p', hrule', hhas⟩ :=
    Grammar.allows_of_decide (show grammar.tables.row? x.state = some row from hrow) hdecide
  cases Option.some.inj (hrule.symm.trans hrule')
  obtain ⟨-, hdrop, -⟩ := spelled_above ctx options hs hds
  rw [hslots] at hs
  obtain ⟨-, htake, -⟩ := hs.reduce hrule hhas
  by_contra hlong
  -- the list of declarations would be among the symbols of the rule
  have hmem : Category.declarations.symbol ∈ p.rhs := by
    rw [← htake, List.mem_reverse]
    have hlt := Nat.not_le.mp hlong
    have hget : xs[above.length]? = some Category.declarations.symbol := by
      rw [← List.head?_drop, hdrop]
      rfl
    exact List.mem_of_getElem? ((List.getElem?_take_of_lt hlt).trans hget)
  have hgathers := (declarationRule hrule).declarations_mem
  rcases hgathers hmem with ⟨-, hfile, -⟩ | ⟨hdeclarations, -⟩
  · exact hlhs.2 hfile
  · exact hlhs.1 hdeclarations

/-- A step that no error is found in goes on within the line, or has read its end, and then no
declaration can begin within the line. -/
theorem Within.moves (h : Within s₀ es ts c) (hline : IsLine ts) (hi : i.Accepting)
    (hs : Spelled grammar (fun _ _ ↦ True) c.stack.slots xs)
    (hmoves : Config.Moves (engine ctx options) (reducer i ctx) c (.running c'))
    (herrs : ¬c.Errs (engine ctx options)) :
    Within s₀ es ts c' ∨ c'.pending = [] ∧ ∀ t ∈ ts.tail, t.kind ∉ headKinds := by
  have hexpected : ∀ {x : Slot (Value H)} {rest : List (Slot (Value H))} {row : Row},
      c.stack.slots = x :: rest → tables.row? x.state = some row → row.decide c.upcoming ≠ none :=
    fun hslots hrow hnone ↦ herrs
      ((Config.errs_iff (e := engine ctx options) hslots hrow).mpr hnone)
  cases hmoves with
  | @shift x rest row t us n _ v m hslots hrow hpending hdecide hvalue hslots' hpending' _ _ _ =>
    have hedge : grammar.Edge x.state (.terminal t.kind) n :=
      Config.edge_of_shift tables_engine hrow hdecide
    cases h with
    | before h hpending₀ =>
      obtain ⟨ds, b, hslots₀, hds, hvalue, hb⟩ := h
      cases hslots.symm.trans hslots₀
      rw [← hpending₀, hpending] at hline ⊢
      cases hline with
      | last => exact Or.inr ⟨hpending', nofun⟩
      | cons ht hus =>
        have hholds : Holds s₀ es [⟨n, _, t.span⟩] c' := ⟨_, b, hslots', hds, hvalue, hb⟩
        refine Or.inl (.inside hholds (List.cons_ne_nil _ _) ?_ (hpending' ▸ hus) (hpending' ▸ rfl))
        intro y hy
        rw [List.mem_singleton.mp hy]
        exact inner_shift hedge (Or.inl hds) ht
    | @inside above h hne hinner hline' hlater =>
      obtain ⟨ds, b, hslots₀, hds, hvalue, hb⟩ := h
      obtain ⟨y, above, rfl⟩ := List.exists_cons_of_ne_nil hne
      cases hslots.symm.trans hslots₀
      have hx : x.state ∈ innerStates := hinner x (List.mem_cons_self ..)
      rw [hpending] at hline' hlater
      cases hline' with
      | last ht =>
        refine Or.inr ⟨hpending', IsLine.not_mem_headKinds (Or.inr ⟨t, ?_, ht⟩)⟩
        rw [← hlater, dropWhile_of_eol ht]
      | cons ht hus =>
        have hhead : t.kind ∉ headKinds := fun hmem ↦
          (inner_edge hedge (Or.inr hx)).2 hx t.kind hmem rfl
        rw [List.dropWhile_cons_of_pos
          (by simpa using mt (mem_resumable_iff ht).mp hhead)] at hlater
        have hholds : Holds s₀ es (⟨n, _, t.span⟩ :: x :: above) c' :=
          ⟨ds, b, hslots', hds, hvalue, hb⟩
        refine Or.inl (.inside hholds (List.cons_ne_nil _ _) ?_ (hpending' ▸ hus)
          (hpending' ▸ hlater))
        exact List.forall_mem_cons.mpr ⟨inner_shift hedge (Or.inr hx) ht, hinner⟩
  | @reduce x y rest below row row' k n p v m _ hslots hrow hdecide hrule hbelow hrow' hgoto
      hverdict hslots' hpending' _ _ _ =>
    have hedge : grammar.Edge y.state (.nonterminal p.lhs) n :=
      Config.edge_of_goto? tables_engine hrow' hgoto
    cases h with
    | before h hpending =>
      obtain ⟨ds, b, hslots₀, hds, -⟩ := h
      cases hslots.symm.trans hslots₀
      obtain ⟨hend, -⟩ := decide_between (hds ▸ hrow) hdecide hrule
      rw [Config.upcoming_eq_endOfInput_iff, hpending] at hend
      exact (hline.ne_nil hend).elim
    | @inside above h hne hinner hline' hlater =>
      obtain ⟨ds, b, hslots₀, hds, hvalue, hb⟩ := h
      have hx : x.state ∈ innerStates := by
        obtain ⟨z, above, rfl⟩ := List.exists_cons_of_ne_nil hne
        cases hslots.symm.trans hslots₀
        exact hinner x (List.mem_cons_self ..)
      obtain ⟨hlhs, hkinds⟩ := inner_reduce hx hrow hdecide hrule
      have hle := length_le_of_inner ctx options (hslots₀ ▸ hs) hds (hslots₀.symm.trans hslots) hrow
        hdecide hrule hkinds
      rw [← hslots, hslots₀, List.drop_append_of_le_length hle] at hbelow
      have hy : y.state = between ∨ y.state ∈ innerStates := by
        cases habove : above.drop p.rhs.length with
        | nil =>
          rw [habove] at hbelow
          cases hbelow
          exact Or.inl hds
        | cons z zs =>
          rw [habove] at hbelow
          cases hbelow
          exact Or.inr (hinner y (List.mem_of_mem_drop (habove ▸ List.mem_cons_self ..)))
      have hholds : Holds s₀ es (⟨n, v, (Reduction.ofSlots k p.rhs.length (x :: rest)).span⟩ ::
          above.drop p.rhs.length) c' := by
        refine ⟨ds, b, ?_, hds, hvalue, hb⟩
        rw [hslots', ← hbelow]
        rfl
      refine Or.inl (.inside hholds (List.cons_ne_nil _ _) ?_ (hpending' ▸ hline')
        (hpending' ▸ hlater))
      · refine List.forall_mem_cons.mpr ⟨?_, fun z hz ↦ hinner z (List.mem_of_mem_drop hz)⟩
        exact ((inner_edge hedge hy).1.resolve_left hlhs).resolve_left nofun
  | reject _ _ _ _ _ hverdict _ _ =>
    rcases hi.verdict hverdict with ⟨v, hv⟩ | ⟨d, hd⟩
    · cases hv
    · cases hd
  | skip hslots hrow hdecide hpending _ _ _ =>
    refine (hexpected hslots hrow ?_).elim
    unfold Config.upcoming
    rw [hpending]
    exact hdecide
  | fail hslots hrow hdecide _ _ _ => exact (hexpected hslots hrow hdecide).elim

/-- Where an error is found within a line, everything of the line is taken off the stack, and what
is left of it before the next token that reading is taken up with is dropped. -/
theorem Within.recovers (h : Within s₀ es ts c)
    (hs : Spelled grammar (fun _ _ ↦ True) c.stack.slots xs) (hpoised : Poised options c)
    (hmoves : Config.Moves (engine ctx options) (reducer i ctx) c (.running c'))
    (hbounded : c'.stack.Bounded) (herrs : c.Errs (engine ctx options)) :
    Skips options es c' ∧ (∃ z, Holds s₀ es [z] c') ∧
      (c'.pending.dropWhile fun t ↦ t.kind ∉ resumable) = later ts := by
  have hdecided : ∀ {x : Slot (Value H)} {rest : List (Slot (Value H))} {row : Row},
      c.stack.slots = x :: rest → tables.row? x.state = some row → row.decide c.upcoming = none :=
    fun hslots hrow ↦ (Config.errs_iff (e := engine ctx options) hslots hrow).mp herrs
  -- recovery leaves what was there right before the line
  have hresumed : ∀ {pending : List Token} {m : Session σ},
      Config.Recovers (engine ctx options) (reducer i ctx) c.stack.slots pending m (.running c') →
        (Skips options es c' ∧ (∃ z, Holds s₀ es [z] c')) ∧ c'.pending = pending := by
    intro pending m hrecovers
    obtain ⟨above, ds, b, hslots, hds, hvalue, hb⟩ : ∃ above, Holds s₀ es above c := by
      cases h with
      | before h _ => exact ⟨_, h⟩
      | inside h _ _ _ _ => exact ⟨_, h⟩
    obtain ⟨above', ds', b', z, hslots₀, -, hz, hblank, hslots', -, -⟩ := resume_above hrecovers hs
    obtain ⟨-, htwo⟩ := List.append_inj' (hslots.symm.trans hslots₀) rfl
    cases htwo
    have hbottom : b.state = opening := by
      rw [hslots] at hs
      have hrest := hs.of_append
      generalize xs.drop above.length = ys at hrest
      cases hrest with
      | push h _ _ => exact h.state_eq_zero.1
    have hlength := hbounded.length
    rw [hslots'] at hlength
    cases hrecovers with
    | resume _ _ _ _ hpending hquiet _ =>
      exact ⟨⟨⟨⟨z, ds, b, hslots', hz, hblank, hds, hvalue, hbottom⟩, hquiet, hlength⟩,
        z, ds, b, hslots', hds, hvalue, hb⟩, hpending⟩
  cases hmoves with
  | shift hslots hrow hpending hdecide _ _ _ _ _ _ =>
    have hnone := hdecided hslots hrow
    unfold Config.upcoming at hnone
    rw [hpending] at hnone
    cases hdecide.symm.trans hnone
  | reduce hslots hrow hdecide _ _ _ _ _ _ _ _ _ _ =>
    cases hdecide.symm.trans (hdecided hslots hrow)
  | reject hslots hrow hdecide _ _ _ _ _ => cases hdecide.symm.trans (hdecided hslots hrow)
  | @skip x rest row t us m _ hslots hrow hdecide hpending hquiet _ hrecovers =>
    rw [← hslots] at hrecovers
    obtain ⟨hskips, hpending'⟩ := hresumed hrecovers
    refine ⟨hskips.1, hskips.2, ?_⟩
    rw [hpending']
    cases h with
    | before h hpending₀ =>
      rw [← hpending₀, hpending]
      rfl
    | inside _ _ _ _ hlater =>
      have hkind : c.upcoming = t.kind := by
        unfold Config.upcoming
        rw [hpending]
        rfl
      have hend : c.upcoming ≠ .endOfInput := fun hup ↦ by
        rw [Config.upcoming_eq_endOfInput_iff, hpending] at hup
        cases hup
      have ht := hpoised.upcoming_not_mem hslots hrow (hdecided hslots hrow) hquiet hend
      rw [hkind] at ht
      rwa [hpending, List.dropWhile_cons_of_pos (by simpa using ht)] at hlater
  | @fail x rest row m _ hslots hrow hdecide _ _ hrecovers =>
    rw [← hslots] at hrecovers
    obtain ⟨hskips, hpending'⟩ := hresumed hrecovers
    refine ⟨hskips.1, hskips.2, ?_⟩
    rw [hpending']
    cases h with
    | before h hpending₀ =>
      obtain ⟨ds, b, hslots₀, hds, -⟩ := h
      cases hslots.symm.trans hslots₀
      have hout := (decide_between_eq_none_iff (hds ▸ hrow) _).mp hdecide
      unfold Config.upcoming at hout
      unfold later
      rw [hpending₀] at hout ⊢
      cases ts with
      | nil => rfl
      | cons t us => exact List.dropWhile_cons_of_pos (by simpa using hout)
    | inside _ _ _ _ hlater => exact hlater

end Steps

end PlainLedger.Language
