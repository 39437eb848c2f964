import PlainLedger.Proofs.Language.Neighbours

/-!
# Passages of a text

A run over several texts of whole lines comes to a point between declarations wherever one of the
texts ends and the next one begins. Up to the last token of a text it does what is done with the
text alone; then, like the run that has come to its end, it completes what is still open, since no
indented line comes next.
-/

namespace PlainLedger.Language

open Transcript (Refusal)

variable {H : Type}

/-- What is said about a token that is none, when it is read. -/
def lexical {α : Type} (e : Engine α) (t : Token) : List Diagnostic :=
  if t.kind = .lexError then
    [Config.diagnostic e .lexical (e.context.lineOf t.span) (Config.lexicalMessage t)]
  else []

/-- The tokens are still to be used up. The first of them may have been looked at; `ds` is what has
been said about it. -/
inductive AtHead {α V σ : Type} (e : Engine α) (more : List Token) :
    List Diagnostic → Config V σ → Prop where
  | unread {d : Config V σ} (hahead : d.ahead? = none) (hinput : d.input = more)
      (hexhausted : d.exhausted = false) : AtHead e more [] d
  | read {d : Config V σ} {t : Token} {ts : List Token} (hmore : more = t :: ts)
      (hahead : d.ahead? = some t) (hinput : d.input = ts) (hexhausted : d.exhausted = false)
      (hlast : d.lastSpan = t.span) : AtHead e more (lexical e t) d
  | ended {d : Config V σ} (hmore : more = []) (hpending : d.pending = []) : AtHead e more [] d

namespace AtHead

variable {α V σ : Type} {e : Engine α} {more : List Token} {ds : List Diagnostic}
  {d d' : Config V σ}

theorem still (h : AtHead e more ds d) (hd : Still d d') : AtHead e more ds d' := by
  cases h with
  | unread hahead hinput hexhausted =>
    exact .unread (hd.ahead.trans hahead) (hd.input.trans hinput) (hd.exhausted.trans hexhausted)
  | read hmore hahead hinput hexhausted hlast =>
    exact .read hmore (hd.ahead.trans hahead) (hd.input.trans hinput)
      (hd.exhausted.trans hexhausted) (hd.lastSpan.trans hlast)
  | ended hmore hpending =>
    exact .ended hmore (hd.pending.trans hpending)

/-- What comes next is the first of the tokens. -/
theorem upcoming (h : AtHead e more ds d) (hmore : ∀ t ∈ more, t.kind ≠ .endOfInput) :
    d.upcoming = (more.head?.map Token.kind).getD .endOfInput := by
  have hpending : ∀ {ts : List Token}, (∀ t ∈ ts, t.kind ≠ .endOfInput) →
      (ts.takeWhile fun t ↦ t.kind ≠ .endOfInput) = ts := fun hts ↦
    List.takeWhile_eq_self_iff.mpr fun t ht ↦ decide_eq_true (hts t ht)
  unfold Config.upcoming Config.pending
  cases h with
  | unread hahead hinput hexhausted =>
    rw [hahead, hinput, hexhausted]
    exact congrArg (fun ts ↦ ((List.head? ts).map Token.kind).getD .endOfInput) (hpending hmore)
  | read hts hahead hinput hexhausted hlast =>
    subst hts
    rw [hahead, hinput, hexhausted]
    exact congrArg (fun ts ↦ ((List.head? ts).map Token.kind).getD .endOfInput) (hpending hmore)
  | ended hnil hd =>
    unfold Config.pending at hd
    rw [hd, hnil]

end AtHead

section Look

variable {make : Construction H → H} {ctx : Context} {options : Options} {more : List Token}
  {ws : List Diagnostic} {d : Config (Value H) (Granted H)}

/-- A look at the first of the tokens may tell of it. -/
theorem AtHead.peek (make : Construction H → H) (h : AtHead (engine ctx options) more ws d) :
    ∃ ws', AtHead (engine ctx options) more ws'
        (d.peek (engine ctx options) (granter make ctx)).2 ∧
      ∀ {xs ds} {s : Granted H},
        Session.Follows xs ds ws s d.memory → Session.Follows xs ds ws' s
          (d.peek (engine ctx options)
            (granter make ctx)).2.memory := by
  cases h with
  | unread hahead hinput hexhausted =>
    rw [Config.peek_of_none (engine ctx options) _ hahead]
    cases more with
    | nil =>
      rw [Config.read_of_nil (engine ctx options) _ hexhausted hinput]
      exact ⟨[], .ended rfl (by simp [Config.pending, Config.record, Token.endOfInput, Token.bare]),
        fun h ↦ h⟩
    | cons t ts =>
      rw [Config.read_of_cons (engine ctx options) hexhausted hinput]
      refine ⟨lexical (engine ctx options) t, ?_, fun h ↦ ?_⟩
      · split
        · exact .read rfl rfl rfl hexhausted rfl
        · exact .read rfl rfl rfl hexhausted rfl
      · unfold lexical
        split
        · exact h.tell _
        · exact h
  | read hmore hahead hinput hexhausted hlast =>
    rw [Config.peek_of_ahead (engine ctx options) _ hahead]
    exact ⟨_, .read hmore hahead hinput hexhausted hlast, fun h ↦ h⟩
  | ended hmore hpending =>
    have hup := Config.upcoming_eq_endOfInput_iff.mpr hpending
    obtain ⟨hmemory, -⟩ := Config.peek_of_ne_lexError (e := engine ctx options)
      (r := granter make ctx) (c := d)
      (by rw [hup]; decide)
    rw [hmemory]
    exact ⟨[], .ended hmore ((d.pending_peek _ _).trans hpending), fun h ↦ h⟩

/-- What is asked by the row may be a look at the first of the tokens. -/
theorem AtHead.consult (make : Construction H → H) (h : AtHead (engine ctx options) more ws d)
    (row : Row) :
    ∃ ws', AtHead (engine ctx options) more ws'
        (d.consult (engine ctx options) (granter make ctx) row) ∧
      ∀ {xs ds} {s : Granted H},
        Session.Follows xs ds ws s d.memory → Session.Follows xs ds ws' s
          (d.consult (engine ctx options)
            (granter make ctx) row).memory := by
  unfold Config.consult
  split
  · exact h.peek make
  · exact ⟨ws, h, fun h ↦ h⟩

end Look

section Runs

variable {make : Construction H → H} {ctx : Context} {options : Options} {es : List H}
  {xs : List (Exchange H Refusal)} {ds ws : List Diagnostic} {more : List Token} {P : Prop}
  {s₀ : Stack (Value H)} {c c' d d' : Config (Value H) (Granted H)}
  {n : Nat}

/-- The run is over after so many steps. -/
def Finishes (e : Engine Production) (r : Reducer Production (Value H) (Granted H))
    (n : Nat) (c : Config (Value H) (Granted H)) : Prop :=
  ∀ c', e.steps r n (.running c) ≠ .running c'

theorem Lineal.post_step (make : Construction H → H) (ctx : Context) (options : Options)
    (h : Lineal c) :
    (c.step (engine ctx options) (granter make ctx)).Post Lineal (fun _ _ ↦ True)
      fun cause _ ↦ (∃ d, cause = .stackOverflow d) ∨ ∃ d, cause = .defect d := by
  obtain ⟨ys, hs⟩ := h.spelled
  exact lineal_of_moves (accepting_granting make).watched
    (Config.moves_step tables_engine (fun _ _ ↦ not_edge_end) hs.path) h

theorem Lineal.step (h : Lineal c)
    (hstep : c.step (engine ctx options) (granter make ctx) = .running c') : Lineal c' := by
  have hpost := h.post_step make ctx options
  rwa [hstep] at hpost

/-- The first machine has used up its text. -/
structure UsedUp (make : Construction H → H) (ctx : Context) (options : Options) (es : List H)
    (xs : List (Exchange H Refusal)) (ds : List Diagnostic) (P : Prop) (s₀ : Stack (Value H))
    (more : List Token) (c d : Config (Value H) (Granted H)) :
    Prop where
  lineal : Lineal c
  pending : c.pending = []
  ends : ∃ n, Finishes (engine ctx options) (granter make ctx) n c
  beside : ∃ ws, AtHead (engine ctx options) more ws d ∧
    Beside (Extends es) (Session.Follows xs ds ws) P s₀ c d

theorem Attends.usedUp (h : Attends (Extends es) (Session.Follows xs ds []) P s₀ more c d)
    (hl : Lineal c) (hpending : c.pending = [])
    (hn : Finishes (engine ctx options) (granter make ctx) n c) :
    UsedUp make ctx options es xs ds P s₀ more c d := by
  obtain ⟨hbeside, hbefore⟩ := h
  obtain ⟨hahead, hinput⟩ := List.append_eq_nil_iff.mp (hbefore.pending_eq.symm.trans hpending)
  refine ⟨hl, hpending, ⟨n, hn⟩, [], .unread ?_ ?_ hbefore.exhausted.2, hbeside⟩
  · exact hbefore.ahead.trans (Option.toList_eq_nil_iff.mp hahead)
  · rw [hbefore.input, hinput, List.nil_append]

/-- Both machines do the same up to the end of the text. -/
theorem exists_usedUp (hl : Lineal c)
    (h : Attends (Extends es) (Session.Follows xs ds []) P s₀ more c d)
    (hn : Finishes (engine ctx options) (granter make ctx) n c) :
    (engine ctx options).Together (granter make ctx)
      (UsedUp make ctx options es xs ds P s₀ more) P (.running c) (.running d) := by
  induction n generalizing c d with
  | zero => exact (hn c rfl).elim
  | succ n ih =>
    by_cases hpending : c.pending = []
    · exact .arrive 0 rfl rfl (Attends.usedUp h hl hpending hn)
    · obtain ⟨ys, hs⟩ := hl.spelled
      refine .step (Attends.step make ctx options h hs hpending) fun c' d' hc' h' ↦
        ih (hl.step hc') h' ?_
      intro c'' hc''
      refine hn c'' ?_
      rw [Engine.steps_succ_running, hc', hc'']

/-- Both machines are between declarations, and the first one has used up its text. -/
structure Arrives (make : Construction H → H) (ctx : Context) (options : Options) (es hs : List H)
    (xs : List (Exchange H Refusal)) (ds : List Diagnostic) (P : Prop) (s₀ : Stack (Value H))
    (more : List Token) (c d : Config (Value H) (Granted H)) :
    Prop where
  usedUp : UsedUp make ctx options es xs ds P s₀ more c d
  slots : ∃ x y b, c.stack.slots = [x, b] ∧ d.stack.slots = [y, b] ∧ x.state = between ∧
    y.state = between ∧ x.value = .list hs ∧ y.value = .list (es ++ hs) ∧ b.state = opening

/-- Where the text has been used up, what is open is completed. -/
theorem UsedUp.step {Q : Prop} (h : UsedUp make ctx options es xs ds P s₀ more c d)
    (hmore : ∀ t ∈ more, t.kind ≠ .endOfInput) (hindent : ∀ t ∈ more.head?, t.kind ≠ .indent)
    {x : Slot (Value H)} (hx : c.stack.slots.head? = some x) (hconcludes : Concludes x.state) :
    Step.Along (fun c' d' ↦ c'.pending = [] ∧ ∃ ws, AtHead (engine ctx options) more ws d' ∧
        Beside (Extends es) (Session.Follows xs ds ws) P s₀ c' d') Q
      (c.step (engine ctx options) (granter make ctx))
      (d.step (engine ctx options) (granter make ctx)) := by
  obtain ⟨ys, hs⟩ := h.lineal.spelled
  obtain ⟨ws, hhead, hbeside⟩ := h.beside
  obtain ⟨z, rest, z', rest', row, hslots, hslots', hstate, hrow⟩ := Beside.exists_top hbeside hs
  obtain rfl : z = x := by
    rw [hslots, List.head?_cons] at hx
    exact Option.some.inj hx
  obtain ⟨k, p, hrule, hwarns, hfile, hdecide, -⟩ := hconcludes.decide hrow
  have hup : c.upcoming = .endOfInput := Config.upcoming_eq_endOfInput_iff.mpr h.pending
  have hdecided : row.decide c.upcoming = some (.reduce k) := by
    rw [hup]
    exact hdecide _ (by decide)
  have hdecided' : row.decide d.upcoming = some (.reduce k) := by
    refine hdecide _ ?_
    rw [hhead.upcoming hmore]
    cases hfirst : more.head? with
    | none => exact (by decide : Terminal.endOfInput ≠ .indent)
    | some t => exact hindent t hfirst
  obtain ⟨ws', hhead', htold⟩ := hhead.consult make row
  obtain ⟨hmemory, -⟩ := Config.consult_of_ne_lexError (e := engine ctx options)
    (r := granter make ctx) (c := c) row (by rw [hup]; decide)
  have hbeside' : Beside (Extends es) (Session.Follows xs ds ws') P s₀
      (c.consult (engine ctx options) (granter make ctx) row)
      (d.consult (engine ctx options) (granter make ctx) row) := by
    refine hbeside.remember (c.stack_consult _ _ row) (d.stack_consult _ _ row)
      (c.quiet_consult _ _ row) (d.quiet_consult _ _ row) ?_
    rw [hmemory]
    exact htold hbeside.told
  have hslots₁ : (c.consult (engine ctx options)
      (granter make ctx) row).stack.slots = z :: rest := by
    rw [Config.stack_consult, hslots]
  have hpending₁ : (c.consult (engine ctx options)
      (granter make ctx) row).pending = [] := by
    rw [Config.pending_consult, h.pending]
  have hreduce := Beside.reduce (Q := Q) make ctx options hbeside'
    (hslots₁ ▸ hslots ▸ hs) hslots₁ hrow
    hdecided hrule hfile (Or.inr hwarns)
  rw [Config.step_eq (engine ctx options) _ hslots hrow,
    Config.step_eq (engine ctx options) _ hslots' (hstate ▸ hrow), Config.kind_peek,
      Config.kind_peek,
    hdecided, hdecided']
  refine hreduce.imp ?_
  rintro c' d' ⟨hbeside'', hc', hd'⟩
  exact ⟨hc'.pending.trans hpending₁, ws', hhead'.still hd', hbeside''⟩

/-- The state above the list of declarations is not that between declarations, nor that in which a
whole ledger has been read. -/
theorem above_eq_nil {T : Symbol → Value H → Prop} {above : List (Slot (Value H))}
    {x b z : Slot (Value H)} {ys : List Symbol} (hs : Spelled grammar T (above ++ [x, b]) ys)
    (hz : (above ++ [x, b]).head? = some z)
    (hstate : z.state = between ∨ z.state = closing) : above = [] := by
  cases above with
  | nil => rfl
  | cons w above =>
    cases hz
    rw [List.cons_append] at hs
    rcases hstate with hstate | hstate
    · obtain ⟨bottom, hbottom, -⟩ := below_between hs hstate
      have hlength := congrArg List.length hbottom
      simp at hlength
    · obtain ⟨bottom, hbottom, -⟩ := below_closing hs hstate
      have hlength := congrArg List.length hbottom
      simp at hlength

/-- Both machines come to a point between declarations. -/
theorem UsedUp.exists_arrives {Q : Prop} (h : UsedUp make ctx options es xs ds P s₀ more c d)
    (hmore : ∀ t ∈ more, t.kind ≠ .endOfInput) (hindent : ∀ t ∈ more.head?, t.kind ≠ .indent) :
    (engine ctx options).Together (granter make ctx)
      (fun c' d' ↦ ∃ hs, Arrives make ctx options es hs xs ds P s₀ more c' d') Q (.running c)
      (.running d) := by
  obtain ⟨n, hn⟩ := h.ends
  induction n generalizing c d with
  | zero => exact (hn c rfl).elim
  | succ n ih =>
    obtain ⟨ys, hs⟩ := h.lineal.spelled
    obtain ⟨ws, hhead, hbeside⟩ := h.beside
    obtain ⟨above, x, y, b, hc, hd, hx, hy, hs₁, hvalue, hvalue'⟩ := hbeside.slots
    obtain ⟨z, hz⟩ : ∃ z, c.stack.slots.head? = some z := by
      obtain ⟨z, rest, hslots⟩ := List.exists_cons_of_ne_nil hs.ne_nil
      exact ⟨z, by rw [hslots, List.head?_cons]⟩
    have harrives : z.state = between ∨ z.state = closing →
        Arrives make ctx options es hs₁ xs ds P s₀ more c d := by
      intro hstate
      rw [hc] at hs hz
      obtain rfl := above_eq_nil hs hz hstate
      refine ⟨h, x, y, b, hc, hd, hx, hy, hvalue, hvalue', ?_⟩
      cases hs with
      | push hs _ _ => exact hs.state_eq_zero.1
    rcases h.lineal.rested h.pending z hz with hconcludes | hstate
    · refine .step (h.step hmore hindent hz hconcludes) ?_
      rintro c' d' hc' ⟨hpending, hbeside'⟩
      have hn' : Finishes (engine ctx options)
          (granter make ctx) n c' := by
        intro c'' hc''
        refine hn c'' ?_
        rw [Engine.steps_succ_running, hc', hc'']
      exact ih ⟨h.lineal.step hc', hpending, ⟨n, hn'⟩, hbeside'⟩ hn'
    · exact .arrive 0 rfl rfl ⟨hs₁, harrives hstate⟩

/-! ## The beginning and the end of a run -/

/-- A ledger and its list of declarations begin where the text begins. -/
theorem edges_opening : grammar.Edge opening Category.file.symbol closing ∧
    grammar.Edge opening Category.declarations.symbol between := by
  have hedge : ∀ {x : Symbol} {m : Nat},
      (grammar.states[opening]?.bind fun s ↦ s.edges.lookup x) = some m →
        grammar.Edge opening x m := fun h ↦ Option.bind_eq_some_iff.mp h
  refine ⟨hedge ?_, hedge ?_⟩ <;>
  · rw [states_eq]
    decide +kernel

theorem exists_goto_opening {x : Category} {n : Nat} (hedge : grammar.Edge opening x.symbol n) :
    ∃ row, tables.row? opening = some row ∧ row.goto? x.index = some n := by
  obtain ⟨row, hrow⟩ : ∃ row, tables.row? opening = some row := by
    obtain ⟨S, hS, -⟩ := hedge
    exact Grammar.exists_row hS
  exact ⟨row, hrow, (Grammar.goto?_eq_some_iff hrow).mpr hedge⟩

theorem push_of_room {V σ α : Type} {r : Reducer α V σ} {c : Config V σ}
    (h : c.stack.length < c.stack.capacity) (n : Nat) (v : V) (span : Span) :
    c.push r n v span =
      .running { c with stack := { c.stack with slots := ⟨n, v, span⟩ :: c.stack.slots } } := by
  unfold Config.push
  rw [Stack.push_of_lt h]

/-- Where no token is left between declarations, the ledger is complete, whatever is made of it. -/
theorem exists_closed {ε σ ω : Type} (i : Interpretation H ε σ ω) (ctx : Context)
    (options : Options) {c : Config (Value H) (Session σ)} {x b : Slot (Value H)}
    (hslots : c.stack.slots = [x, b]) (hx : x.state = between) (hb : b.state = opening)
    (hroom : 2 ≤ c.stack.capacity) (hpending : c.pending = []) :
    ∃ c' span, c.step (engine ctx options) (reducer i ctx) = .running c' ∧
      c'.stack.slots = [⟨closing, x.value, span⟩, b] ∧ c'.pending = [] ∧
      c'.memory = c.memory := by
  obtain ⟨row, hrow, -⟩ := exists_row_between
  obtain ⟨k, hdecide⟩ := decide_between_end hrow
  obtain ⟨p, hrule, -⟩ :=
    Grammar.allows_of_decide (show grammar.tables.row? between = some row from hrow) hdecide
  obtain ⟨-, hlhs⟩ := decide_between hrow hdecide hrule
  obtain ⟨-, -, -, hrhs, -, -, -, hgathers⟩ := declarationRule hrule
  have hrhs := hrhs hlhs
  have haction : p.action = .file := by
    rcases hgathers (by rw [hrhs]; exact List.mem_singleton.mpr rfl) with ⟨haction, -⟩ | ⟨hother, -⟩
    · exact haction
    · exact absurd (hlhs.symm.trans hother) (by decide)
  obtain ⟨row₀, hrow₀, hgoto⟩ := exists_goto_opening edges_opening.1
  have hup : c.upcoming = .endOfInput := Config.upcoming_eq_endOfInput_iff.mpr hpending
  obtain ⟨hmemory, -⟩ := Config.consult_of_ne_lexError (e := engine ctx options)
    (r := reducer i ctx) (c := c) row (by rw [hup]; decide)
  have hstack := c.stack_consult (engine ctx options) (reducer i ctx) row
  have hpending₁ := c.pending_consult (engine ctx options) (reducer i ctx) row
  rw [Config.step_eq (engine ctx options) _ hslots (hx ▸ hrow), Config.kind_peek, hup, hdecide]
  dsimp only
  generalize c.consult (engine ctx options) (reducer i ctx) row = c₁ at hmemory hstack hpending₁ ⊢
  have hslots₁ : c₁.stack.slots = [x, b] := by rw [hstack, hslots]
  have hbelow : [x, b].drop p.rhs.length = [b] := by
    rw [hrhs]
    rfl
  have hverdict : (reducer i ctx).reduce p.action
      (.ofSlots k p.rhs.length c₁.stack.slots) c₁.memory = (.value x.value, c.memory) := by
    rw [haction, hrhs, hslots₁, hmemory]
    rfl
  have hdrop : (c₁.reduced k p (.value x.value, c.memory)).stack.slots = [b] := by
    rw [← hbelow, ← hslots₁]
    rfl
  have hcapacity : (c₁.reduced k p (.value x.value, c.memory)).stack.capacity =
      c.stack.capacity :=
    (congrArg Stack.capacity hstack : c₁.stack.capacity = c.stack.capacity)
  rw [Config.reduce_eq_push (e := engine ctx options) hslots₁ hrule hbelow (hb ▸ hrow₀)
    (by rw [hlhs]; exact hgoto) hverdict, push_of_room]
  · exact ⟨_, _, rfl, congrArg (_ :: ·) hdrop, hpending₁.trans hpending, rfl⟩
  · unfold Stack.length
    rw [hdrop, hcapacity]
    exact hroom

/-- Where no token is left between declarations, the whole ledger is accepted. -/
theorem exists_accepted (make : Construction H → H) (ctx : Context) (options : Options)
    {x b : Slot (Value H)} {hs : List H} (hslots : c.stack.slots = [x, b])
    (hx : x.state = between) (hvalue : x.value = .list hs) (hb : b.state = opening)
    (hroom : 2 ≤ c.stack.capacity) (hpending : c.pending = []) :
    ∃ c', (engine ctx options).steps (granter make ctx) 2
        (.running c) = .accepted (.list hs) c' ∧ c'.memory = c.memory := by
  obtain ⟨c₁, span, hstep, hslots₁, hpending₁, hmemory⟩ :=
    exists_closed (Interpretation.granting make).watched ctx options hslots hx hb hroom hpending
  rw [hvalue] at hslots₁
  obtain ⟨row, hrow, haccept⟩ := exists_row_closing
  have hpost := Config.step_of_accept (e := engine ctx options)
    (r := granter make ctx) hslots₁ hrow hpending₁ haccept
  rw [Engine.steps_succ_running, hstep, Engine.steps_succ_running, Engine.steps_zero]
  cases hlast : c₁.step (engine ctx options)
      (granter make ctx) with
  | running c₂ =>
    rw [hlast] at hpost
    exact hpost.elim
  | aborted cause c₂ =>
    rw [hlast] at hpost
    exact hpost.elim
  | accepted v c₂ =>
    rw [hlast] at hpost
    obtain ⟨rfl, -, hmemory₂, -⟩ := hpost
    exact ⟨c₂, rfl, hmemory₂.trans hmemory⟩

/-- The first step puts an empty list of declarations on the stack, without a look at the text. -/
theorem exists_step_opening (make : Construction H → H) (ctx : Context) (options : Options) :
    ∃ (k : Nat) (p : Rule Production), p.rhs = [] ∧
      ∀ (c : Config (Value H) (Granted H)) x,
      c.stack.slots = [x] → x.state = opening →
      c.step (engine ctx options) (granter make ctx) =
        (c.reduced k p (.value (.list []), c.memory)).push
          (granter make ctx) between (.list [])
          (Reduction.ofSlots k 0 [x]).span := by
  obtain ⟨row, hrow, hgoto⟩ := exists_goto_opening edges_opening.2
  obtain ⟨row', hrow', hactions, k, hk, p, hrule, hlhs, hrhs, haction⟩ := completes_opening
  cases Option.some.inj (hrow.symm.trans hrow')
  have hlook : row.needsLookahead = false := by simp [Row.needsLookahead, hactions]
  refine ⟨k, p, hrhs, fun c x hslots hx ↦ ?_⟩
  have hverdict : (granter make ctx).reduce p.action
      (.ofSlots k p.rhs.length c.stack.slots) c.memory = (.value (.list []), c.memory) := by
    rw [haction, hrhs, hslots]
    exact congrArg (Prod.mk _) (releaseAll_granting _ _)
  have hconsult : c.consult (engine ctx options)
      (granter make ctx) row = c := by
    unfold Config.consult
    rw [hlook]
    rfl
  rw [Config.step_eq (engine ctx options) _ hslots (hx ▸ hrow),
    Row.decide_of_not_needsLookahead hlook, hconsult, Option.mem_def.mp hk]
  change c.reduce _ _ k = _
  rw [Config.reduce_eq_push (e := engine ctx options) (y := x) hslots hrule
    (show [x].drop p.rhs.length = [x] by rw [hrhs]; rfl) (hx ▸ hrow)
    (by rw [hlhs]; exact hgoto) hverdict, hslots, hrhs]
  rfl

/-- What is there when a run has begun: an empty list of declarations above the bottom of a stack
that does not depend on the text. -/
def opened (s₀ : Stack (Value H)) (log : Array (Event (Value H))) (text : List Token) :
    Config (Value H) (Granted H) :=
  ⟨s₀, none, text, false, .start, 0, ⟨((), []), #[]⟩, log⟩

theorem pending_opened (s₀ : Stack (Value H)) (log : Array (Event (Value H))) {text : List Token}
    (hends : ∀ t ∈ text, t.kind ≠ .endOfInput) : (opened s₀ log text).pending = text :=
  List.takeWhile_eq_self_iff.mpr fun t ht ↦ decide_eq_true (hends t ht)

/-- The stack with which a run goes on to its first declaration. -/
structure Opens (s₀ : Stack (Value H)) : Prop where
  slots : ∃ x b, s₀.slots = [x, b] ∧ x.state = between ∧ x.value = .list [] ∧ b.state = opening
  bounded : s₀.Bounded

/-- All runs begin with the same stack, or there is no room for one. -/
theorem exists_opens (make : Construction H → H) (ctx : Context) (options : Options) :
    (∀ text, ∃ k cause c, (engine ctx options).steps
        (granter make ctx) k
        ((engine ctx options).start (granter make ctx) text
          ⟨((), []), #[]⟩) = .aborted cause c) ∨
      ∃ (s₀ : Stack (Value H)) (log : Array (Event (Value H))), Opens s₀ ∧ ∀ text,
        (engine ctx options).steps (granter make ctx) 1
          ((engine ctx options).start (granter make ctx) text
            ⟨((), []), #[]⟩) = .running (opened s₀ log text) := by
  obtain ⟨k, p, hrhs, hstep⟩ := exists_step_opening make ctx options
  unfold Engine.start
  cases hcreate : Stack.create (V := Value H) (engine ctx options).options.initialStackDepth
      (engine ctx options).options.maxStackDepth with
  | error overflow => exact Or.inl fun text ↦ ⟨0, _, _, rfl⟩
  | ok s =>
    dsimp only
    unfold Config.push
    dsimp only
    cases hpush : s.push ⟨0, (granter make ctx).blank, .start⟩ with
    | error overflow => exact Or.inl fun text ↦ ⟨0, _, _, rfl⟩
    | ok s₁ =>
      dsimp only
      obtain ⟨hbounded, -⟩ := (Stack.bounded_create hcreate).push hpush
      have hslots : s₁.slots = [⟨0, (granter make ctx).blank,
          .start⟩] := by rw [Stack.slots_push hpush, Stack.slots_create hcreate]
      have hdrop : ({ s₁ with slots := s₁.slots.drop p.rhs.length } : Stack (Value H)) = s₁ := by
        rw [hrhs]
        rfl
      have hsecond := fun text ↦ (Engine.steps_one _ _ _).trans
        (hstep ⟨s₁, none, text, false, .start, 0, ⟨((), []), #[]⟩, #[]⟩ _ hslots rfl)
      unfold Config.push Config.reduced at hsecond
      dsimp only at hsecond
      rw [hdrop] at hsecond
      cases hlist : s₁.push ⟨between, .list [], (Reduction.ofSlots k 0
          [⟨0, (granter make ctx).blank, .start⟩]).span⟩ with
      | error overflow =>
        rw [hlist] at hsecond
        exact Or.inl fun text ↦ ⟨1, _, _, hsecond text⟩
      | ok s₂ =>
        rw [hlist] at hsecond
        obtain ⟨hbounded₂, -⟩ := hbounded.push hlist
        have hslots₂ := (Stack.slots_push hlist).trans (congrArg (_ :: ·) hslots)
        exact Or.inr ⟨s₂, _, ⟨⟨_, _, hslots₂, rfl, rfl, rfl⟩, hbounded₂⟩, hsecond⟩

end Runs

end PlainLedger.Language
