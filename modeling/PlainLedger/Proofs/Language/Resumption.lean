import PlainLedger.Proofs.Language.Entries
import PlainLedger.Proofs.Language.Passages
import PlainLedger.Proofs.Machine.Capacity
import PlainLedger.Proofs.Machine.Discards
import PlainLedger.Proofs.Machine.Quiet

/-!
# Where reading is taken up again

After an error everything above the list of declarations is gone, and the list holds the entries
that were made. Tokens are then dropped one by one up to the first that a declaration or an empty
line can begin with, and no such token is ever dropped.
-/

namespace PlainLedger

/-- Recovery goes on above the slots that it leaves. -/
theorem Config.recover_of_unwind {α V σ : Type} {e : Engine α} {r : Reducer α V σ}
    {c : Config V σ} {popped rest : List (Slot V)} {x : Slot V} {n : Nat}
    (hunwind : unwind e c.stack.slots = (popped, x :: rest))
    (hshift : e.errorShift? x.state = some n) (start : Span) :
    c.recover e r start = ((c.unwound e r).record (.resume n (c.skippedSpan e start))).push r n
      r.blank (c.skippedSpan e start) := by
  rw [recover_eq, hunwind]
  dsimp only
  rw [hshift]

namespace Language

variable {H ε σ ω : Type}

/-- The kinds of tokens that are read between declarations, and the end of the text. -/
def resumable : List Terminal :=
  [.endOfInput, .error, .eol, .comment, .skipped, .date, .pushTag, .popTag, .optionWord,
    .includeWord, .plugin]

theorem decide_between_eq_none_iff {row : Row} (hrow : tables.row? between = some row)
    (t : Terminal) : row.decide t = none ↔ t ∉ resumable := by
  have hall : ∀ row ∈ tables.row? between, ∀ t ∈ Terminal.all,
      (row.decide t).isNone = decide (t ∉ resumable) := by
    rw [tables_eq]
    decide +kernel
  have h := hall row hrow t (Terminal.mem_all t)
  rw [← Option.isNone_iff_eq_none, h, decide_eq_true_iff]

/-! ## The stack after an error -/

/-- There is nothing above the list of declarations, which holds the entries, and nothing has been
shifted since the last error. -/
structure Rests (options : Options) (entries : List H) (c : Config (Value H) (Session σ)) :
    Prop where
  slots : ∃ ds b, c.stack.slots = [ds, b] ∧ ds.state = between ∧ ds.value = .list entries ∧
    b.state = opening
  quiet : c.quiet = options.recoveryShifts
  room : 3 ≤ c.stack.capacity

/-- There is skipped text above the list of declarations. -/
structure Skips (options : Options) (entries : List H) (c : Config (Value H) (Session σ)) :
    Prop where
  slots : ∃ z ds b, c.stack.slots = [z, ds, b] ∧ z.state = skipped ∧ z.value = .nothing ∧
    ds.state = between ∧ ds.value = .list entries ∧ b.state = opening
  quiet : c.quiet = options.recoveryShifts
  room : 3 ≤ c.stack.capacity

section Steps

variable {i : Interpretation H ε σ ω} {ctx : Context} {options : Options} {entries : List H}
  {c c' : Config (Value H) (Session σ)} {t : Token} {ts : List Token}

/-- Skipped text is put into the list of declarations, without a look at the token ahead. -/
theorem Skips.step (i : Interpretation H ε σ ω) (ctx : Context) (h : Skips options entries c) :
    ∃ stack red, c.step (engine ctx options) (reducer i ctx) =
        .running { c with stack, log := c.log.push (.reduce red (.value (.list entries))) } ∧
      Rests options entries
        { c with stack, log := c.log.push (.reduce red (.value (.list entries))) } := by
  obtain ⟨⟨z, ds, b, hslots, hz, hblank, hds, hvalue, hb⟩, hquiet, hroom⟩ := h
  obtain ⟨row, hrow, hactions, k, hk, p, hrule, hlhs, hrhs, haction⟩ := completes_skipped
  obtain ⟨row₀, hrow₀, hgoto⟩ := exists_goto_opening edges_opening.2
  have hlook : row.needsLookahead = false := by simp [Row.needsLookahead, hactions]
  have hbelow : [z, ds, b].drop p.rhs.length = [b] := by
    rw [hrhs]
    rfl
  have hverdict : (reducer i ctx).reduce p.action (.ofSlots k p.rhs.length c.stack.slots) c.memory =
      (.value (.list entries), c.memory) := by
    rw [haction, hrhs, hslots]
    change (reducer i ctx).reduce .declarationsError ⟨k, _, [ds.value, z.value], _, _⟩ _ = _
    rw [hblank, hvalue]
    rfl
  have hconsult : c.consult (engine ctx options) (reducer i ctx) row = c := by
    unfold Config.consult
    rw [hlook]
    rfl
  have hto : row₀.goto? p.lhs = some between := by rw [hlhs, hgoto]
  have hdrop : (c.reduced k p (.value (.list entries), c.memory)).stack.slots = [b] := by
    rw [← hbelow, ← hslots]
    rfl
  rw [Config.step_eq (engine ctx options) _ hslots (hz ▸ hrow),
    Row.decide_of_not_needsLookahead hlook, hconsult, Option.mem_def.mp hk]
  change ∃ stack red, c.reduce _ _ k = _ ∧ _
  rw [Config.reduce_eq_push (e := engine ctx options) hslots hrule hbelow (hb ▸ hrow₀) hto hverdict,
    push_of_room, hdrop]
  · exact ⟨_, _, rfl, ⟨⟨_, b, rfl, rfl, rfl, hb⟩, hquiet, hroom⟩⟩
  · unfold Stack.length
    rw [hdrop]
    exact (by omega : 1 < 3).trans_le hroom

/-- Recovery between declarations takes nothing off the stack. -/
theorem exists_recover (i : Interpretation H ε σ ω) (ctx : Context) (options : Options)
    {ds b : Slot (Value H)} (hslots : c.stack.slots = [ds, b]) (hds : ds.state = between)
    (hroom : 3 ≤ c.stack.capacity) (start : Span) :
    ∃ span, c.recover (engine ctx options) (reducer i ctx) start =
      .running { c with
        stack := { c.stack with slots := [⟨skipped, .nothing, span⟩, ds, b] }
        quiet := options.recoveryShifts
        log := c.log.push (.resume skipped span) } := by
  have hshift := errorShift?_between ctx options
  have hunwind : Config.unwind (engine ctx options) c.stack.slots = ([], [ds, b]) := by
    rw [hslots, Config.unwind, hds, hshift]
    · rfl
    · simp
  have hunwound : c.unwound (engine ctx options) (reducer i ctx) =
      { c with
        stack := { c.stack with slots := [ds, b] }
        quiet := options.recoveryShifts } := by
    unfold Config.unwound
    rw [hunwind]
    rfl
  rw [Config.recover_of_unwind hunwind (hds ▸ hshift), hunwound, push_of_room]
  · exact ⟨_, rfl⟩
  · exact hroom

/-- A token that reading is not taken up again with is dropped, and there is no report. -/
theorem Rests.step (i : Interpretation H ε σ ω) (ctx : Context) (h : Rests options entries c)
    (hshifts : 1 ≤ options.recoveryShifts) (hpending : c.pending = t :: ts)
    (ht : t.kind ∉ resumable) :
    ∃ c', c.step (engine ctx options) (reducer i ctx) = .running c' ∧ Skips options entries c' ∧
      c'.ahead? = none ∧ c'.input = (c.peek (engine ctx options) (reducer i ctx)).2.input ∧
      c'.exhausted = (c.peek (engine ctx options) (reducer i ctx)).2.exhausted ∧
      c'.memory = (c.peek (engine ctx options) (reducer i ctx)).2.memory ∧
      ∃ span, c'.log = ((c.peek (engine ctx options) (reducer i ctx)).2.log.push
        (.discard t)).push (.resume skipped span) := by
  obtain ⟨⟨ds, b, hslots, hds, hvalue, hb⟩, hquiet, hroom⟩ := h
  obtain ⟨row, hrow, -⟩ := exists_row_between
  have hupcoming : c.upcoming = t.kind := by
    unfold Config.upcoming
    rw [hpending]
    rfl
  have hdecide : row.decide c.upcoming = none := by
    rw [hupcoming, decide_between_eq_none_iff hrow]
    exact ht
  have hpeek : (c.peek (engine ctx options) (reducer i ctx)).1 = t := by
    rcases c.pending_eq_of_peek (engine ctx options) (reducer i ctx) with ⟨ts', h⟩ | ⟨hnil, -⟩
    · rw [hpending] at h
      exact (List.cons.inj h).1.symm
    · rw [hpending] at hnil
      cases hnil
  have hend : t.kind ≠ .endOfInput := fun hkind ↦ ht (hkind ▸ List.mem_cons_self ..)
  have hsilent : (c.peek (engine ctx options) (reducer i ctx)).2.complain (engine ctx options)
      (reducer i ctx) ds.state t = (c.peek (engine ctx options) (reducer i ctx)).2 := by
    unfold Config.complain
    rw [Config.quiet_peek, if_neg]
    rw [Bool.and_eq_true, decide_eq_true_eq]
    omega
  have hdropped : (c.consult (engine ctx options) (reducer i ctx) row).fail (engine ctx options)
      (reducer i ctx) ds.state =
      ({ (c.peek (engine ctx options) (reducer i ctx)).2 with ahead? := none }.record
        (.discard t)).recover (engine ctx options) (reducer i ctx) t.span := by
    unfold Config.fail
    rw [Config.peek_consult]
    dsimp only
    rw [hpeek, hsilent, Config.quiet_peek, hquiet, if_neg hend]
    exact if_pos rfl
  obtain ⟨span, hrecover⟩ := exists_recover i ctx options
    (c := { (c.peek (engine ctx options) (reducer i ctx)).2 with ahead? := none }.record
      (.discard t))
    (by rw [Config.stack_record, Config.stack_peek, hslots]) hds
    (by rw [Config.stack_record, Config.stack_peek]; exact hroom) t.span
  rw [Config.step_eq (engine ctx options) _ hslots (hds ▸ hrow), Config.kind_peek, hdecide]
  refine ⟨_, hdropped.trans hrecover, ⟨⟨_, ds, b, rfl, rfl, rfl, hds, hvalue, hb⟩, rfl, ?_⟩,
    rfl, rfl,
    rfl, rfl, span, rfl⟩
  change 3 ≤ (c.peek (engine ctx options) (reducer i ctx)).2.stack.capacity
  rwa [Config.stack_peek]

/-- After an error, the tokens that reading is not taken up again with are dropped up to the first
that is none of them, and nothing else is done to the text or to the list of declarations. -/
theorem Skips.exists_rests (i : Interpretation H ε σ ω) (ctx : Context)
    (h : Skips options entries c) (hshifts : 1 ≤ options.recoveryShifts) :
    ∃ n c', (engine ctx options).steps (reducer i ctx) n (.running c) = .running c' ∧
      Rests options entries c' ∧ c'.upcoming ∈ resumable ∧
      c'.pending = c.pending.dropWhile (fun t ↦ t.kind ∉ resumable) ∧
      c'.discarded = c.discarded ++ c.pending.takeWhile (fun t ↦ t.kind ∉ resumable) ∧
      c'.shifted = c.shifted ∧
      ((∀ t ∈ c.pending, t.kind ≠ .lexError) → c'.memory = c.memory) := by
  generalize hpending : c.pending = ts
  induction ts generalizing c with
  | nil =>
    obtain ⟨stack, red, hstep, hrests⟩ := h.step i ctx
    have hend : c.upcoming = .endOfInput := Config.upcoming_eq_endOfInput_iff.mpr hpending
    refine ⟨1, _, (Engine.steps_one _ _ c).trans hstep, hrests, ?_, hpending,
      Config.discarded_record (.reduce red _) c, ?_, fun _ ↦ rfl⟩
    · exact hend ▸ List.mem_cons_self ..
    · exact (Config.shifted_record (.reduce red _) c).trans (List.append_nil _)
  | cons t ts ih =>
    obtain ⟨stack, red, hstep, hrests⟩ := h.step i ctx
    generalize hc₁ : { c with stack, log := c.log.push (.reduce red (.value (.list entries))) } = c₁
      at hstep hrests
    have hpending₁ : c₁.pending = t :: ts := by
      rw [← hc₁]
      exact hpending
    have hdiscarded₁ : c₁.discarded = c.discarded := by
      rw [← hc₁]
      exact (Config.discarded_record (.reduce red _) c).trans (List.append_nil _)
    have hshifted₁ : c₁.shifted = c.shifted := by
      rw [← hc₁]
      exact (Config.shifted_record (.reduce red _) c).trans (List.append_nil _)
    have hmemory₁ : c₁.memory = c.memory := by rw [← hc₁]
    by_cases ht : t.kind ∈ resumable
    · refine ⟨1, c₁, (Engine.steps_one _ _ c).trans hstep, hrests, ?_, ?_, ?_, hshifted₁,
        fun _ ↦ hmemory₁⟩
      · unfold Config.upcoming
        rw [hpending₁]
        exact ht
      · rw [hpending₁, List.dropWhile_cons_of_neg (by simpa using ht)]
      · rw [hdiscarded₁, List.takeWhile_cons_of_neg (by simpa using ht), List.append_nil]
    · obtain ⟨c₂, hstep₂, hskips, hahead, hinput, hexhausted, hmemory₂, span, hlog⟩ :=
        hrests.step i ctx hshifts hpending₁ ht
      have hdiscarded₂ : c₂.discarded = c.discarded ++ [t] := by
        rw [← hdiscarded₁, ← Config.discarded_peek (engine ctx options) (reducer i ctx) c₁]
        unfold Config.discarded
        rw [hlog]
        simp [Event.discarded?, List.filterMap_append]
      have hshifted₂ : c₂.shifted = c.shifted := by
        rw [← hshifted₁, ← Config.shifted_peek (engine ctx options) (reducer i ctx) c₁]
        unfold Config.shifted
        rw [hlog]
        simp [Event.shifted?, List.filterMap_append]
      obtain ⟨n, c', hsteps, hrests', hupcoming, hpending', hdiscarded', hshifted', hmemory'⟩ :=
        ih hskips
        (Config.pending_consume (engine ctx options) (reducer i ctx) hpending₁ c₂ hahead hinput
          hexhausted)
      refine ⟨1 + (1 + n), c', ?_, hrests', hupcoming, ?_, ?_, hshifted'.trans hshifted₂,
        fun hlex ↦ ?_⟩
      · rw [Engine.steps_add, Engine.steps_one, hstep, Engine.steps_add, Engine.steps_one, hstep₂,
          hsteps]
      · rw [hpending', List.dropWhile_cons_of_pos (by simpa using ht)]
      · rw [hdiscarded', hdiscarded₂, List.takeWhile_cons_of_pos (by simpa using ht),
          List.append_assoc, List.singleton_append]
      · have hup : c₁.upcoming ≠ .lexError := by
          unfold Config.upcoming
          rw [hpending₁]
          exact hlex t (List.mem_cons_self ..)
        rw [hmemory' fun u hu ↦ hlex u (List.mem_cons_of_mem _ hu), hmemory₂,
          (Config.peek_of_ne_lexError hup).1, hmemory₁]

/-! ## No such token is dropped -/

/-- Nothing is unexpected right after an error but between declarations, and nothing is left to read
where the whole text has been read. -/
structure Poised (options : Options) (c : Config (Value H) (Session σ)) : Prop where
  spelled : ∃ xs, Spelled grammar (fun _ _ ↦ True) c.stack.slots xs
  quiet : c.quiet ≤ options.recoveryShifts
  rested : c.quiet = options.recoveryShifts →
    ∃ x rest, c.stack.slots = x :: rest ∧ AtDeclaration x.state
  closed : ∀ x rest, c.stack.slots = x :: rest → x.state = closing → c.pending = []

theorem poised_of_recovers {slots : List (Slot (Value H))} {pending : List Token} {m : Session σ}
    {xs : List Symbol}
    (h : Config.Recovers (engine ctx options) (reducer i ctx) slots pending m (.running c'))
    (hs : Spelled grammar (fun _ _ ↦ True) slots xs) : Poised options c' := by
  obtain ⟨above, ds, bottom, z, -, -, hz, -, hslots, hedge, hds⟩ := resume_above h hs
  cases h with
  | resume _ _ _ _ _ hquiet _ =>
    refine ⟨⟨_, hslots ▸ hds.push hedge trivial⟩, hquiet.le,
      fun _ ↦ ⟨z, _, hslots, Or.inr (Or.inr hz)⟩, ?_⟩
    intro x rest hx hclosing
    rw [hslots] at hx
    cases hx
    exact absurd (hz.symm.trans hclosing) (by decide)

/-- A shift ends the time right after an error; until then only declarations are put together. -/
theorem poised_of_moves (hshifts : 1 ≤ options.recoveryShifts)
    (h : Config.Moves (engine ctx options) (reducer i ctx) c (.running c'))
    (hpoised : Poised options c) : Poised options c' := by
  obtain ⟨⟨xs, hs⟩, hquiet, hrested, -⟩ := hpoised
  cases h with
  | @shift x rest row t ts n _ v m hslots hrow hpending hdecide hvalue hslots' hpending' _
    hquiet' _ =>
    rw [hslots] at hs
    have hedge : grammar.Edge x.state (.terminal t.kind) n :=
      Config.edge_of_shift tables_engine hrow hdecide
    refine ⟨⟨_, hslots' ▸ hs.push hedge trivial⟩, by omega, fun heq ↦ by omega, ?_⟩
    intro z zs hz hclosing
    rw [hslots'] at hz
    cases hz
    obtain rfl : n = closing := hclosing
    cases (edge_to_closing hedge).2
  | @reduce x y rest below row row' k n p v m _ hslots hrow hdecide hrule hbelow hrow' hgoto _
      hslots' hpending _ hquiet' _ =>
    rw [hslots] at hs
    have hedge : grammar.Edge y.state (.nonterminal p.lhs) n :=
      Config.edge_of_goto? tables_engine hrow' hgoto
    obtain ⟨-, -, -, hs'⟩ := hs.of_decide hrow hdecide hrule hbelow
    refine ⟨⟨_, hslots' ▸ hs'.push hedge trivial⟩, by omega, fun hq ↦ ?_, ?_⟩
    · obtain ⟨x', rest', hslots'', hx⟩ := hrested (hquiet'.symm.trans hq)
      cases hslots.symm.trans hslots''
      refine ⟨_, _, hslots', ?_⟩
      rcases lhs_of_atDeclaration hs hx hrow hdecide hrule hbelow hedge with
        ⟨-, -, hn⟩ | ⟨-, hn⟩
      · exact Or.inl hn
      · exact Or.inr (Or.inl hn)
    · intro z zs hz hclosing
      rw [hslots'] at hz
      cases hz
      obtain rfl : n = closing := hclosing
      rw [hpending, ← Config.upcoming_eq_endOfInput_iff]
      exact eq_endOfInput_of_edge_closing hs hrow hdecide hrule hbelow hedge
  | reject hslots hrow hdecide hrule hbelow _ _ hrecover =>
    rw [hslots] at hs
    obtain ⟨-, -, -, hs'⟩ := hs.of_decide hrow hdecide hrule hbelow
    exact poised_of_recovers hrecover hs'
  | skip hslots _ _ _ _ _ hrecover =>
    rw [hslots] at hs
    exact poised_of_recovers hrecover hs
  | fail hslots _ _ _ _ hrecover =>
    rw [hslots] at hs
    exact poised_of_recovers hrecover hs

/-- What is unexpected right after an error is unexpected between declarations. -/
theorem Poised.upcoming_not_mem (h : Poised options c) {x : Slot (Value H)}
    {rest : List (Slot (Value H))} {row : Row} (hslots : c.stack.slots = x :: rest)
    (hrow : tables.row? x.state = some row) (hdecide : row.decide c.upcoming = none)
    (hquiet : c.quiet = options.recoveryShifts) (hend : c.upcoming ≠ .endOfInput) :
    c.upcoming ∉ resumable := by
  obtain ⟨x', rest', hslots', hx⟩ := h.rested hquiet
  cases hslots.symm.trans hslots'
  rcases hx with hx | hx | hx
  · -- the whole text has been read
    have hpending := h.closed x rest hslots hx
    exact (hend (Config.upcoming_eq_endOfInput_iff.mpr hpending)).elim
  · exact (decide_between_eq_none_iff (hx ▸ hrow) _).mp hdecide
  · obtain ⟨k, p, hreduce, -⟩ := decide_skipped (hx ▸ hrow) c.upcoming
    cases hdecide.symm.trans hreduce

/-- What is dropped is unexpected between declarations. -/
theorem Poised.not_mem_resumable (h : Poised options c) {x : Slot (Value H)}
    {rest : List (Slot (Value H))} (hslots : c.stack.slots = x :: rest)
    (ht : t ∈ c.dropped (engine ctx options) (reducer i ctx) x.state) : t.kind ∉ resumable := by
  obtain ⟨xs, hs⟩ := h.spelled
  unfold Config.dropped at ht
  split at ht
  · rename_i hall
    obtain ⟨hdecide, hquiet, hend⟩ := hall
    have hkind : t.kind = c.upcoming := by
      rw [List.mem_singleton.mp ht, Config.kind_peek]
    obtain ⟨S, hS⟩ := (hslots ▸ hs.path).exists_state
    obtain ⟨row, hrow⟩ := Grammar.exists_row hS
    have hrow' : (engine ctx options).rowAt x.state = row := by
      rw [Engine.rowAt, Engine.row?, show (engine ctx options).tables.row? x.state = some row
        from hrow]
      rfl
    rw [hrow'] at hdecide
    rw [hkind]
    exact h.upcoming_not_mem hslots hrow hdecide hquiet hend
  · cases ht

/-- A step drops no token that reading is taken up again with. -/
theorem post_step_poised (hshifts : 1 ≤ options.recoveryShifts) (h : Poised options c)
    (hdiscarded : ∀ t ∈ c.discarded, t.kind ∉ resumable) :
    (c.step (engine ctx options) (reducer i ctx)).Post
      (fun c' ↦ Poised options c' ∧ ∀ t ∈ c'.discarded, t.kind ∉ resumable)
      (fun _ c' ↦ ∀ t ∈ c'.discarded, t.kind ∉ resumable)
      fun _ c' ↦ ∀ t ∈ c'.discarded, t.kind ∉ resumable := by
  obtain ⟨xs, hs⟩ := h.spelled
  obtain ⟨x, rest, hslots⟩ := List.exists_cons_of_ne_nil hs.ne_nil
  have hdiscarded' : ∀ t ∈ (c.step (engine ctx options) (reducer i ctx)).config.discarded,
      t.kind ∉ resumable := by
    rw [Config.discarded_step _ _ hslots]
    intro t ht
    rcases List.mem_append.mp ht with ht | ht
    · exact hdiscarded t ht
    · exact h.not_mem_resumable hslots ht
  have hmoves := Config.moves_step (e := engine ctx options) (r := reducer i ctx)
    tables_engine (fun _ _ ↦ not_edge_end) hs.path
  cases hstep : c.step (engine ctx options) (reducer i ctx) with
  | running c' =>
    rw [hstep] at hmoves hdiscarded'
    exact ⟨poised_of_moves hshifts hmoves h, hdiscarded'⟩
  | accepted v c' =>
    rw [hstep] at hdiscarded'
    exact hdiscarded'
  | aborted cause c' =>
    rw [hstep] at hdiscarded'
    exact hdiscarded'

theorem post_poised (i : Interpretation H ε σ ω) (ctx : Context)
    (hshifts : 1 ≤ options.recoveryShifts) (n : Nat) (tokens : List Token) (s : Session σ) :
    ((engine ctx options).steps (reducer i ctx) n
      ((engine ctx options).start (reducer i ctx) tokens s)).Post
      (fun c' ↦ Poised options c' ∧ ∀ t ∈ c'.discarded, t.kind ∉ resumable)
      (fun _ c' ↦ ∀ t ∈ c'.discarded, t.kind ∉ resumable)
      fun _ c' ↦ ∀ t ∈ c'.discarded, t.kind ∉ resumable := by
  refine (engine ctx options).post_steps _ (fun c h ↦ post_step_poised hshifts h.1 h.2) n ?_
  have hnothing : ∀ t ∈ ((engine ctx options).start (reducer i ctx) tokens s).config.discarded,
      t.kind ∉ resumable := by
    unfold Engine.start
    split
    · exact fun t ht ↦ nomatch ht
    · rw [Config.discarded_push]
      exact fun t ht ↦ nomatch ht
  have hstart : ((engine ctx options).start (reducer i ctx) tokens s).Post (Poised options)
      (fun _ _ ↦ True) fun _ _ ↦ True := by
    refine Engine.post_start _ _ ?_ fun _ _ _ ↦ trivial
    intro c hslots _ _ _ hquiet _
    refine ⟨⟨[], hslots ▸ .bottom rfl⟩, by omega, fun hq ↦ by omega, ?_⟩
    intro x rest hx hclosing
    rw [hslots] at hx
    cases hx
    exact absurd (show opening = closing from hclosing) (by decide)
  have hboth := hstart.and (Step.post_of_config (P := fun c ↦ ∀ t ∈ c.discarded,
    t.kind ∉ resumable) hnothing)
  exact hboth.imp (fun _ h ↦ h) (fun _ _ h ↦ h.2) fun _ _ h ↦ h.2

theorem not_mem_resumable_of_run (i : Interpretation H ε σ ω) (ctx : Context)
    (hshifts : 1 ≤ options.recoveryShifts) (budget : Nat) (tokens : List Token) (s : Session σ)
    (t : Token) (ht : .discard t ∈
      ((engine ctx options).run (reducer i ctx) budget tokens s).2.log) :
    t.kind ∉ resumable := by
  have hpost := post_poised i ctx hshifts budget tokens s
  rw [← Config.mem_discarded] at ht
  unfold Engine.run at ht
  cases hlast : (engine ctx options).steps (reducer i ctx) budget
      ((engine ctx options).start (reducer i ctx) tokens s) with
  | running c =>
    rw [hlast] at ht hpost
    exact hpost.2 t ht
  | accepted v c =>
    rw [hlast] at ht hpost
    refine hpost t ?_
    unfold Config.discarded at ht ⊢
    rwa [← Engine.log_clear (r := reducer i ctx) c]
  | aborted cause c =>
    rw [hlast] at ht hpost
    refine hpost t ?_
    rw [show ((engine ctx options).finish (reducer i ctx) (.aborted cause c)).2 =
      (Engine.clear (reducer i ctx) c).report _ _ from rfl, Config.discarded_report] at ht
    unfold Config.discarded at ht ⊢
    rwa [← Engine.log_clear (r := reducer i ctx) c]

end Steps

/-! ## Runs -/

/-- What errors come to in the runs of a parse: where the machine goes on, only the list of
declarations is left, with the entries that were made so far; the next tokens are dropped up to the
first that is resumable, and no such token is ever dropped. -/
structure Resumes (i : Interpretation H ε σ ω) (ctx : Context) (options : Options)
    (tokens : List Token) (state : σ) : Prop where
  resumed : ∀ (n : Nat) (c : Config (Value H) (Session (σ × List (Exchange H ε)))) (k : Nat)
    (span : Span),
    (engine ctx options).steps (reducer i.watched ctx) n ((engine ctx options).start
      (reducer i.watched ctx) tokens ⟨(state, []), #[]⟩) = .running c →
    c.log.back? = some (.resume k span) →
    Skips options (Exchange.entries c.memory.record) c ∧
      ∃ m c', (engine ctx options).steps (reducer i.watched ctx) m (.running c) = .running c' ∧
        Rests options (Exchange.entries c.memory.record) c' ∧ c'.upcoming ∈ resumable ∧
        c'.pending = c.pending.dropWhile (fun t ↦ t.kind ∉ resumable) ∧
        c'.discarded = c.discarded ++ c.pending.takeWhile (fun t ↦ t.kind ∉ resumable) ∧
        c'.shifted = c.shifted
  dropped : ∀ (budget : Nat) (t : Token),
    .discard t ∈ ((engine ctx options).run (reducer i.watched ctx) budget tokens
      ⟨(state, []), #[]⟩).2.log → t.kind ∉ resumable

section Runs

variable {i : Interpretation H ε σ ω} {ctx : Context} {options : Options} {tokens : List Token}
  {state : σ} {n : Nat} {c : Config (Value H) (Session (σ × List (Exchange H ε)))}

/-- The entries that were made are on the stack throughout a run. -/
theorem kept_of_steps
    (h : (engine ctx options).steps (reducer i.watched ctx) n ((engine ctx options).start
      (reducer i.watched ctx) tokens ⟨(state, []), #[]⟩) = .running c) : Kept c := by
  have hkept := (engine ctx options).post_steps (reducer i.watched ctx)
    (fun c h ↦ post_step h) n (s := (engine ctx options).start (reducer i.watched ctx) tokens
      ⟨(state, []), #[]⟩) (Engine.post_start _ _ ?_ ?_)
  · rw [h] at hkept
    exact hkept
  · intro c hslots _ _ _ _ hmemory
    unfold Kept
    rw [hslots, hmemory]
    exact ⟨[], [], ⟨rfl, by simp [Session.record]⟩, .bottom rfl, .opening⟩
  · intro d c hnoise
    exact ⟨[], Made.noise ⟨rfl, by simp [Session.record]⟩ hnoise⟩

/-- The machine has just gone on after an error. -/
theorem skips_of_resume
    (h : (engine ctx options).steps (reducer i.watched ctx) n ((engine ctx options).start
      (reducer i.watched ctx) tokens ⟨(state, []), #[]⟩) = .running c) {k : Nat} {span : Span}
    (hlast : c.log.back? = some (.resume k span)) :
    Skips options (Exchange.entries c.memory.record) c := by
  obtain ⟨entries, xs, hmade, hs, hstage⟩ := kept_of_steps h
  have hlog : ∃ evs, c.log.toList = evs ++ [.resume k span] := by
    rw [← Array.getLast?_toList] at hlast
    exact ⟨_, (List.dropLast_append_getLast? _ hlast).symm⟩
  obtain ⟨evs, hlog⟩ := hlog
  -- the last event has put skipped text above the list of declarations
  obtain ⟨x, rest, hslots, hedge⟩ : ∃ x rest, c.stack.slots = ⟨k, .nothing, span⟩ :: x :: rest ∧
      grammar.Edge x.state (.terminal .error) k := by
    have htrace := Engine.continues_steps (e := engine ctx options) (r := reducer i.watched ctx)
      tables_engine n tokens ⟨(state, []), #[]⟩
    rw [h] at htrace
    change Trace _ _ _ c.log.toList c.stack.slots c.memory at htrace
    rw [hlog] at htrace
    obtain ⟨slots, m, -, hdoes⟩ := htrace.exists_does
    generalize c.stack.slots = slots' at hdoes ⊢
    cases hdoes with
    | resume hedge => exact ⟨_, _, rfl, hedge⟩
  obtain ⟨hx, rfl⟩ := edge_error hedge
  rw [hslots] at hs hstage
  obtain ⟨_, b, -, hrest, rfl⟩ := below_skipped hs rfl
  cases hrest
  have hb : b.state = opening := by
    cases hs with
    | push hs _ _ =>
      cases hs with
      | push hs _ _ => exact hs.state_eq_zero.1
  have hvalue : x.value = .list entries := by
    refine (value_of_between hstage hs (show _ = [_] ++ [x, b] from rfl) hx).resolve_right ?_
    rintro ⟨_, _, _, _, _, X, -, -, hX, hentry, -⟩
    cases hX
    exact not_entrySymbol_terminal _ hentry
  refine ⟨⟨_, x, b, hslots, rfl, rfl, hx, ?_, hb⟩, ?_, ?_⟩
  · rw [hmade.1, hvalue]
  · obtain ⟨said, htells⟩ := (engine ctx options).exists_telling (reducer i.watched ctx) tokens
      ⟨(state, []), #[]⟩ n
    rw [h] at htells
    have hcounts := htells.counts
    rw [hlog, shiftsSince_concat] at hcounts
    exact hcounts
  · have hbounded := (engine ctx options).post_bounded (reducer i.watched ctx) n tokens
      ⟨(state, []), #[]⟩
    rw [h] at hbounded
    have hlength := hbounded.length
    rw [hslots] at hlength
    exact hlength

end Runs

/-- After every error that does not exceed the stack, in whatever construct it was found, reading is
taken up again with the first token that can begin a declaration. -/
theorem resumes (i : Interpretation H ε σ ω) (ctx : Context) (options : Options)
    (hshifts : 1 ≤ options.recoveryShifts) (tokens : List Token) (state : σ) :
    Resumes i ctx options tokens state where
  resumed n c k span hsteps hlast := by
    have hskips := skips_of_resume hsteps hlast
    obtain ⟨m, c', hm, hrests, hupcoming, hpending, hdiscarded, hshifted, -⟩ :=
      hskips.exists_rests i.watched ctx hshifts
    exact ⟨hskips, m, c', hm, hrests, hupcoming, hpending, hdiscarded, hshifted⟩
  dropped budget t ht := not_mem_resumable_of_run i.watched ctx hshifts budget tokens _ t ht

/-- The run over a word that no line begins with, when it has been found out of place. -/
def misplaced : Step (Value Transcript.Handle)
    (Session (Transcript × List (Exchange Transcript.Handle Transcript.Refusal))) :=
  (engine ⟨"main", 0⟩ {}).steps (reducer Transcript.interpretation.watched ⟨"main", 0⟩) 2
    ((engine ⟨"main", 0⟩ {}).start (reducer Transcript.interpretation.watched ⟨"main", 0⟩)
      [.bare .openWord .start, .bare .eol .start] ⟨({}, []), #[]⟩)

theorem resume_misplaced :
    misplaced.isEnd = false ∧ misplaced.config.log.back?.map Event.isResume = some true := by
  unfold misplaced engine
  rw [tables_eq]
  decide +kernel

/-- The word is dropped, and reading is taken up again with the end of its line. -/
theorem resumes_misplaced :
    1 ≤ ({} : Options).recoveryShifts ∧
      ∃ c k span, misplaced = .running c ∧ c.log.back? = some (.resume k span) ∧
        Skips {} (Exchange.entries c.memory.record) c ∧
        ∃ m c', (engine ⟨"main", 0⟩ {}).steps
            (reducer Transcript.interpretation.watched ⟨"main", 0⟩) m (.running c) =
            .running c' ∧
          c'.upcoming ∈ resumable ∧
          c'.discarded = c.discarded ++ c.pending.takeWhile (fun t ↦ t.kind ∉ resumable) := by
  obtain ⟨hrunning, hresume⟩ := resume_misplaced
  cases hlast : misplaced with
  | running c =>
    rw [hlast] at hresume
    change c.log.back?.map Event.isResume = some true at hresume
    obtain ⟨ev, hev, hisResume⟩ := Option.map_eq_some_iff.mp hresume
    cases ev with
    | resume k span =>
      obtain ⟨hskips, m, c', hsteps, -, hupcoming, -, hdiscarded, -⟩ :=
        (resumes Transcript.interpretation ⟨"main", 0⟩ {} (by decide) _ {}).resumed 2 c k span hlast
          hev
      exact ⟨by decide, c, k, span, rfl, hev, hskips, m, c', hsteps, hupcoming, hdiscarded⟩
    | _ => cases hisResume
  | accepted v c =>
    rw [hlast] at hrunning
    cases hrunning
  | aborted cause c =>
    rw [hlast] at hrunning
    cases hrunning

end Language

end PlainLedger
