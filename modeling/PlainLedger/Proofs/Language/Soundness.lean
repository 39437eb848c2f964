import PlainLedger.Proofs.Language.Between
import PlainLedger.Proofs.Language.Form
import PlainLedger.Proofs.Language.Termination
import PlainLedger.Transcript

/-!
# Parses are given up for want of room only

Every slot of the stack holds a value of the form of its symbol, so a completed rule always gets
what it expects. Recovery finds the list of declarations on the stack, since nothing can be
unexpected before the list is begun, nor after the whole text has been read; and right after a
recovery the end of the text is not unexpected.
-/

namespace PlainLedger.Language

variable {H ε σ ω : Type}

/-! ## Completed rules -/

section Reduce

variable {x y : Slot (Value H)} {rest below : List (Slot (Value H))} {xs : List Symbol}
  {k n : Nat} {p : Rule Production}

/-- Below a posting stand the lines before it and the head line of its transaction. -/
theorem exists_headLine {ss : List Nat} {m : Nat} (hpath : grammar.Path (m :: ss) xs)
    (hrule : grammar.rules[k]? = some p) (hedge : grammar.Edge m (.nonterminal p.lhs) n)
    (hposting : p.action.isPosting = true) :
    ∃ zs, xs = Category.postingOrKvList.symbol :: Category.eol.symbol ::
      Category.txnFields.symbol :: Category.txn.symbol :: .terminal .date :: zs := by
  have hlhs := (declarationRule hrule).lhs_posting
  rw [hlhs hposting] at hedge
  obtain ⟨s, hstate, i, hi, hdot, q, hq, haction⟩ := underHeadLine_of_edge hedge
  have hrhs := (declarationRule hq).rhs_transaction
  have hhas : grammar.Has m ⟨i.rule, 5⟩ := by
    rw [← hdot]
    exact Grammar.KernelHas.has ⟨s, hstate, hi⟩
  obtain ⟨-, htake, -⟩ := hpath.of_has hhas
  rw [grammar.rhs_of_getElem? hq, hrhs haction] at htake
  have hxs := congrArg List.reverse htake
  rw [List.reverse_reverse] at hxs
  obtain ⟨X, Y, Z, U, W, zs, rfl⟩ : ∃ X Y Z U W zs, xs = X :: Y :: Z :: U :: W :: zs := by
    match xs, hxs with
    | X :: Y :: Z :: U :: W :: zs, _ => exact ⟨X, Y, Z, U, W, zs, rfl⟩
  cases hxs
  exact ⟨zs, rfl⟩

/-- Below a posting, the flag of its transaction is on the stack. -/
theorem txnFlag?_isSome (hs : Spelled grammar Typed (y :: below) xs)
    (hrule : grammar.rules[k]? = some p) (hedge : grammar.Edge y.state (.nonterminal p.lhs) n)
    (hposting : p.action.isPosting = true) :
    (txnFlag? p.action (y :: below)).isSome = true := by
  obtain ⟨zs, rfl⟩ := exists_headLine hs.path hrule hedge hposting
  -- The flag stands below the description, the end of the head line and the lines before.
  cases hs with
  | push h _ _ =>
    cases h with
    | push h _ _ =>
      cases h with
      | @push _ z _ _ _ h _ _ =>
        cases h with
        | push _ _ hflag =>
          obtain ⟨flag, hflag⟩ := hflag
          obtain ⟨state, value, span⟩ := z
          cases hflag
          simp [txnFlag?, hposting]

/-- A completed rule gets what it expects, and its value is one of its phrase. -/
theorem typed_reduce (i : Interpretation H ε σ ω) (ctx : Context) {red : Reduction (Value H)}
    (hrule : grammar.rules[k]? = some p) (hvalues : List.Forall₂ Typed p.rhs red.values)
    (hflag : p.action.isPosting = true → (txnFlag? p.action red.below).isSome = true)
    {s s' : Session σ} {verdict : Verdict (Value H)}
    (hverdict : (reducer i ctx).reduce p.action red s = (verdict, s')) :
    (∀ cause, verdict ≠ .fatal cause) ∧
      ∀ v, verdict = .value v → Typed (.nonterminal p.lhs) v := by
  obtain ⟨hexpects, hyields⟩ := fitsForms hrule
  have hadmits := Form.AdmitsAll.mono (List.forall₂_map_left_iff.mpr hvalues) hexpects
  obtain ⟨plan, args, hrun, hplan, -⟩ :=
    exists_plan p.action (ctx.provenance red.span) hadmits hflag
  simp only [reducer, hrun] at hverdict
  rcases hplan.perform i (ctx.provenance red.span) (s.releaseAll i _) with
    ⟨v, hv, hadmits⟩ | ⟨message, hv⟩ <;> rw [hverdict] at hv <;> cases hv
  · refine ⟨fun cause h ↦ ?_, fun w hw ↦ ?_⟩
    · cases h
    · cases hw
      exact hadmits.mono hyields
  · refine ⟨fun cause h ↦ ?_, fun w hw ↦ ?_⟩
    · cases h
    · cases hw

/-- A rule that is completed on a stack of values of the right forms gets what it expects. -/
theorem typed_completed (i : Interpretation H ε σ ω) (ctx : Context)
    (hs : Spelled grammar Typed (x :: rest) xs) (hrule : grammar.rules[k]? = some p)
    (hhas : grammar.Has x.state ⟨k, p.rhs.length⟩) {s s' : Session σ} {verdict : Verdict (Value H)}
    (hverdict : (reducer i ctx).reduce p.action (.ofSlots k p.rhs.length (x :: rest)) s =
      (verdict, s')) :
    (∀ cause, verdict ≠ .fatal cause) ∧
      ∀ v, verdict = .value v → Typed (.nonterminal p.lhs) v := by
  obtain ⟨-, -, hvalues, y, below, hbelow, hpredicted, hs'⟩ := hs.reduce hrule hhas
  obtain ⟨n, hedge⟩ := Grammar.exists_goto hpredicted hrule
  refine typed_reduce i ctx hrule hvalues (fun hposting ↦ ?_) hverdict
  rw [Reduction.ofSlots, hbelow]
  exact txnFlag?_isSome hs' hrule hedge hposting

end Reduce

/-! ## Steps -/

/-- The stack holds values of the right forms. Not much can be unexpected right after a recovery,
and nothing is left to read where the whole text has been read. -/
structure Safe (options : Options) (c : Config (Value H) (Session σ)) : Prop where
  spelled : ∃ xs, Spelled grammar Typed c.stack.slots xs
  sound : ∀ t ∈ c.pending, t.Sound
  quiet : c.quiet ≤ options.recoveryShifts
  rested : c.quiet = options.recoveryShifts →
    ∃ x rest, c.stack.slots = x :: rest ∧ AtDeclaration x.state
  closed : ∀ x rest, c.stack.slots = x :: rest → x.state = closing → c.pending = []

section Steps

variable {i : Interpretation H ε σ ω} {ctx : Context} {options : Options}
  {c c' : Config (Value H) (Session σ)} {x y : Slot (Value H)} {rest below : List (Slot (Value H))}
  {xs : List Symbol} {row : Row} {t : Terminal} {k n : Nat} {p : Rule Production}

/-- A ledger is completed where nothing is left to read. -/
theorem eq_endOfInput_of_edge_closing {T : Symbol → Value H → Prop}
    (hs : Spelled grammar T (x :: rest) xs)
    (hrow : tables.row? x.state = some row) (hdecide : row.decide t = some (.reduce k))
    (hrule : grammar.rules[k]? = some p)
    (hbelow : (x :: rest).drop p.rhs.length = y :: below)
    (hedge : grammar.Edge y.state (.nonterminal p.lhs) closing) : t = .endOfInput := by
  obtain ⟨-, hlhs⟩ := edge_to_closing hedge
  have hrhs := (declarationRule hrule).rhs_file
  obtain ⟨⟨-, htake⟩, -⟩ := hs.of_decide hrow hdecide hrule hbelow
  rw [hrhs (Symbol.nonterminal.inj hlhs)] at htake
  cases hs with
  | bottom => cases htake
  | @push _ z slots X xs hs he _ =>
    cases htake
    exact (decide_between ((edge_declarations he).2 ▸ hrow) hdecide hrule).1

/-- Recovery is always possible, and leads to skipped text above the list of declarations. -/
theorem safe_of_recovers {slots : List (Slot (Value H))} {pending : List Token} {m : Session σ}
    {s : Step (Value H) (Session σ)}
    (h : Config.Recovers (engine ctx options) (reducer i ctx) slots pending m s)
    (hs : Spelled grammar Typed slots xs) (hsound : ∀ t ∈ pending, t.Sound)
    (hstuck : ∃ z ∈ slots, (engine ctx options).errorShift? z.state ≠ none) :
    s.Post (Safe options) (fun _ _ ↦ False) (fun cause _ ↦ ∃ d, cause = .stackOverflow d) := by
  cases s with
  | running c' =>
    obtain ⟨above, ds, bottom, z, -, -, hz, hblank, hslots', hedge, hds⟩ := resume_above h hs
    cases h with
    | resume _ _ _ _ hpending hquiet _ =>
      refine ⟨⟨[.terminal .error, Category.declarations.symbol], ?_⟩, ?_, hquiet.le,
        fun _ ↦ ⟨z, _, hslots', Or.inr (Or.inr hz)⟩, ?_⟩
      · rw [hslots']
        refine hds.push hedge ?_
        rw [hblank]
        exact typed_error
      · rwa [hpending]
      · intro x rest hx hclosing
        rw [hslots'] at hx
        cases hx
        exact absurd (hz.symm.trans hclosing) (by decide)
  | accepted v c' => cases h
  | aborted cause c' =>
    cases h with
    | stuck hnone _ =>
      obtain ⟨z, hz, hshift⟩ := hstuck
      exact (hshift (hnone z hz)).elim
    | @overflow d _ _ => exact ⟨d, rfl⟩

/-- Where a token is unexpected, recovery is possible. -/
theorem exists_errorShift?_of_decide {T : Symbol → Value H → Prop}
    (hs : Spelled grammar T (x :: rest) xs)
    (hrow : tables.row? x.state = some row) (hdecide : row.decide t = none)
    (hclosed : x.state = closing → t = .endOfInput) :
    ∃ z ∈ x :: rest, (engine ctx options).errorShift? z.state ≠ none := by
  by_contra hnone
  push Not at hnone
  rcases state_of_stuck hs hnone with hx | hx
  · obtain ⟨k, p, hreduce, -⟩ := decide_opening (hx ▸ hrow) t
    cases hdecide.symm.trans hreduce
  · rw [hclosed hx] at hdecide
    cases hdecide.symm.trans (decide_closing (hx ▸ hrow))

/-- A move leads on safely, or to the list of entries, or finds no room. -/
theorem safe_of_moves (hshifts : 1 ≤ options.recoveryShifts) {s : Step (Value H) (Session σ)}
    (h : Config.Moves (engine ctx options) (reducer i ctx) c s) (hsafe : Safe options c) :
    s.Post (Safe options) (fun v _ ↦ ∃ entries, v = .list entries)
      (fun cause _ ↦ ∃ d, cause = .stackOverflow d) := by
  obtain ⟨⟨xs, hs⟩, hsound, hquiet, hrested, hclosed⟩ := hsafe
  cases h with
  | @shift x rest row t ts n c' v m hslots hrow hpending hdecide hvalue hslots' hpending' _
    hquiet' _ =>
    rw [hslots] at hs
    rw [hpending] at hsound
    have hedge : grammar.Edge x.state (.terminal t.kind) n :=
      Config.edge_of_shift tables_engine hrow hdecide
    refine ⟨⟨.terminal t.kind :: xs, ?_⟩, ?_, by omega, fun heq ↦ by omega, ?_⟩
    · rw [hslots']
      cases hvalue
      exact hs.push hedge (typed_ofToken (hsound t (List.mem_cons_self ..)))
    · rw [hpending']
      exact fun u hu ↦ hsound u (List.mem_cons_of_mem _ hu)
    · intro z zs hz hclosing
      rw [hslots'] at hz
      cases hz
      obtain rfl : n = closing := hclosing
      obtain ⟨-, hsymbol⟩ := edge_to_closing hedge
      cases hsymbol
  | @reduce x y rest below row row' k n p v m c' hslots hrow hdecide hrule hbelow hrow' hgoto
      hverdict hslots' hpending _ hquiet' _ =>
    rw [hslots] at hs
    have hedge : grammar.Edge y.state (.nonterminal p.lhs) n :=
      Config.edge_of_goto? tables_engine hrow' hgoto
    obtain ⟨-, hvalues, -, hs'⟩ := hs.of_decide hrow hdecide hrule hbelow
    obtain ⟨-, htyped⟩ := typed_reduce i ctx hrule hvalues
      (fun hposting ↦ by
        rw [Reduction.ofSlots, hbelow]
        exact txnFlag?_isSome hs' hrule hedge hposting) hverdict
    refine ⟨⟨.nonterminal p.lhs :: xs.drop p.rhs.length, ?_⟩, ?_, by omega, ?_, ?_⟩
    · rw [hslots']
      exact hs'.push hedge (htyped v rfl)
    · rwa [hpending]
    · intro hq
      obtain ⟨x', rest', hslots'', hx⟩ := hrested (hquiet'.symm.trans hq)
      cases hslots.symm.trans hslots''
      refine ⟨_, _, hslots', ?_⟩
      rcases lhs_of_atDeclaration hs hx hrow hdecide hrule hbelow hedge with
        ⟨-, -, hn⟩ | ⟨-, hn⟩
      · exact Or.inl hn
      · exact Or.inr (Or.inl hn)
    · intro z zs hz hclosing
      rw [hslots'] at hz
      cases hz
      obtain rfl : n = closing := hclosing
      rw [hpending, ← Config.upcoming_eq_endOfInput_iff]
      exact eq_endOfInput_of_edge_closing hs hrow hdecide hrule hbelow hedge
  | @reject x y rest below row k p message m d _ hslots hrow hdecide hrule hbelow hverdict _
      hrecover =>
    rw [hslots] at hs
    obtain ⟨-, -, hpredicted, hs'⟩ := hs.of_decide hrow hdecide hrule hbelow
    refine (safe_of_recovers hrecover hs' hsound ?_).imp (fun _ h ↦ h) (fun _ _ h ↦ h.elim)
      fun _ _ h ↦ h
    by_contra hnone
    push Not at hnone
    obtain ⟨n, hedge⟩ := Grammar.exists_goto hpredicted hrule
    rcases state_of_stuck hs' hnone with hy | hy
    · -- Nothing is refused where the list of declarations begins or ends.
      have hlhs : p.lhs = Category.file.index ∨ p.lhs = Category.declarations.index := by
        rcases edge_opening (hy ▸ hedge) with ⟨hlhs, -⟩ | ⟨hlhs, -⟩
        · exact Or.inl (Symbol.nonterminal.inj hlhs)
        · exact Or.inr (Symbol.nonterminal.inj hlhs)
      have hgathers := (declarationRule hrule).gathers
      exact not_rejected_of_gathers i ctx (hgathers hlhs) _ _ message (congrArg Prod.fst hverdict)
    · rw [hy] at hedge
      exact not_edge_closing hedge
  | @fatal x rest row k p cause m c' hslots hrow hdecide hrule hverdict _ =>
    rw [hslots] at hs
    obtain ⟨p', hrule', hhas⟩ := Grammar.allows_of_decide
      (show grammar.tables.row? x.state = some row from hrow) hdecide
    cases Option.some.inj (hrule.symm.trans hrule')
    obtain ⟨hfatal, -⟩ := typed_completed i ctx hs hrule hhas hverdict
    exact (hfatal cause rfl).elim
  | @accept x y row c' hslots hrow hdecide _ _ _ =>
    rw [hslots] at hs
    obtain ⟨-, hhas⟩ : c.upcoming = .endOfInput ∧ grammar.Has x.state ⟨_, 1⟩ :=
      Grammar.allows_of_decide (show grammar.tables.row? x.state = some row from hrow) hdecide
    have hpath := hs.path
    rw [List.map_cons] at hpath
    obtain ⟨-, rfl⟩ := hpath.accept hhas
    cases hs with
    | push _ _ hv => exact hv
  | @skip x rest row t ts _ _ hslots hrow hdecide hpending _ _ hrecover =>
    rw [hslots] at hs
    refine (safe_of_recovers hrecover hs ?_ (exists_errorShift?_of_decide hs hrow hdecide ?_)).imp
      (fun _ h ↦ h) (fun _ _ h ↦ h.elim) fun _ _ h ↦ h
    · rw [hpending] at hsound
      exact fun u hu ↦ hsound u (List.mem_cons_of_mem _ hu)
    · intro hx
      rw [hclosed x rest hslots hx] at hpending
      cases hpending
  | @fail x rest row _ _ hslots hrow hdecide _ _ hrecover =>
    rw [hslots] at hs
    refine (safe_of_recovers hrecover hs hsound
      (exists_errorShift?_of_decide hs hrow hdecide ?_)).imp
      (fun _ h ↦ h) (fun _ _ h ↦ h.elim) fun _ _ h ↦ h
    exact fun hx ↦ Config.upcoming_eq_endOfInput_iff.mpr (hclosed x rest hslots hx)
  | hopeless hslots hrow hdecide _ hq _ =>
    obtain ⟨x', rest', hslots', hx⟩ := hrested hq
    cases hslots.symm.trans hslots'
    rcases hx with hx | hx | hx
    · cases hdecide.symm.trans (decide_closing (hx ▸ hrow))
    · obtain ⟨k, hreduce⟩ := decide_between_end (hx ▸ hrow)
      cases hdecide.symm.trans hreduce
    · obtain ⟨k, p, hreduce, -⟩ := decide_skipped (hx ▸ hrow) .endOfInput
      cases hdecide.symm.trans hreduce
  | @overflow d c' _ => exact ⟨d, rfl⟩

end Steps

theorem post_step_safe {i : Interpretation H ε σ ω} {ctx : Context} {options : Options}
    (hshifts : 1 ≤ options.recoveryShifts) {c : Config (Value H) (Session σ)}
    (hsafe : Safe options c) :
    (c.step (engine ctx options) (reducer i ctx)).Post (Safe options)
      (fun v _ ↦ ∃ entries, v = .list entries) (fun cause _ ↦ ∃ d, cause = .stackOverflow d) := by
  obtain ⟨xs, hs⟩ := hsafe.spelled
  exact safe_of_moves hshifts
    (Config.moves_step tables_engine (fun _ _ ↦ not_edge_end) hs.path) hsafe

/-- If tokens carry what their kinds ask for and recovery is quiet for some tokens, a parse is
complete, or it is given up because there was no room on the stack. Nothing that an interpretation
does is a reason to give up. -/
theorem complete_or_overflow (i : Interpretation H ε σ ω) (ctx : Context) (options : Options)
    (hshifts : 1 ≤ options.recoveryShifts) (tokens : List Token) (hsound : ∀ t ∈ tokens, t.Sound)
    (state : σ) :
    (∃ whole ds, (parse i ctx options tokens state).1 = .complete whole ds) ∨
      ∃ depth ds, (parse i ctx options tokens state).1 = .failed (.stackOverflow depth) ds := by
  have hends : Engine.Ends (reducer i ctx) (Safe options) (fun v _ ↦ ∃ entries, v = .list entries)
      (fun cause _ ↦ ∃ d, cause = .stackOverflow d) (run i ctx options tokens state) := by
    refine Engine.ends_run _ _ (Engine.post_start _ _ ?_ ?_) fun c h ↦ post_step_safe hshifts h
    · intro c hslots hahead hinput hexhausted hquiet _
      refine ⟨⟨[], ?_⟩, ?_, by omega, fun hq ↦ by omega, ?_⟩
      · rw [hslots]
        exact .bottom rfl
      · intro t ht
        refine hsound t ?_
        simp only [Config.pending, hahead, hinput, hexhausted] at ht
        exact (List.takeWhile_sublist _).subset ht
      · intro x rest hx hclosing
        rw [hslots] at hx
        cases hx
        exact absurd (show opening = closing from hclosing) (by decide)
    · exact fun d c _ ↦ ⟨d, rfl⟩
  have hfinished := run_ne_unfinished i ctx options tokens state
  rw [parse]
  generalize run i ctx options tokens state = out at hends hfinished ⊢
  cases hends with
  | accepted h =>
    obtain ⟨entries, rfl⟩ := h
    exact Or.inl ⟨_, _, rfl⟩
  | aborted h _ =>
    obtain ⟨d, rfl⟩ := h
    exact Or.inr ⟨d, _, rfl⟩
  | unfinished => exact (hfinished rfl).elim

/-- The head line of a transaction that refuses to be recorded. -/
theorem complete_or_overflow_headLine :
    (1 ≤ ({} : Options).recoveryShifts ∧
      ∀ t ∈ [Token.ofText .date "2024-01-01" .start, Token.ofFlag '!' .start,
        Token.bare .eol .start], t.Sound) ∧
      ((∃ whole ds, (parse Transcript.interpretation ⟨"main", 0⟩ {}
          [Token.ofText .date "2024-01-01" .start, Token.ofFlag '!' .start,
            Token.bare .eol .start]
          { refusedNames := ["transaction"] }).1 = .complete whole ds) ∨
        ∃ depth ds, (parse Transcript.interpretation ⟨"main", 0⟩ {}
          [Token.ofText .date "2024-01-01" .start, Token.ofFlag '!' .start,
            Token.bare .eol .start]
          { refusedNames := ["transaction"] }).1 = .failed (.stackOverflow depth) ds) := by
  have hsound : ∀ t ∈ [Token.ofText .date "2024-01-01" .start, Token.ofFlag '!' .start,
      Token.bare .eol .start], t.Sound := by
    intro t ht
    simp only [List.mem_cons, List.not_mem_nil, or_false] at ht
    rcases ht with rfl | rfl | rfl
    · exact ⟨_, rfl⟩
    · exact ⟨_, rfl⟩
    · trivial
  exact ⟨⟨by decide, hsound⟩,
    complete_or_overflow Transcript.interpretation ⟨"main", 0⟩ {} (by decide) _ hsound _⟩

end PlainLedger.Language
