import PlainLedger.Book
import PlainLedger.Proofs.Language.Joining
import PlainLedger.Proofs.Language.Recognition
import PlainLedger.Proofs.Language.Restyled

/-!
# Spelling

Comments and pipes carry no meaning, and neither does whether the clauses of a lot are set apart by
commas or by slashes. A text that is read without error is read without error however it is
respelled, the interpretation is asked for the same, and only the warnings about the spelling
differ.
-/

namespace PlainLedger

variable {α V σ : Type} {e : Engine α} {r : Reducer α V σ}

/-! ## Runs that are accepted without a report -/

/-- A rule that there is no value for is reported, unless the run is given up. -/
theorem Config.Refused.post_step {c : Config V σ} (h : c.Refused e r) :
    (c.step e r).Post Config.Reported (fun _ c ↦ c.Reported) fun _ _ ↦ True := by
  obtain ⟨x, rest, row, k, p, hslots, hrow, hdecide, hlex, hrule, hno⟩ := h
  obtain ⟨hmemory, -⟩ := consult_of_ne_lexError (e := e) (r := r) row hlex
  have hstack : (c.consult e r row).stack.slots = c.stack.slots := by rw [stack_consult]
  obtain ⟨⟨verdict, m⟩, hout⟩ : ∃ out, r.reduce p.action (.ofSlots k p.rhs.length
    (c.consult e r row).stack.slots) (c.consult e r row).memory = out := ⟨_, rfl⟩
  rw [step_eq e r hslots hrow, kind_peek, hdecide]
  dsimp only
  rw [reduce_eq hrule hout]
  cases verdict with
  | value v =>
    rw [hstack, hmemory] at hout
    exact (hno v m hout).elim
  | fatal cause => trivial
  | rejected message =>
    have hreported := (reported_report (r := r) (diagnostic e .semantic (e.context.lineOf
      (Reduction.ofSlots k p.rhs.length (c.consult e r row).stack.slots).span) message)
      ((c.consult e r row).reduced k p (.rejected message, m))).recalls (recalls_recover (e := e)
      (r := r) (Reduction.ofSlots k p.rhs.length (c.consult e r row).stack.slots).span _)
    exact (Step.post_of_config hreported).imp (fun _ h ↦ h) (fun _ _ h ↦ h) fun _ _ _ ↦ trivial

/-- A run that accepts without a report has walked along the forest that the tables lead along. -/
theorem Engine.walks_of_accepted (hg : e.tables = e.grammar.tables)
    {f : Forest e.grammar [.nonterminal e.grammar.start]} {n : Nat} {row : Row}
    (hleads : Leads e.grammar 0 f .endOfInput n) (hrow : e.row? n = some row)
    (haccept : row.decide .endOfInput = some .accept) {input : List Token}
    (hleaves : f.leaves = (textOf input).map Leaf.token)
    (hlex : ∀ t ∈ textOf input, t.kind ≠ .lexError) {m : σ} {k : Nat} {v : V} {c : Config V σ}
    (hk : e.steps r k (e.start r input m) = .accepted v c) (hreported : ¬c.Reported) :
    ∃ x, Walks r f [⟨0, r.blank, .start⟩] m c.acts [x, ⟨0, r.blank, .start⟩] c.memory ∧
      v = x.value ∧ c.stack.slots = [⟨0, r.blank, .start⟩] := by
  obtain ⟨N, hN⟩ := exists_accepts_or_balks hg (K := fun _ _ _ ↦ True)
    ⟨fun _ _ _ ↦ trivial, fun _ _ _ _ _ _ ↦ trivial⟩ hleads hrow haccept hleaves trivial hlex m
  cases hs : e.steps r N (e.start r input m) with
  | accepted v' c' =>
    rw [hs] at hN
    obtain ⟨rfl, rfl⟩ := accepted_unique hk hs
    obtain ⟨x, hwalks, hvalue, hslots, -⟩ := hN
    exact ⟨x, hwalks, hvalue, hslots⟩
  | aborted cause c' => exact (not_aborted_of_accepted hk hs).elim
  | running c' =>
    rw [hs] at hN
    obtain ⟨-, hrefused, -⟩ := hN
    have hstep := hrefused.post_step
    rw [← steps_zero e r (c'.step e r), ← steps_succ_running, ← hs, ← steps_add] at hstep
    cases hs' : e.steps r (N + 1) (e.start r input m) with
    | accepted v' c₁ =>
      rw [hs'] at hstep
      obtain ⟨-, rfl⟩ := accepted_unique hk hs'
      exact (hreported hstep).elim
    | aborted cause c₁ => exact (not_aborted_of_accepted hk hs').elim
    | running c₁ =>
      rw [hs'] at hstep
      have hrecalls := recalls_steps e (r := r) k (.running c₁)
      rw [accepted_of_running hs' hk] at hrecalls
      exact (hreported (hstep.recalls hrecalls)).elim

namespace Language

variable {H ε ω σ : Type} {i : Interpretation H ε σ ω} {ctx : Context} {options : Options}
  {tokens : List Token} {state : σ}

/-! ## Parses and walks -/

theorem stateless_reducer (i : Interpretation H ε σ ω) (ctx : Context) :
    (reducer i ctx).Stateless := by
  intro p k n slots s
  rw [Reduction.ofSlots_bare]
  dsimp only [reducer]
  rw [txnFlag?_bare]
  rfl

/-- How a parse comes out that hands over the entries. -/
def finished (i : Interpretation H ε σ ω) (entries : List H) (s : Session σ) : Parsed ω × σ :=
  (.complete (i.finish entries s.state).1 s.diagnostics.toList, (i.finish entries s.state).2)

theorem conclude_accepted {entries : List H} {c : Config (Value H) (Session σ)}
    (hslots : c.stack.slots = [⟨0, .nothing, .start⟩]) :
    conclude i ctx ((engine ctx options).finish (reducer i ctx) (.accepted (.list entries) c)) =
      finished i entries c.memory := by
  have hclear : (Engine.clear (reducer i ctx) c).memory = c.memory := by
    rw [Engine.memory_clear, hslots]
    rfl
  change finished i entries (Engine.clear (reducer i ctx) c).memory = _
  rw [hclear]

/-- A text that is read without error has been walked along. -/
theorem Reading.walks_of_complete (T : Reading [Category.file.symbol])
    (htokens : T.tokens = textOf tokens) {whole : ω} {ds : List Diagnostic}
    (hcomplete : (parse i ctx options tokens state).1 = .complete whole ds)
    (herrors : hasErrors ds = false) :
    ∃ evs x s entries, Walks (reducer i ctx) T.forest [⟨0, .nothing, .start⟩] ⟨state, #[]⟩ evs
        [x, ⟨0, .nothing, .start⟩] s ∧ x.value = .list entries ∧
      parse i ctx options tokens state = finished i entries s := by
  obtain ⟨n, row, hleads, hrow, haccept⟩ := T.exists_leads_start
  have hleaves : T.forest.leaves = (textOf tokens).map Leaf.token := by
    rw [T.leaves_forest, htokens]
  have hcomes := comesOut_parse i ctx options tokens state
  have hfaultless := Engine.post_faultless (e := engine ctx options) (r := reducer i ctx)
    tables_engine (fun _ _ ↦ not_edge_end) (fun _ _ ↦ not_edge_lexError) tokens ⟨state, #[]⟩
    (stepBudget tokens.length)
  rw [hcomplete] at hcomes
  obtain ⟨-, hclean⟩ := hcomes
  obtain ⟨last, hlast⟩ : ∃ last, (engine ctx options).steps (reducer i ctx)
      (stepBudget tokens.length) ((engine ctx options).start (reducer i ctx) tokens ⟨state, #[]⟩) =
        last := ⟨_, rfl⟩
  have hrun : run i ctx options tokens state =
      (engine ctx options).finish (reducer i ctx) last := by rw [← hlast]; rfl
  rw [hlast] at hfaultless
  rw [hrun] at hclean
  unfold parse at hcomplete ⊢
  rw [hrun] at hcomplete ⊢
  cases last with
  | running c => cases hcomplete
  | aborted cause c => cases hcomplete
  | accepted v c =>
    have hreported := hfaultless.mp (faultless_clear.mp (hclean.mp herrors))
    obtain ⟨x, hwalks, rfl, hslots⟩ := Engine.walks_of_accepted tables_engine hleads hrow haccept
      hleaves (htokens ▸ T.ne_lexError) hlast hreported
    cases hvalue : x.value with
    | list entries =>
      exact ⟨_, x, c.memory, entries, hwalks, hvalue, conclude_accepted hslots⟩
    | _ =>
      rw [hvalue] at hcomplete
      cases hcomplete

/-- A text that can be walked along is read so, unless the stack overflows. -/
theorem Reading.parse_of_walks (T : Reading [Category.file.symbol])
    (htokens : T.tokens = textOf tokens) {evs : List (Event (Value H))} {x : Slot (Value H)}
    {s : Session σ} {entries : List H}
    (hwalks : Walks (reducer i ctx) T.forest [⟨0, .nothing, .start⟩] ⟨state, #[]⟩ evs
      [x, ⟨0, .nothing, .start⟩] s) (hvalue : x.value = .list entries)
    (hroom : ∀ depth ds, (parse i ctx options tokens state).1 ≠ .failed (.stackOverflow depth) ds) :
    parse i ctx options tokens state = finished i entries s := by
  obtain ⟨n, row, hleads, hrow, haccept⟩ := T.exists_leads_start
  have hleaves : T.forest.leaves = (textOf tokens).map Leaf.token := by
    rw [T.leaves_forest, htokens]
  obtain ⟨N, hN⟩ := Engine.exists_accepts_or_balks (e := engine ctx options) (r := reducer i ctx)
    tables_engine (K := fun _ _ _ ↦ True)
      ⟨fun _ _ _ ↦ trivial, fun _ _ _ _ _ _ ↦ trivial⟩ hleads hrow
    haccept hleaves trivial (htokens ▸ T.ne_lexError) ⟨state, #[]⟩
  have hstateless := stateless_reducer i ctx
  have hends := hN.imp (fun _ h ↦ hwalks.not_balks hstateless rfl h.1) (fun _ _ h ↦ h)
    fun _ _ h ↦ h
  have hrun := Engine.run_eq_finish (run_ne_unfinished i ctx options tokens state) hends
  change run i ctx options tokens state = _ at hrun
  unfold parse at hroom ⊢
  rw [hrun] at hroom ⊢
  cases hs : (engine ctx options).steps (reducer i ctx) N
      ((engine ctx options).start (reducer i ctx) tokens ⟨state, #[]⟩) with
  | running c =>
    rw [hs] at hends
    exact hends.elim
  | aborted cause c =>
    rw [hs] at hends hroom
    obtain ⟨depth, rfl⟩ := hends
    exact (hroom _ _ rfl).elim
  | accepted v c =>
    rw [hs] at hends
    obtain ⟨x', hwalks', rfl, hslots, -⟩ := hends
    obtain ⟨hbare, rfl⟩ := hwalks.unique hstateless hwalks' rfl
    have hvalue' : x'.value = .list entries :=
      (congrArg Slot.value (List.cons.inj hbare).1).symm.trans hvalue
    rw [hvalue']
    exact conclude_accepted hslots

/-! ## Texts that are respelled -/

/-- However a text that is read without error is respelled, both are read alike. -/
theorem exists_abreast {same : σ → σ → Prop} (hi : i.Heedless same) {tokens' : List Token}
    {n k : Nat} (h : Respelled false n k (textOf tokens) (textOf tokens')) {whole : ω}
    {ds : List Diagnostic} (hcomplete : (parse i ctx options tokens state).1 = .complete whole ds)
    (herrors : hasErrors ds = false)
    (hroom : ∀ depth ds, (parse i ctx options tokens' state).1 ≠
      .failed (.stackOverflow depth) ds) :
    ∃ entries s s', parse i ctx options tokens state = finished i entries s ∧
      parse i ctx options tokens' state = finished i entries s' ∧
      Abreast same ctx.file n k s s' := by
  obtain ⟨f, hleaves⟩ := exists_forest_of_complete hcomplete herrors
  obtain ⟨T, htokens⟩ := Reading.exists_of_forest f hleaves
  obtain ⟨evs, x, s, entries, hwalks, hvalue, hparse⟩ :=
    T.walks_of_complete htokens hcomplete herrors
  rw [← htokens] at h
  obtain ⟨T', htokens', hrestyled⟩ := exists_restyled T h
  have hbottom : Alike [.terminal .endOfInput] [(⟨0, .nothing, .start⟩ : Slot (Value H))]
      [⟨0, .nothing, .start⟩] := .cons ⟨rfl, fun _ ↦ rfl, fun _ ↦ rfl⟩ .nil
  have hstart : Abreast same ctx.file 0 0 (⟨state, #[]⟩ : Session σ) ⟨state, #[]⟩ :=
    ⟨hi.equivalence.refl state, .nil⟩
  obtain ⟨evs', slots', s', hwalks', halike, habreast⟩ :=
    hrestyled.walks hi hwalks hbottom (by decide) hstart
  rw [Nat.zero_add, Nat.zero_add] at habreast
  have hbelow := hwalks'.drop_eq
  cases halike with
  | @cons _ _ _ x' _ below hx _ =>
  obtain rfl : below = [⟨0, .nothing, .start⟩] := hbelow
  exact ⟨entries, s, s', hparse, T'.parse_of_walks htokens' hwalks' (hx.value.symm.trans hvalue)
    hroom, habreast⟩

/-- A text that is read without error is read without error however it is respelled, unless the
stack overflows. The requests to the interpretation are the same, up to the one to finish the same
entries, and of the messages only the warnings of the pipes that are left out and of the slashes
that are written for commas differ. The whole is the same, if what the interpretation makes of the
entries in the end does not depend on the messages either. -/
theorem respelled_reads {same : σ → σ → Prop} (hi : i.Heedless same) {tokens' : List Token}
    {n k : Nat} (h : Respelled false n k (textOf tokens) (textOf tokens')) {whole : ω}
    {ds : List Diagnostic} (hcomplete : (parse i ctx options tokens state).1 = .complete whole ds)
    (herrors : hasErrors ds = false)
    (hroom : ∀ depth ds, (parse i ctx options tokens' state).1 ≠
      .failed (.stackOverflow depth) ds) :
    ∃ whole' ds', (parse i ctx options tokens' state).1 = .complete whole' ds' ∧
      hasErrors ds' = false ∧ Retold ctx.file n k ds ds' ∧
      Exchange.requests (parse i.watched ctx options tokens (state, [])).2.2 =
        Exchange.requests (parse i.watched ctx options tokens' (state, [])).2.2 ∧
      (∃ entries s s', same s s' ∧ whole = (i.finish entries s).1 ∧
        whole' = (i.finish entries s').1) ∧
      ((∀ entries s s', same s s' → (i.finish entries s).1 = (i.finish entries s').1) →
        whole = whole') := by
  have hwatched := (parse_watched i ctx options tokens state []).1
  have hwatched' := (parse_watched i ctx options tokens' state []).1
  rw [← hwatched] at hcomplete
  simp only [← hwatched'] at hroom ⊢
  obtain ⟨entries, s, s', hparse, hparse', habreast⟩ :=
    exists_abreast hi.watched h hcomplete herrors hroom
  rw [hparse] at hcomplete ⊢
  rw [hparse']
  cases hcomplete
  obtain ⟨hsame, hrequests⟩ := habreast.state
  refine ⟨_, _, rfl, habreast.told.hasErrors_eq.trans herrors, habreast.told, ?_,
    ⟨entries, s.state.1, s'.state.1, hsame, rfl, rfl⟩,
    fun hfinish ↦ hfinish entries s.state.1 s'.state.1 hsame⟩
  change Exchange.requests (s.state.2 ++ [.finish entries]) =
    Exchange.requests (s'.state.2 ++ [.finish entries])
  rw [Exchange.requests_append, Exchange.requests_append, hrequests]

/-- The books are the same but for the messages. -/
def Concur (b b' : Book) : Prop := { b with errors := [] } = { b' with errors := [] }

theorem heedless_book : Book.interpretation.Heedless Concur where
  equivalence := ⟨fun _ ↦ rfl, Eq.symm, Eq.trans⟩
  report _ _ := rfl
  release _ hs := hs
  construct c hs := by
    have htags := congrArg Book.activeTags hs
    exact ⟨congrArg (Node.build · c) htags, hs⟩
  declare {b b'} d hs := by
    obtain ⟨file, tags, options, history, includes, plugins, errors⟩ := b
    obtain ⟨file', tags', options', history', includes', plugins', errors'⟩ := b'
    unfold Concur at hs
    simp only [Book.mk.injEq] at hs
    obtain ⟨rfl, rfl, rfl, rfl, rfl, rfl, -⟩ := hs
    cases d with
    | popTag tag =>
      dsimp only [Book.interpretation, Book.declare]
      split <;> exact ⟨rfl, rfl⟩
    | _ => exact ⟨rfl, rfl⟩

/-- The lines `2024-01-02 * "a" | "b" ; c` and, indented, `Assets:A 1 X {2 Y, *}`, with the tokens
between the strings, before the end of the line and between the clauses as they are given. -/
def lotLines (between ending : List Token) (separator : Terminal) : List Token :=
  let opening : List Token :=
    [.ofText .date "2024-01-02" (.point 1 1), .bare .asterisk (.point 1 12),
    .ofText .string "a" (.point 1 14)]
  let second : List Token := [.ofText .string "b" (.point 1 20)]
  let posting : List Token := [.bare .eol (.point 1 26), .bare .indent (.point 2 1),
    .ofText .account "Assets:A" (.point 2 3), .ofText .number "1" (.point 2 12),
    .ofText .currency "X" (.point 2 14), .bare .leftBrace (.point 2 16),
    .ofText .number "2" (.point 2 17), .ofText .currency "Y" (.point 2 19),
    .bare separator (.point 2 20), .bare .asterisk (.point 2 22), .bare .rightBrace (.point 2 23),
    .bare .eol (.point 2 24)]
  opening ++ between ++ second ++ ending ++ posting

def pipedLot : List Token :=
  lotLines [.bare .pipe (.point 1 18)] [.ofText .comment "c" (.point 1 24)] .comma

def pipelessLot : List Token := lotLines [] [] .slash

theorem respelled_pipedLot : Respelled false 1 1 (textOf pipedLot) (textOf pipelessLot) := by
  have hpiped : textOf pipedLot = pipedLot := rfl
  have hpipeless : textOf pipelessLot = pipelessLot := rfl
  rw [hpiped, hpipeless]
  refine .keep _ (.keep _ (.keep _ (.pipe rfl (.keep _ (.comment rfl ?_)))))
  refine .keep _ (.keep _ (.keep _ (.keep _ (.keep _ (.keep _ (.keep _ (.keep _ ?_)))))))
  exact .slash rfl rfl rfl (.keep _ (.keep _ (.keep _ (.nil _))))

def Parsed.whole? : Parsed ω → Option ω
  | .complete whole _ => some whole
  | _ => none

/-- How a text is read into a new book. -/
def bookOf (tokens : List Token) : Parsed Ledger × Book :=
  parse Book.interpretation ⟨"main", 0⟩ {} tokens { file := "main" }

theorem isClean_lots : (bookOf pipedLot).1.isClean = true ∧ (bookOf pipelessLot).1.isClean = true ∧
    (bookOf pipedLot).1.whole?.map (fun l ↦ l.errors.map Diagnostic.message) = some [pipeWarning] ∧
    (bookOf pipelessLot).1.whole?.map (fun l ↦ l.errors.map Diagnostic.message) =
      some [slashWarning] := by
  unfold bookOf parse run engine
  rw [tables_eq]
  decide +kernel

theorem respelled_reads_pipedLot :
    ∃ whole ds, (Book.interpretation.Heedless Concur ∧
        Respelled false 1 1 (textOf pipedLot) (textOf pipelessLot) ∧
        (bookOf pipedLot).1 = .complete whole ds ∧ hasErrors ds = false ∧
        ∀ depth ds, (bookOf pipelessLot).1 ≠ .failed (.stackOverflow depth) ds) ∧
      ∃ whole' ds', (bookOf pipelessLot).1 = .complete whole' ds' ∧ hasErrors ds' = false ∧
        Retold "main" 1 1 ds ds' ∧
        ∃ entries b b', Concur b b' ∧ whole = (b.finish entries).1 ∧
          whole' = (b'.finish entries).1 := by
  obtain ⟨hpiped, hpipeless, -⟩ := isClean_lots
  obtain ⟨whole, ds, hcomplete, herrors⟩ := Parsed.exists_of_isClean hpiped
  obtain ⟨whole', ds', hcomplete', -⟩ := Parsed.exists_of_isClean hpipeless
  have hroom : ∀ depth ds, (bookOf pipelessLot).1 ≠ .failed (.stackOverflow depth) ds := by
    intro depth ds h
    rw [hcomplete'] at h
    cases h
  obtain ⟨whole'', ds'', hparse, hclean, htold, -, hfinish, -⟩ :=
    respelled_reads heedless_book respelled_pipedLot hcomplete herrors hroom
  exact ⟨whole, ds, ⟨heedless_book, respelled_pipedLot, hcomplete, herrors, hroom⟩, whole'', ds'',
    hparse, hclean, htold, hfinish⟩

/-- A ledger holds the messages about its text. So it is not the same where the text is respelled,
although nothing that is made for it depends on the messages. -/
theorem whole_ne_pipedLot :
    Book.interpretation.Heedless Concur ∧
      Respelled false 1 1 (textOf pipedLot) (textOf pipelessLot) ∧
      (bookOf pipedLot).1.isClean = true ∧ (bookOf pipelessLot).1.isClean = true ∧
      (bookOf pipedLot).1.whole? ≠ (bookOf pipelessLot).1.whole? := by
  obtain ⟨hpiped, hpipeless, herrors, herrors'⟩ := isClean_lots
  refine ⟨heedless_book, respelled_pipedLot, hpiped, hpipeless, fun heq ↦ ?_⟩
  rw [heq, herrors'] at herrors
  exact absurd herrors (by decide)

end Language

end PlainLedger
