import PlainLedger.Proofs.Language.Calls
import PlainLedger.Proofs.Language.Diagnostics
import PlainLedger.Proofs.Language.Reading
import PlainLedger.Proofs.Language.Soundness

/-!
# What is recognized

Unless the stack overflows, an interpretation that refuses nothing reads just the sentences of the
language without error, and is asked for what their readings ask for.
-/

namespace PlainLedger

variable {α V σ : Type}

theorem Leads.exists_edge {g : Grammar α} {xs : List Symbol} {n n' : Nat} {f : Forest g xs}
    {t : Terminal} (h : Leads g n f t n') :
    ∀ x ∈ f.leaves, ∃ m m', g.Edge m (.terminal x.terminal) m' := by
  induction h with
  | nil => simp [Forest.leaves]
  | leaf hrow hdecide _ ih =>
    exact List.forall_mem_cons.mpr ⟨⟨_, _, Grammar.allows_of_decide hrow hdecide⟩, ih⟩
  | node _ _ _ _ _ ihc ihr => exact List.forall_mem_append.mpr ⟨ihc, ihr⟩

/-- A terminal has a leaf. -/
theorem Forest.exists_leaf {g : Grammar α} {xs : List Symbol} (f : Forest g xs) {t : Terminal}
    (ht : .terminal t ∈ xs) : ∃ x ∈ f.leaves, x.terminal = t := by
  induction f with
  | nil => cases ht
  | leaf x rest ih =>
    rcases List.mem_cons.mp ht with ht | ht
    · exact ⟨x, List.mem_cons_self .., (Symbol.terminal.inj ht).symm⟩
    · obtain ⟨y, hy, hterminal⟩ := ih ht
      exact ⟨y, List.mem_cons_of_mem _ hy, hterminal⟩
  | node k hrule children rest _ ih =>
    rcases List.mem_cons.mp ht with ht | ht
    · cases ht
    · obtain ⟨y, hy, hterminal⟩ := ih ht
      exact ⟨y, List.mem_append_right _ hy, hterminal⟩

/-- A run that ends within its budget ends as it does with any number of steps that is enough. -/
theorem Engine.run_eq_finish {e : Engine α} {r : Reducer α V σ} {budget N : Nat}
    {input : List Token} {m : σ} (hend : (e.run r budget input m).1 ≠ .unfinished)
    {A : V → Config V σ → Prop} {B : Abort → Config V σ → Prop}
    (hN : (e.steps r N (e.start r input m)).Post (fun _ ↦ False) A B) :
    e.run r budget input m = e.finish r (e.steps r N (e.start r input m)) := by
  have hcomm : e.steps r N (e.steps r budget (e.start r input m)) =
      e.steps r budget (e.steps r N (e.start r input m)) := by
    rw [← steps_add, ← steps_add, Nat.add_comm]
  unfold run at hend ⊢
  congr 1
  cases hs : e.steps r N (e.start r input m) with
  | running c =>
    rw [hs] at hN
    exact hN.elim
  | accepted v c =>
    rw [hs, steps_accepted] at hcomm
    cases hb : e.steps r budget (e.start r input m) with
    | running c' =>
      rw [hb] at hend
      exact (hend rfl).elim
    | accepted v' c' => rwa [hb, steps_accepted] at hcomm
    | aborted cause c' => rwa [hb, steps_aborted] at hcomm
  | aborted cause c =>
    rw [hs, steps_aborted] at hcomm
    cases hb : e.steps r budget (e.start r input m) with
    | running c' =>
      rw [hb] at hend
      exact (hend rfl).elim
    | accepted v' c' => rwa [hb, steps_accepted] at hcomm
    | aborted cause' c' => rwa [hb, steps_aborted] at hcomm

namespace Language

variable {H ε ω σ : Type}

/-! ## Interpretations that refuse nothing -/

structure Interpretation.Accepting (i : Interpretation H ε σ ω) : Prop where
  construct : ∀ c s, ∃ a s', i.construct c s = (.ok a, s')
  declare : ∀ d s, ∃ s', i.declare d s = (.ok (), s')

namespace Interpretation.Accepting

variable {i : Interpretation H ε σ ω} (hi : i.Accepting)
include hi

theorem watched : i.watched.Accepting where
  construct c s := by
    obtain ⟨a, state, h⟩ := hi.construct c s.1
    exact ⟨a, (state, s.2 ++ [.construct c (.ok a)]), by simp [Interpretation.watched, h]⟩
  declare d s := by
    obtain ⟨state, h⟩ := hi.declare d s.1
    exact ⟨(state, s.2 ++ [.declare d (.ok ())]), by simp [Interpretation.watched, h]⟩

theorem exists_value (origin : Provenance) (s : Session σ) (plan : Plan H) :
    ∃ v s', s.perform i origin plan = (.value v, s') := by
  cases plan with
  | keep v => exact ⟨v, s, rfl⟩
  | warn message v => exact ⟨v, _, rfl⟩
  | construct c =>
    obtain ⟨a, state, h⟩ := hi.construct c s.state
    exact ⟨.handle a, { s with state }, by simp [Session.perform, Session.outcome, h]⟩
  | measure c tolerance? =>
    obtain ⟨a, state, h⟩ := hi.construct c s.state
    exact ⟨.pair a tolerance?, { s with state }, by simp [Session.perform, h]⟩
  | declare d =>
    obtain ⟨state, h⟩ := hi.declare d s.state
    exact ⟨.nothing, { s with state }, by simp [Session.perform, Session.outcome, h]⟩

/-- Every rule that is completed has a value. -/
theorem obliging (ctx : Context) (options : Options) :
    (engine ctx options).Obliging (reducer i ctx) Typed := by
  intro k p x rest ys m hrule hs hhas
  obtain ⟨-, -, hvalues, y, below, hbelow, hpred, hs'⟩ := hs.reduce hrule hhas
  obtain ⟨n, hedge⟩ := Grammar.exists_goto hpred hrule
  have hflag : p.action.isPosting = true →
      (txnFlag? p.action (Reduction.ofSlots k p.rhs.length (x :: rest)).below).isSome = true := by
    intro hposting
    change (txnFlag? p.action ((x :: rest).drop p.rhs.length)).isSome = true
    rw [hbelow]
    exact txnFlag?_isSome hs' hrule hedge hposting
  obtain ⟨verdict, m', hverdict⟩ : ∃ verdict m', (reducer i ctx).reduce p.action
      (.ofSlots k p.rhs.length (x :: rest)) m = (verdict, m') := ⟨_, _, rfl⟩
  obtain ⟨hfatal, htyped⟩ := typed_reduce i ctx hrule hvalues hflag hverdict
  cases verdict with
  | value v => exact ⟨v, m', hverdict, htyped v rfl⟩
  | fatal cause => exact (hfatal cause rfl).elim
  | rejected message =>
    dsimp only [reducer] at hverdict
    split at hverdict
    · cases hverdict
    · obtain ⟨v, s', h⟩ := hi.exists_value _ _ _
      rw [h] at hverdict
      cases hverdict

end Interpretation.Accepting

/-! ## Sentences -/

/-- The language without the rule that recovery goes on with. -/
def properGrammar : Grammar Production where
  names := grammar.names
  levels := grammar.levels
  rules := grammar.rules.filter fun p ↦ p.action ≠ .declarationsError
  start := grammar.start
  start_lt := grammar.start_lt
  rank?_error := grammar.rank?_error
  defined := by decide

/-- The kinds are those of a ledger in which nothing has to be skipped. -/
def IsSentence (ks : List Terminal) : Prop :=
  properGrammar.Derives [Category.file.symbol] (ks.map .terminal)

/-- A sentence can be derived in the language. -/
theorem IsSentence.derives {ks : List Terminal} (h : IsSentence ks) :
    grammar.Derives [Category.file.symbol] (ks.map .terminal) := by
  refine Relation.ReflTransGen.mono ?_ _ _ h
  rintro _ _ ⟨hrule, xs, ys⟩
  obtain ⟨hmem, -⟩ := List.mem_filter.mp (List.mem_of_getElem? hrule)
  obtain ⟨k, hk⟩ := List.mem_iff_getElem?.mp hmem
  exact .rule hk xs ys

/-- What is skipped stands in every text that the other rule derives. -/
theorem error_mem_rhs {p : Rule Production} (hp : p ∈ grammar.rules)
    (haction : p.action = .declarationsError) : .terminal .error ∈ p.rhs := by
  have hall : ∀ p ∈ grammar.rules, p.action = .declarationsError → .terminal .error ∈ p.rhs := by
    decide +kernel
  exact hall p hp haction

theorem properGrammar_derives {xs : List Symbol} (f : Forest grammar xs)
    (herror : ∀ x ∈ f.leaves, x.terminal ≠ .error) :
    properGrammar.Derives xs (f.leaves.map Leaf.symbol) := by
  induction f with
  | nil => exact .refl
  | leaf x rest ih =>
    have hrest := ih fun y hy ↦ herror y (List.mem_cons_of_mem _ hy)
    simpa [Forest.leaves] using hrest.append [x.symbol] []
  | @node k p hrule children xs rest ihc ihr =>
    simp only [Forest.leaves, List.forall_mem_append] at herror
    have hmem : p ∈ properGrammar.rules := by
      refine List.mem_filter.mpr ⟨List.mem_of_getElem? hrule, decide_eq_true fun haction ↦ ?_⟩
      obtain ⟨x, hx, hterminal⟩ :=
        children.exists_leaf (error_mem_rhs (List.mem_of_getElem? hrule) haction)
      exact herror.1 x hx hterminal
    obtain ⟨k', hk'⟩ := List.mem_iff_getElem?.mp hmem
    have hrest := (ihr herror.2).append [.nonterminal p.lhs] []
    have hchildren := (ihc herror.1).append [] (rest.leaves.map Leaf.symbol)
    have hstep : properGrammar.Produces ([] ++ .nonterminal p.lhs :: rest.leaves.map Leaf.symbol)
        ([] ++ p.rhs ++ rest.leaves.map Leaf.symbol) := .rule hk' _ _
    simp only [List.append_nil, List.nil_append, List.cons_append] at hrest hchildren hstep
    rw [Forest.leaves, List.map_append]
    exact hrest.trans (.head hstep hchildren)

/-! ## Readings are carried out -/

section Readings

variable {i : Interpretation H ε σ ω} {ctx : Context} {options : Options} {tokens : List Token}

/-- Tokens that can be read are none that the grammar does not mention. -/
theorem Reading.ne_lexError (T : Reading [Category.file.symbol]) :
    ∀ t ∈ T.tokens, t.kind ≠ .lexError := by
  obtain ⟨n, row, hleads, -⟩ := T.exists_leads_start
  intro t ht hkind
  have hleaf : Leaf.token t ∈ T.forest.leaves := by
    rw [T.leaves_forest]
    exact List.mem_map_of_mem ht
  obtain ⟨m, m', hedge⟩ := hleads.exists_edge _ hleaf
  rw [Leaf.terminal, hkind] at hedge
  exact not_edge_lexError hedge

/-- How a run comes out if nothing is refused and the text has a reading. -/
inductive CarriesOut (i : Interpretation H ε σ ω) (ctx : Context)
    (f : Forest grammar [Category.file.symbol]) (s : Session σ) :
    Outcome (Value H) × Config (Value H) (Session σ) → Prop where
  | complete {c : Config (Value H) (Session σ)} {x : Slot (Value H)} {entries : List H}
      (hvalue : x.value = .list entries) (hslots : c.stack.slots = [⟨0, .nothing, .start⟩])
      (hfaultless : c.Faultless)
      (hwalks : Walks (reducer i ctx) f [⟨0, .nothing, .start⟩] s c.acts
        [x, ⟨0, .nothing, .start⟩] c.memory) :
      CarriesOut i ctx f s (.accepted (.list entries), Engine.clear (reducer i ctx) c)
  | overflow {d : Nat} {c : Config (Value H) (Session σ)} :
      CarriesOut i ctx f s (.aborted (.stackOverflow d), c)

theorem Reading.carriesOut (T : Reading [Category.file.symbol]) (hi : i.Accepting)
    (htokens : T.tokens = textOf tokens) (hsound : ∀ t ∈ tokens, t.Sound) (state : σ) :
    CarriesOut i ctx T.forest ⟨state, #[]⟩ (run i ctx options tokens state) := by
  obtain ⟨n, row, hleads, hrow, haccept⟩ := T.exists_leads_start
  have hleaves : T.forest.leaves = (textOf tokens).map Leaf.token := by
    rw [T.leaves_forest, htokens]
  have hts : ∀ t ∈ textOf tokens, Typed (.terminal t.kind) (Value.ofToken t : Value H) :=
    fun t ht ↦ typed_ofToken (hsound t ((List.takeWhile_sublist _).subset ht))
  obtain ⟨N, hN⟩ := Engine.exists_accepts (e := engine ctx options) (r := reducer i ctx)
    tables_engine (hi.obliging ctx options) hleads hrow haccept hleaves (fun t ht _ ↦ hts t ht)
    (htokens ▸ T.ne_lexError) ⟨state, #[]⟩
  have hrun := Engine.run_eq_finish (run_ne_unfinished i ctx options tokens state) hN
  change run i ctx options tokens state = _ at hrun
  rw [hrun]
  cases hs : (engine ctx options).steps (reducer i ctx) N
      ((engine ctx options).start (reducer i ctx) tokens ⟨state, #[]⟩) with
  | running c =>
    rw [hs] at hN
    exact hN.elim
  | aborted cause c =>
    rw [hs] at hN
    obtain ⟨d, rfl⟩ := hN
    exact .overflow
  | accepted v c =>
    rw [hs] at hN
    obtain ⟨x, hwalks, rfl, ⟨entries, hvalue⟩, hslots⟩ := hN
    have hreported : ¬c.Reported := by
      rintro ⟨d, hd⟩
      have hmem : .report d ∈ c.acts := List.mem_filter.mpr ⟨Array.mem_def.mp hd, rfl⟩
      cases hwalks.isRegular _ hmem
    have hfaultless := Engine.post_faultless (e := engine ctx options) (r := reducer i ctx)
      tables_engine (fun _ _ ↦ not_edge_end) (fun _ _ ↦ not_edge_lexError) tokens ⟨state, #[]⟩ N
    rw [hs] at hfaultless
    rw [hvalue]
    exact .complete hvalue hslots (hfaultless.mpr hreported) hwalks

/-- What comes out of a run without fault. -/
theorem CarriesOut.parse {f : Forest grammar [Category.file.symbol]} {state : σ}
    (h : CarriesOut i ctx f ⟨state, #[]⟩ (run i ctx options tokens state))
    (hroom : ∀ depth ds, (parse i ctx options tokens state).1 ≠ .failed (.stackOverflow depth) ds) :
    ∃ whole ds, (Language.parse i ctx options tokens state).1 = .complete whole ds ∧
      hasErrors ds = false := by
  have hcomes := comesOut_parse i ctx options tokens state
  unfold Language.parse at hroom hcomes ⊢
  generalize run i ctx options tokens state = out at h hroom hcomes ⊢
  cases h with
  | overflow => exact (hroom _ _ rfl).elim
  | complete hvalue hslots hfaultless hwalks =>
    refine ⟨_, _, rfl, ?_⟩
    cases hcomes with
    | complete _ herrors => exact herrors.mpr (faultless_clear.mpr hfaultless)

/-- What the interpretation is asked for in a run without fault. -/
theorem CarriesOut.calls {f : Forest grammar [Category.file.symbol]} {state : σ}
    (h : CarriesOut i.watched ctx f ⟨(state, []), #[]⟩
      (run i.watched ctx options tokens (state, [])))
    (hroom : ∀ depth ds, (Language.parse i.watched ctx options tokens (state, [])).1 ≠
      .failed (.stackOverflow depth) ds) :
    ∃ calls span, Calls ctx f [⟨0, .nothing, .start⟩] calls
        [⟨0, .list (Exchange.entries calls), span⟩, ⟨0, .nothing, .start⟩] ∧
      (Language.parse i.watched ctx options tokens (state, [])).2.2 =
        calls ++ [.finish (Exchange.entries calls)] := by
  have hmade : ∀ v c, run i.watched ctx options tokens (state, []) = (.accepted v, c) →
      ∃ entries, v = .list entries ∧ Made entries c.memory.record := fun _ _ ↦ made_of_run
  unfold Language.parse at hroom ⊢
  generalize run i.watched ctx options tokens (state, []) = out at h hroom hmade ⊢
  cases h with
  | overflow => exact (hroom _ _ rfl).elim
  | @complete c x entries hvalue hslots _ hwalks =>
    obtain ⟨calls, hcalls, hrecord⟩ := Calls.of_walks hwalks
    have hclear : (Engine.clear (reducer i.watched ctx) c).memory.record = c.memory.record := by
      rw [Engine.memory_clear, hslots]
      rfl
    obtain ⟨entries', ⟨⟩, hmade, -⟩ := hmade _ _ rfl
    rw [hclear, hrecord] at hmade
    have hentries : entries = Exchange.entries calls := hmade.symm
    have hx : x.bare = ⟨0, .list (Exchange.entries calls), x.span⟩ := by
      rw [Slot.bare, hvalue, hentries]
    simp only [List.map_cons, List.map_nil, hx] at hcalls
    refine ⟨calls, x.span, hcalls, ?_⟩
    change (Engine.clear (reducer i.watched ctx) c).memory.record ++ [.finish entries] = _
    rw [hclear, hrecord, hentries]
    rfl

/-- What is read without error can be derived. -/
theorem exists_forest_of_complete {state : σ} {whole : ω} {ds : List Diagnostic}
    (hcomplete : (parse i ctx options tokens state).1 = .complete whole ds)
    (herrors : hasErrors ds = false) :
    ∃ f : Forest grammar [Category.file.symbol], f.leaves = (textOf tokens).map Leaf.token := by
  have hcomes := comesOut_parse i ctx options tokens state
  have hunderstood := Engine.post_understood (e := engine ctx options) (r := reducer i ctx)
    tables_engine (fun _ _ ↦ not_edge_end) tokens ⟨state, #[]⟩ (stepBudget tokens.length)
  have hfaultless := Engine.post_faultless (e := engine ctx options) (r := reducer i ctx)
    tables_engine (fun _ _ ↦ not_edge_end) (fun _ _ ↦ not_edge_lexError) tokens ⟨state, #[]⟩
    (stepBudget tokens.length)
  rw [hcomplete] at hcomes
  obtain ⟨-, hclean⟩ := hcomes
  unfold parse run Engine.run at hcomplete
  unfold run Engine.run at hclean
  generalize (engine ctx options).steps (reducer i ctx) (stepBudget tokens.length) _ = st at *
  cases st with
  | running c => cases hcomplete
  | aborted cause c => cases hcomplete
  | accepted v c =>
    have hreported := hfaultless.mp (faultless_clear.mp (hclean.mp herrors))
    obtain ⟨f, -, -, hleaves⟩ := hunderstood.resolve_left hreported
    exact ⟨f, hleaves⟩

end Readings

/-- Where nothing is refused and the stack does not overflow, the texts that are read without error
are just the sentences. They have readings, and what the interpretation is asked for is what a
reading asks for, and then to finish the entries in the order in which they were made. -/
theorem recognizes_sentences (i : Interpretation H ε σ ω) (hi : i.Accepting) (ctx : Context)
    (options : Options) (tokens : List Token) (hsound : ∀ t ∈ tokens, t.Sound)
    (herror : ∀ t ∈ tokens, t.kind ≠ .error) (state : σ)
    (hroom : ∀ depth ds, (parse i ctx options tokens state).1 ≠ .failed (.stackOverflow depth) ds) :
    ((∃ whole ds, (parse i ctx options tokens state).1 = .complete whole ds ∧
        hasErrors ds = false) ↔ IsSentence ((textOf tokens).map Token.kind)) ∧
      (IsSentence ((textOf tokens).map Token.kind) →
        (∃ T : Reading [Category.file.symbol], T.tokens = textOf tokens) ∧
        ∀ T : Reading [Category.file.symbol], T.tokens = textOf tokens →
          ∃ calls span, Calls ctx T.forest [⟨0, .nothing, .start⟩] calls
              [⟨0, .list (Exchange.entries calls), span⟩, ⟨0, .nothing, .start⟩] ∧
            (parse i.watched ctx options tokens (state, [])).2.2 =
              calls ++ [.finish (Exchange.entries calls)]) := by
  have hreading : IsSentence ((textOf tokens).map Token.kind) →
      ∃ T : Reading [Category.file.symbol], T.tokens = textOf tokens := by
    intro hsentence
    have hderives := hsentence.derives
    rw [List.map_map] at hderives
    exact Reading.exists_of_derives hderives
  refine ⟨⟨?_, ?_⟩, fun hsentence ↦ ⟨hreading hsentence, ?_⟩⟩
  · rintro ⟨whole, ds, hcomplete, herrors⟩
    obtain ⟨f, hleaves⟩ := exists_forest_of_complete hcomplete herrors
    have hderives := properGrammar_derives f <| by
      rw [hleaves]
      exact List.forall_mem_map.mpr fun t ht ↦ herror t ((List.takeWhile_sublist _).subset ht)
    rw [hleaves, List.map_map] at hderives
    rw [IsSentence, List.map_map]
    exact hderives
  · intro hsentence
    obtain ⟨T, htokens⟩ := hreading hsentence
    exact (T.carriesOut hi htokens hsound state).parse hroom
  · intro T htokens
    refine (T.carriesOut hi.watched htokens hsound (state, [])).calls ?_
    rwa [(parse_watched i ctx options tokens state []).1]

/-- Objects are numbered, and nothing is refused. -/
def Interpretation.counting : Interpretation Nat String Nat (List Nat) where
  construct _ n := (.ok n, n + 1)
  declare _ n := (.ok (), n)
  report _ n := n
  release _ n := n
  finish entries n := (entries, n)
  message reason := reason

theorem accepting_counting : Interpretation.counting.Accepting where
  construct _ n := ⟨n, n + 1, rfl⟩
  declare _ n := ⟨n, rfl⟩

/-- The parse is complete, and nothing is wrong with the text. -/
def Parsed.isClean : Parsed ω → Bool
  | .complete _ ds => !hasErrors ds
  | _ => false

theorem Parsed.exists_of_isClean {p : Parsed ω} (h : p.isClean = true) :
    ∃ whole ds, p = .complete whole ds ∧ hasErrors ds = false := by
  cases p with
  | complete whole ds => exact ⟨whole, ds, rfl, Bool.not_eq_true' _ ▸ h⟩
  | failed | unfinished => cases h

/-- The line `2024-01-01 price USD 1 + 2 EUR`. -/
def priceLine : List Token :=
  [.ofText .date "2024-01-01" .start, .bare .price .start, .ofText .currency "USD" .start,
    .ofText .number "1" .start, .bare .plus .start, .ofText .number "2" .start,
    .ofText .currency "EUR" .start, .bare .eol .start]

theorem sound_priceLine : ∀ t ∈ priceLine, t.Sound := by
  simp [priceLine, Token.Sound, Token.ofText, Token.bare]

theorem isClean_priceLine : (parse .counting ⟨"main", 0⟩ {} priceLine 0).1.isClean = true := by
  unfold parse run engine
  rw [tables_eq]
  decide +kernel

theorem recognizes_sentences_priceLine :
    (Interpretation.counting.Accepting ∧ (∀ t ∈ priceLine, t.Sound) ∧
      (∀ t ∈ priceLine, t.kind ≠ .error) ∧
      ∀ depth ds, (parse .counting ⟨"main", 0⟩ {} priceLine 0).1 ≠
        .failed (.stackOverflow depth) ds) ∧
    IsSentence ((textOf priceLine).map Token.kind) ∧
      ∃ T : Reading [Category.file.symbol], T.tokens = textOf priceLine ∧
        ∃ calls span, Calls ⟨"main", 0⟩ T.forest [⟨0, .nothing, .start⟩] calls
            [⟨0, .list (Exchange.entries calls), span⟩, ⟨0, .nothing, .start⟩] ∧
          (parse Interpretation.counting.watched ⟨"main", 0⟩ {} priceLine (0, [])).2.2 =
            calls ++ [.finish (Exchange.entries calls)] := by
  obtain ⟨whole, ds, hcomplete, herrors⟩ := Parsed.exists_of_isClean isClean_priceLine
  have hroom : ∀ depth ds, (parse .counting ⟨"main", 0⟩ {} priceLine 0).1 ≠
      .failed (.stackOverflow depth) ds := by
    intro depth ds h
    rw [hcomplete] at h
    cases h
  obtain ⟨hiff, hcalls⟩ := recognizes_sentences .counting accepting_counting ⟨"main", 0⟩ {}
    priceLine sound_priceLine (by decide) 0 hroom
  have hsentence := hiff.mp ⟨whole, ds, hcomplete, herrors⟩
  obtain ⟨⟨T, htokens⟩, hall⟩ := hcalls hsentence
  exact ⟨⟨accepting_counting, sound_priceLine, by decide, hroom⟩, hsentence, T, htokens,
    hall T htokens⟩

end Language

end PlainLedger
