import PlainLedger.Machine.Term
import PlainLedger.Proofs.Machine.Regular

/-!
# Deciding membership

A machine that accepts a text without a report has read all of it and built its derivation tree.
Where its tables lead along a derivation tree, it accepts the text of the tree without a report. So
the tables of a grammar without conflicts, in which no nonterminal derives itself, decide what can
be derived.
-/

namespace PlainLedger

variable {α V σ : Type}

/-- The rule that an event completes. -/
def Event.reduced? : Event V → Option Nat
  | .reduce red (.value _) => some red.rule
  | _ => none

/-- The tokens before the end of the text. -/
def textOf (input : List Token) : List Token := input.takeWhile fun t ↦ t.kind ≠ .endOfInput

namespace Config

/-- The rules that have been completed, in order. -/
def reductions (c : Config V σ) : List Nat := c.log.toList.filterMap Event.reduced?

theorem reductions_eq (c : Config V σ) : c.reductions = c.acts.filterMap Event.reduced? := by
  unfold reductions acts
  induction c.log.toList with
  | nil => rfl
  | cons ev evs ih =>
    cases hev : ev.isPull with
    | true =>
      rw [List.filter_cons_of_neg (by simp [hev])]
      cases ev with
      | pull => exact ih
      | report | shift | reduce | discard | pop | resume => cases hev
    | false =>
      rw [List.filter_cons_of_pos (by simp [hev]), List.filterMap_cons, List.filterMap_cons, ih]

end Config

/-! ## What is accepted without a report -/

theorem Forest.Folds.rules_eq {g : Grammar α} {r : Reducer α V σ} {xs : List Symbol}
    {f : Forest g xs} {vs : List (V × Span)} {evs : List (Event V)} (h : f.Folds r vs evs) :
    evs.filterMap Event.reduced? = f.rules := by
  induction h with
  | nil => rfl
  | token _ _ _ ih => exact ih
  | skipped _ _ _ ih => exact ih
  | node _ _ _ hrule _ _ _ _ ihc ihr =>
    rw [List.filterMap_append, ihc, Forest.rules, ← hrule, ← ihr]
    rfl

namespace Config

variable {e : Engine α} {r : Reducer α V σ} {c : Config V σ}

/-- The value is what the reducer makes of a derivation tree of the whole text, and nothing has been
done but for that tree. -/
def Understood (e : Engine α) (r : Reducer α V σ) (input : List Token) (v : V) (c : Config V σ) :
    Prop :=
  ∃ (f : Forest e.grammar [.nonterminal e.grammar.start]) (span : Span),
    f.Folds r [(v, span)] c.acts ∧ f.leaves = (textOf input).map Leaf.token

/-- A text is accepted when all of it has been read. -/
theorem post_step_pending (hg : e.tables = e.grammar.tables)
    (hend : ∀ n m, ¬e.grammar.Edge n (.terminal .endOfInput) m) {xs : List Symbol}
    (hpath : e.grammar.Path (c.stack.slots.map Slot.state) xs) :
    (c.step e r).Post (fun _ ↦ True) (fun _ c' ↦ c'.pending = []) fun _ _ ↦ True := by
  obtain ⟨x, rest, hslots⟩ : ∃ x rest, c.stack.slots = x :: rest :=
    List.exists_cons_of_ne_nil fun hnil ↦ hpath.ne_nil (by rw [hnil, List.map_nil])
  have hpath' := hpath
  rw [hslots, List.map_cons] at hpath'
  obtain ⟨S, hS⟩ := hpath'.exists_state
  obtain ⟨row, hrow⟩ := Grammar.exists_row hS
  rw [← hg] at hrow
  have hmoves := moves_step (r := r) hg hend hpath
  cases hstep : c.step e r with
  | running c' => trivial
  | aborted cause c' => trivial
  | accepted v c' =>
    rw [hstep] at hmoves
    cases hmoves with
    | reject _ _ _ _ _ _ _ hrecover => cases hrecover
    | skip _ _ _ _ _ _ hrecover => cases hrecover
    | fail _ _ _ _ _ hrecover => cases hrecover
    | @accept x' y row' _ hslots' hrow' hdecide hpending _ _ =>
      cases hslots.symm.trans hslots'
      cases hrow.symm.trans hrow'
      rw [step_eq e r hslots hrow, kind_peek, hdecide] at hstep
      dsimp only at hstep
      unfold accept at hstep
      rw [Stack.pop?, stack_consult, hslots] at hstep
      cases hstep
      have hsame := pending_consult e r row c
      rw [hpending] at hsame
      exact hsame

end Config

namespace Engine

variable {e : Engine α} {r : Reducer α V σ}

/-- Before the first step nothing has been done, and only the bottom is on the stack. -/
theorem post_start_fresh (input : List Token) (m : σ) :
    (e.start r input m).Post
      (fun c ↦ c.stack.slots = [⟨0, r.blank, .start⟩] ∧ c.pending = textOf input ∧ c.memory = m ∧
        c.acts = [])
      (fun _ _ ↦ False) (fun cause _ ↦ ∃ d, cause = .stackOverflow d) := by
  unfold start
  cases hcreate : Stack.create (V := V) e.options.initialStackDepth e.options.maxStackDepth with
  | error overflow => exact ⟨_, rfl⟩
  | ok stack =>
    refine Config.post_push r ?_ fun d ↦ ⟨d, rfl⟩
    intro stack' hpush
    refine ⟨?_, rfl, rfl, rfl⟩
    rw [← Stack.slots_create hcreate]
    exact Stack.slots_push hpush

/-- As long as nothing has been reported a run is clean, and a text is accepted at its end. -/
theorem post_clean (hg : e.tables = e.grammar.tables)
    (hend : ∀ n m, ¬e.grammar.Edge n (.terminal .endOfInput) m) (input : List Token) (m : σ)
    (n : Nat) :
    (e.steps r n (e.start r input m)).Post
      (fun c ↦ (c.Traced e r m ∧ c.InOrder input) ∧ (c.Reported ∨ c.Clean))
      (fun v c ↦ ((c.Accepted e r m v ∧ c.InOrder input) ∧ (c.Reported ∨ c.Clean)) ∧
        c.pending = [])
      (fun _ _ ↦ True) := by
  refine e.post_steps r ?_ n ?_
  · rintro c ⟨⟨htraced, hin⟩, hclean⟩
    obtain ⟨x, rest, hslots⟩ := List.exists_cons_of_ne_nil htraced.ne_nil
    have htrace := htraced
    rw [Config.Traced, hslots] at htrace
    obtain ⟨row, hrow⟩ := htrace.exists_row hg
    obtain ⟨xs, hxs⟩ := htraced.spelled
    have hstep := (((Config.continues_step hg htraced).and
      (Step.post_of_config (htraced.step_inOrder hg hin))).and
      (Config.post_step_clean hslots hrow hclean)).and
      (Config.post_step_pending (r := r) hg hend hxs.path)
    exact hstep.imp (fun _ h ↦ h.1) (fun _ _ h ↦ h) fun _ _ _ ↦ trivial
  · have hclean : (e.start r input m).Post (fun c ↦ c.Reported ∨ c.Clean)
        (fun _ c ↦ c.Reported ∨ c.Clean) (fun _ c ↦ c.Reported ∨ c.Clean) :=
      Step.post_of_config (Or.inr (Config.clean_start input m))
    have hstart := (continues_inOrder (r := r) hg input m 0).and hclean
    rw [steps_zero] at hstart
    exact (hstart.and (post_start_fresh input m)).imp (fun _ h ↦ h.1) (fun _ _ h ↦ h.2.elim)
      fun _ _ _ ↦ trivial

/-- What is accepted without a report has been understood. -/
theorem post_understood (hg : e.tables = e.grammar.tables)
    (hend : ∀ n m, ¬e.grammar.Edge n (.terminal .endOfInput) m) (input : List Token) (m : σ)
    (n : Nat) :
    (e.steps r n (e.start r input m)).Post (fun _ ↦ True)
      (fun v c ↦ c.Reported ∨ c.Understood e r input v) (fun _ _ ↦ True) := by
  refine (post_clean hg hend input m n).imp (fun _ _ ↦ trivial) ?_ fun _ _ _ ↦ trivial
  rintro v c ⟨⟨⟨haccepted, hin⟩, hclean⟩, hpending⟩
  rcases hclean with hreported | hclean
  · exact Or.inl hreported
  · obtain ⟨x, y, htrace, hhas, rfl, -⟩ := haccepted
    have hevents : ∀ ev ∈ c.log.toList, ev.isRegular = true := fun ev hev ↦
      hclean.events ev (Array.mem_def.mpr hev)
    obtain ⟨xs, hgrown⟩ := Grown.of_clean htrace hevents
    obtain ⟨f, hf⟩ := hgrown.accept hhas
    have hleaves := leaves_of_clean hevents
    refine Or.inr ⟨f, x.span, hf, ?_⟩
    rw [hf.leaves_eq, hleaves]
    exact congrArg _ (hin.consumed_eq hpending (htrace.consumed_ne hend hevents))

/-- Where the tables lead along a derivation tree of the text, the machine walks along it and
accepts, unless the stack overflows or the reducer has no value for a rule. -/
theorem exists_accepts_or_balks (hg : e.tables = e.grammar.tables)
    {K : List (Slot V) → List Symbol → List Token → Prop} (hK : e.Carries r K)
    {f : Forest e.grammar [.nonterminal e.grammar.start]} {n : Nat} {row : Row}
    (hleads : Leads e.grammar 0 f .endOfInput n) (hrow : e.row? n = some row)
    (haccept : row.decide .endOfInput = some .accept) {input : List Token}
    (hleaves : f.leaves = (textOf input).map Leaf.token)
    (hs : K [⟨0, r.blank, .start⟩] [] (textOf input))
    (hlex : ∀ t ∈ textOf input, t.kind ≠ .lexError) (m : σ) :
    ∃ N, (e.steps r N (e.start r input m)).Post
      (fun c ↦ Balks r f [⟨0, r.blank, .start⟩] m ∧ c.Refused e r ∧ ∃ ys ts, K c.stack.slots ys ts)
      (fun v c ↦ ∃ x, Walks r f [⟨0, r.blank, .start⟩] m c.acts [x, ⟨0, r.blank, .start⟩] c.memory ∧
        v = x.value ∧ c.stack.slots = [⟨0, r.blank, .start⟩] ∧
        K [x, ⟨0, r.blank, .start⟩] [.nonterminal e.grammar.start] [])
      (fun cause _ ↦ ∃ d, cause = .stackOverflow d) := by
  have hstart := post_start_fresh (e := e) (r := r) input m
  rw [← e.steps_zero r (e.start r input m)] at hstart
  refine post_steps_trans (hstart.imp (fun _ h ↦ h) (fun _ _ h ↦ h.elim) fun _ _ h ↦ h) ?_
  rintro c ⟨hslots, hpending, rfl, hacts⟩
  rw [← List.append_nil (textOf input), ← hslots] at hs
  obtain ⟨N, hN⟩ := hleads.walks_or_balks hg hK hs hslots rfl hleaves
    (hpending.trans (List.append_nil _).symm) (by rw [hpending]; exact hlex) rfl
  refine post_steps_trans (hN.imp (fun _ h ↦ h) (fun _ _ h ↦ h.elim) fun _ _ h ↦ h) ?_
  rw [hslots]
  rintro c' (⟨⟨evs, x, rest, hwalks, hacts', hpending', hslots', rfl⟩, hs'⟩ | hbalks)
  · rw [hslots] at hwalks
    rw [hslots'] at hwalks hs'
    obtain rfl : rest = [⟨0, r.blank, .start⟩] := hwalks.drop_eq
    refine ⟨1, post_steps_one ((Config.step_of_accept hslots' hrow hpending' haccept).imp
      (fun _ h ↦ h.elim) ?_ fun _ _ h ↦ h.elim)⟩
    rintro v c'' ⟨rfl, hslots'', hmemory'', hacts''⟩
    rw [hacts, List.nil_append] at hacts'
    rw [hacts'', hacts', hmemory'']
    exact ⟨x, hwalks, rfl, hslots'', hs'⟩
  · refine ⟨0, ?_⟩
    rw [steps_zero]
    exact hbalks

/-- Where the tables lead along a derivation tree of the text, the machine walks along it and
accepts, unless the stack overflows. -/
theorem exists_accepts (hg : e.tables = e.grammar.tables) {T : Symbol → V → Prop}
    (hr : e.Obliging r T) {f : Forest e.grammar [.nonterminal e.grammar.start]} {n : Nat}
    {row : Row}
    (hleads : Leads e.grammar 0 f .endOfInput n) (hrow : e.row? n = some row)
    (haccept : row.decide .endOfInput = some .accept) {input : List Token}
    (hleaves : f.leaves = (textOf input).map Leaf.token)
    (hts : ∀ t ∈ textOf input, ∀ m, T (.terminal t.kind) (r.ofToken t m).1)
    (hlex : ∀ t ∈ textOf input, t.kind ≠ .lexError) (m : σ) :
    ∃ N, (e.steps r N (e.start r input m)).Post (fun _ ↦ False)
      (fun v c ↦ ∃ x, Walks r f [⟨0, r.blank, .start⟩] m c.acts [x, ⟨0, r.blank, .start⟩] c.memory ∧
        v = x.value ∧ T (.nonterminal e.grammar.start) x.value ∧
        c.stack.slots = [⟨0, r.blank, .start⟩])
      (fun cause _ ↦ ∃ d, cause = .stackOverflow d) := by
  obtain ⟨N, hN⟩ := exists_accepts_or_balks hg hr.carries hleads hrow haccept hleaves
    ⟨.bottom rfl, hts⟩ hlex m
  refine ⟨N, hN.imp ?_ ?_ fun _ _ h ↦ h⟩
  · rintro c ⟨-, hrefused, ys, ts, hs, -⟩
    exact hr.not_refused hg hs hrefused
  · rintro v c ⟨x, hwalks, rfl, hslots, hs, -⟩
    refine ⟨x, hwalks, rfl, ?_, hslots⟩
    cases hs with
    | push _ _ hv => exact hv

end Engine

/-! ## Grammars without conflicts -/

/-- The reducer has a value for every completed rule. -/
def Reducer.Total (r : Reducer α V σ) : Prop :=
  ∀ a red m, ∃ v m', r.reduce a red m = (.value v, m')

namespace Engine

variable (e : Engine α) (r : Reducer α V σ)

/-- With steps enough the text is accepted, and nothing is reported. -/
def Recognizes (input : List Token) (m : σ) : Prop :=
  ∃ n v c, e.run r n input m = (.accepted v, c) ∧ ¬c.Reported

variable {e r}

theorem reported_clear {c : Config V σ} : (clear r c).Reported ↔ c.Reported := by
  unfold Config.Reported
  rw [log_clear]

theorem reductions_clear (c : Config V σ) : (clear r c).reductions = c.reductions := by
  unfold Config.reductions
  rw [log_clear]

/-- An accepted run ended in an accepting step. -/
theorem steps_of_run {n : Nat} {input : List Token} {m : σ} {v : V} {c : Config V σ}
    (h : e.run r n input m = (.accepted v, c)) :
    ∃ c', e.steps r n (e.start r input m) = .accepted v c' ∧ c = clear r c' := by
  unfold run at h
  cases hs : e.steps r n (e.start r input m) with
  | running c' =>
    rw [hs] at h
    cases h
  | aborted cause c' =>
    rw [hs] at h
    cases h
  | accepted v' c' =>
    rw [hs] at h
    cases h
    exact ⟨c', rfl, rfl⟩

/-- A run that can be accepted is not given up, however many steps it takes. -/
theorem ne_aborted_of_accepted {N : Nat} {input : List Token} {m : σ} {v : V}
    (h : (e.run r N input m).1 = .accepted v) (n : Nat) (cause : Abort) :
    (e.run r n input m).1 ≠ .aborted cause := by
  intro haborted
  obtain ⟨c, hN, -⟩ := steps_of_run (Prod.ext h rfl)
  have hcomm : e.steps r N (e.steps r n (e.start r input m)) =
      e.steps r n (e.steps r N (e.start r input m)) := by
    rw [← steps_add, ← steps_add, Nat.add_comm]
  unfold run at haborted
  cases hn : e.steps r n (e.start r input m) with
  | running c' =>
    rw [hn] at haborted
    cases haborted
  | accepted v' c' =>
    rw [hn] at haborted
    cases haborted
  | aborted cause' c' =>
    rw [hn, hN, steps_aborted, steps_accepted] at hcomm
    cases hcomm

end Engine

/-- What has been understood can be derived from the start symbol, from right to left. -/
theorem Config.Understood.rightmost {e : Engine α} {r : Reducer α V σ} {input : List Token} {v : V}
    {c : Config V σ} (h : c.Understood e r input v) :
    e.grammar.Rightmost [.nonterminal e.grammar.start] c.reductions.reverse
      ((textOf input).map fun t ↦ .terminal t.kind) := by
  obtain ⟨f, span, hfolds, hleaves⟩ := h
  have hrightmost := f.rightmost
  rw [hleaves, List.map_map, ← hfolds.rules_eq, ← c.reductions_eq] at hrightmost
  exact hrightmost

/-- A kind of token that texts are made of. -/
def Terminal.Ordinary (t : Terminal) : Prop := t ≠ .endOfInput ∧ t ≠ .error ∧ t ≠ .lexError

instance (t : Terminal) : Decidable t.Ordinary := inferInstanceAs (Decidable (_ ∧ _ ∧ _))

namespace Grammar

variable {g : Grammar α}

/-- The rules are read from texts alone. -/
def Ordinary (g : Grammar α) : Prop := ∀ p ∈ g.rules, ∀ t, .terminal t ∈ p.rhs → t.Ordinary

instance (g : Grammar α) : Decidable g.Ordinary :=
  decidable_of_iff (∀ p ∈ g.rules, ∀ x ∈ p.rhs, ∀ t ∈ x.terminal?, t.Ordinary) <| by
    refine forall₂_congr fun p _ ↦ ⟨fun h t ht ↦ h _ ht t rfl, ?_⟩
    rintro h (t | n) hx t' ht'
    · cases ht'
      exact h t hx
    · cases ht'

/-- No state goes on with a token that no rule mentions. -/
theorem not_edge_of_not_mem {t : Terminal} (h : ∀ p ∈ g.rules, .terminal t ∉ p.rhs) (n m : Nat) :
    ¬g.Edge n (.terminal t) m := by
  intro hedge
  obtain ⟨i, -, hnext, -⟩ := exists_kernelHas_of_edge hedge
  have hmem : .terminal t ∈ g.rhs i.rule :=
    (List.drop_sublist _ _).subset (List.mem_of_mem_head? hnext)
  unfold rhs at hmem
  cases hrule : g.rules[i.rule]? with
  | none =>
    rw [hrule] at hmem
    cases List.mem_singleton.mp hmem
  | some p =>
    rw [hrule] at hmem
    exact h p (List.mem_of_getElem? hrule) hmem

theorem Ordinary.not_edge (h : g.Ordinary) (n m : Nat) :
    ¬g.Edge n (.terminal .endOfInput) m :=
  not_edge_of_not_mem (fun p hp hmem ↦ (h p hp _ hmem).1 rfl) n m

theorem textOf_eq {input : List Token} (h : ∀ t ∈ input, t.kind.Ordinary) : textOf input = input :=
  List.takeWhile_eq_self_iff.mpr fun t ht ↦ decide_eq_true (h t ht).1

/-- The tables of a grammar without conflicts and ranks, in which no nonterminal derives itself,
decide what can be derived: unless the stack overflows, the machine accepts the texts of the
language without a report, and no others, and it completes the rules of a rightmost derivation in
reverse order. -/
theorem decides_language (g : Grammar α) (hclosed : g.Closed) (hordinary : g.Ordinary)
    (hacyclic : g.Acyclic) (hlevels : g.levels = []) (hconflicts : g.tables.conflicts = [])
    (ctx : Context) (options : Options) {r : Reducer α V σ} (hr : r.Total) (input : List Token)
    (hinput : ∀ t ∈ input, t.kind.Ordinary) (m : σ)
    (hroom : ∀ n d, ((g.engine ctx options).run r n input m).1 ≠ .aborted (.stackOverflow d)) :
    ((g.engine ctx options).Recognizes r input m ↔
        g.Derives [.nonterminal g.start] (input.map fun t ↦ .terminal t.kind)) ∧
      ∀ n v c, (g.engine ctx options).run r n input m = (.accepted v, c) → ¬c.Reported →
        g.Rightmost [.nonterminal g.start] c.reductions.reverse
          (input.map fun t ↦ .terminal t.kind) := by
  have hg : (g.engine ctx options).tables = (g.engine ctx options).grammar.tables := rfl
  have hrightmost : ∀ n v c, (g.engine ctx options).run r n input m = (.accepted v, c) →
      ¬c.Reported → g.Rightmost [.nonterminal g.start] c.reductions.reverse
        (input.map fun t ↦ .terminal t.kind) := by
    intro n v c hrun hreported
    obtain ⟨c', hsteps, rfl⟩ := Engine.steps_of_run hrun
    have hpost := Engine.post_understood (r := r) hg hordinary.not_edge input m n
    rw [hsteps] at hpost
    rcases hpost with hpost | hpost
    · exact (hreported (Engine.reported_clear.mpr hpost)).elim
    · rw [Engine.reductions_clear, ← textOf_eq hinput]
      exact hpost.rightmost
  refine ⟨⟨?_, ?_⟩, hrightmost⟩
  · rintro ⟨n, v, c, hrun, hreported⟩
    exact (hrightmost n v c hrun hreported).derives
  · intro hderives
    have hsymbols : (input.map fun t ↦ Symbol.terminal t.kind) =
        (input.map Leaf.token).map Leaf.symbol := by
      rw [List.map_map]
      rfl
    rw [hsymbols] at hderives
    obtain ⟨f, hleaves⟩ := Forest.exists_of_derives hderives
    have hends : ∀ x ∈ f.leaves, x.terminal ≠ .endOfInput := by
      rw [hleaves]
      exact List.forall_mem_map.mpr fun t ht ↦ (hinput t ht).1
    obtain ⟨n, row, hleads, hrow, haccept⟩ :=
      exists_leads_start hclosed (hacyclic g.start) hlevels hconflicts f hends
    have hobliging : (g.engine ctx options).Obliging r fun _ _ ↦ True := by
      intro k p x rest ys m _ _ _
      obtain ⟨v, m', hv⟩ := hr p.action (.ofSlots k p.rhs.length (x :: rest)) m
      exact ⟨v, m', hv, trivial⟩
    rw [← textOf_eq hinput] at hleaves
    obtain ⟨N, hN⟩ := Engine.exists_accepts hg hobliging hleads hrow haccept hleaves
      (fun _ _ _ ↦ trivial) (by rw [textOf_eq hinput]; exact fun t ht ↦ (hinput t ht).2.2) m
    cases hsteps : (g.engine ctx options).steps r N ((g.engine ctx options).start r input m) with
    | running c =>
      rw [hsteps] at hN
      exact hN.elim
    | aborted cause c =>
      rw [hsteps] at hN
      obtain ⟨d, rfl⟩ := hN
      refine (hroom N d ?_).elim
      unfold Engine.run
      rw [hsteps]
      rfl
    | accepted v c =>
      rw [hsteps] at hN
      obtain ⟨x, hwalks, rfl, -, -⟩ := hN
      refine ⟨N, x.value, Engine.clear r c, ?_, ?_⟩
      · unfold Engine.run
        rw [hsteps]
        rfl
      · rw [Engine.reported_clear]
        rintro ⟨d, hd⟩
        have hmem : .report d ∈ c.acts :=
          List.mem_filter.mpr ⟨Array.mem_def.mp hd, rfl⟩
        cases hwalks.isRegular _ hmem

theorem total_term : (Reducer.term [] []).Total := by
  intro a red m
  exact ⟨_, _, rfl⟩

/-- The number `(1)`. -/
theorem decides_language_parenthesized :
    (parenthesized.Closed ∧ parenthesized.Ordinary ∧ parenthesized.Acyclic ∧
      parenthesized.levels = [] ∧ parenthesized.tables.conflicts = [] ∧
      (Reducer.term [] []).Total) ∧
    ((parenthesized.engine ⟨"main", 0⟩ {}).Recognizes (.term [] [])
          [.bare .leftParen .start, .ofText .number "1" .start, .bare .rightParen .start] #[] ↔
        parenthesized.Derives [.nonterminal 0]
          [.terminal .leftParen, .terminal .number, .terminal .rightParen]) ∧
      ∀ n v c, (parenthesized.engine ⟨"main", 0⟩ {}).run (.term [] []) n
          [.bare .leftParen .start, .ofText .number "1" .start, .bare .rightParen .start] #[] =
            (.accepted v, c) → ¬c.Reported →
        parenthesized.Rightmost [.nonterminal 0] c.reductions.reverse
          [.terminal .leftParen, .terminal .number, .terminal .rightParen] := by
  have hclosed : parenthesized.Closed := by decide
  have hordinary : parenthesized.Ordinary := by decide
  have hconflicts : parenthesized.tables.conflicts = [] := by decide +kernel
  have hinput : ∀ t ∈ [Token.bare .leftParen .start, .ofText .number "1" .start,
      .bare .rightParen .start], t.kind.Ordinary := by decide
  refine ⟨⟨hclosed, hordinary, acyclic_parenthesized, rfl, hconflicts, total_term⟩, ?_⟩
  exact decides_language parenthesized hclosed hordinary acyclic_parenthesized rfl hconflicts
    ⟨"main", 0⟩ {} total_term _ hinput #[]
    fun n d ↦ Engine.ne_aborted_of_accepted (N := 10) rfl n (.stackOverflow d)

end Grammar

end PlainLedger
