import PlainLedger.Automaton.Table
import PlainLedger.Proofs.Automaton.Path

/-!
# What a row says

The rows of a parse table follow the automaton: a terminal is read along an edge, a rule is
completed where an item has been read to its end, and a completed nonterminal leads along an edge.
Taking the default out of a row does not change what is done, only whether the next terminal has to
be known.
-/

namespace PlainLedger

namespace Row

/-- What a row does before a terminal: what it says about it, or else its default. -/
def decide (r : Row) (t : Terminal) : Option Action :=
  (r.action? t).or (r.default?.map .reduce)

theorem decide_of_not_needsLookahead {r : Row} (h : r.needsLookahead = false) (t : Terminal) :
    r.decide t = r.default?.map .reduce := by
  have hactions : r.actions = [] := by simpa [needsLookahead] using h
  simp [decide, action?, hactions]

theorem mostFrequent?_mem {rules : List Nat} {k : Nat} (h : mostFrequent? rules = some k) :
    k ∈ rules := by
  unfold mostFrequent? at h
  refine List.foldlRecOn (motive := fun best ↦ ∀ k, best = some k → k ∈ rules) _ _ (by simp) ?_ k h
  intro best hbest n hn k hk
  have hmem : n ∈ rules := Ordered.mem_ofList.mp hn
  cases best with
  | none => exact Option.some.inj hk ▸ hmem
  | some b =>
    dsimp only at hk
    split at hk
    · exact Option.some.inj hk ▸ hmem
    · exact Option.some.inj hk ▸ hbest b rfl

theorem mem_reduced {actions : List (Terminal × Action)} {k : Nat} :
    k ∈ reduced actions ↔ ∃ t, (t, Action.reduce k) ∈ actions := by
  simp only [reduced, List.mem_filterMap, Prod.exists]
  constructor
  · rintro ⟨t, a, h, hk⟩
    cases a <;> simp_all
    exact ⟨t, h⟩
  · rintro ⟨t, h⟩
    exact ⟨t, _, h, rfl⟩

/-- The completions that a row decides on are those in its entries and its default. -/
theorem mem_reduced_of_decide {r : Row} {t : Terminal} {k : Nat}
    (h : r.decide t = some (.reduce k)) : k ∈ reduced r.actions ++ r.default?.toList := by
  rw [decide, Option.or_eq_some_iff] at h
  rcases h with h | ⟨-, h⟩
  · obtain ⟨l₁, l₂, hactions, -⟩ := List.lookup_eq_some_iff.mp h
    refine List.mem_append_left _ (mem_reduced.mpr ⟨t, ?_⟩)
    rw [hactions]
    exact List.mem_append_right _ (List.mem_cons_self ..)
  · obtain ⟨k', hk', hk⟩ := Option.map_eq_some_iff.mp h
    cases hk
    exact List.mem_append_right _ (Option.mem_toList.mpr hk')

theorem exists_of_defaultOf {actions : List (Terminal × Action)} {k : Nat}
    (h : defaultOf actions = some k) : ∃ t, (t, Action.reduce k) ∈ actions := by
  unfold defaultOf at h
  split at h
  · cases h
  · exact mem_reduced.mp (mostFrequent?_mem h)

theorem lookup_filter {actions : List (Terminal × Action)} (hn : (actions.map Prod.fst).Nodup)
    (p : Action → Bool) (t : Terminal) :
    (actions.filter fun x ↦ p x.2).lookup t = (actions.lookup t).filter p := by
  induction actions with
  | nil => simp
  | cons x xs ih =>
    obtain ⟨u, a⟩ := x
    rw [List.map_cons, List.nodup_cons] at hn
    by_cases htu : t = u
    · subst htu
      rw [List.lookup_cons_self]
      by_cases hp : p a = true
      · simp [hp, Option.filter_some]
      · have hnone : (xs.lookup t) = none := by
          rw [List.lookup_eq_none_iff]
          intro y hy
          refine bne_iff_ne.mpr ?_
          rintro rfl
          exact hn.1 (List.mem_map.mpr ⟨y, hy, rfl⟩)
        simp [hp, ih hn.2, hnone, Option.filter_some]
    · by_cases hp : p a = true
      · simp [hp, List.lookup_cons, beq_false_of_ne htu, ih hn.2]
      · simp [hp, List.lookup_cons, beq_false_of_ne htu, ih hn.2]

/-- Taking out the default leaves the decisions as they are. -/
theorem decide_ofEntries {actions : List (Terminal × Action)}
    (hn : (actions.map Prod.fst).Nodup) (edges : List (Symbol × Nat)) (t : Terminal) :
    (ofEntries actions edges).decide t =
      (actions.lookup t).or ((defaultOf actions).map .reduce) := by
  have hfilter : (ofEntries actions edges).action? t =
      (actions.lookup t).filter fun a ↦ (defaultOf actions).map Action.reduce != some a :=
    lookup_filter hn (fun a ↦ (defaultOf actions).map Action.reduce != some a) t
  rw [decide, hfilter]
  cases hlookup : actions.lookup t with
  | none => rfl
  | some a =>
    by_cases ha : (defaultOf actions).map Action.reduce = some a
    · simp [ofEntries, ha, Option.filter_some]
    · simp [ha, Option.filter_some]

theorem goto?_ofEntries (actions : List (Terminal × Action)) (edges : List (Symbol × Nat))
    (n : Nat) : (ofEntries actions edges).goto? n = edges.lookup (.nonterminal n) := by
  simp only [goto?, ofEntries]
  induction edges with
  | nil => rfl
  | cons e es ih =>
    obtain ⟨x, s⟩ := e
    cases x with
    | terminal t =>
      have hne : (Symbol.nonterminal n == .terminal t) = false := beq_false_of_ne (by simp)
      rw [List.filterMap_cons_none (by rfl), List.lookup_cons, hne]
      exact ih
    | nonterminal m =>
      rw [List.filterMap_cons_some (b := (m, s)) (by rfl), List.lookup_cons, List.lookup_cons]
      by_cases hnm : n = m
      · simp [hnm]
      · have hne : (Symbol.nonterminal n == .nonterminal m) = false :=
          beq_false_of_ne (by simpa using hnm)
        rw [beq_false_of_ne hnm, hne]
        exact ih

end Row

namespace Lookaheads

/-- One set of lookaheads for each kernel item of each state. -/
def Fits (l : Lookaheads) (states : List State) : Prop :=
  l.map List.length = states.map fun s ↦ s.kernel.length

theorem fits_initial (states : List State) : Fits (initial states) states := by
  simp only [Fits, initial, List.map_map]
  refine List.ext_getElem (by simp) fun n _ _ ↦ ?_
  simp

theorem Fits.collect {l : Lookaheads} {states : List State} (h : l.Fits states)
    {ws : List (List (List Inflow))}
    (hw : ws.map List.length = states.map fun s ↦ s.kernel.length) :
    (Lookaheads.collect ws l).Fits states := by
  have hlen : l.length = states.length := by simpa using congrArg List.length h
  have hwlen : ws.length = states.length := by simpa using congrArg List.length hw
  refine List.ext_getElem (by simp [Lookaheads.collect, hlen, hwlen]) fun n h₁ h₂ ↦ ?_
  have hn : n < states.length := by simpa using h₂
  have hl := List.getElem_of_eq h (by simpa [hlen] using hn)
  have hw' := List.getElem_of_eq hw (by simpa [hwlen] using hn)
  simp only [List.getElem_map] at hl hw'
  simp [Lookaheads.collect, hl, hw']

end Lookaheads

namespace Grammar

variable {α : Type} (g : Grammar α) (table : FlowTable)

theorem fits_inflows (states : List State) :
    (g.inflows table states).map List.length = states.map fun s ↦ s.kernel.length := by
  simp only [inflows, List.map_map]
  refine List.ext_getElem (by simp) fun n _ _ ↦ ?_
  simp

theorem fits_solveLookaheads (states : List State) :
    (g.solveLookaheads table states).Fits states :=
  settle_induction (P := fun l : Lookaheads ↦ l.Fits states)
    (fun _ h ↦ h.collect (g.fits_inflows table states)) _ (Lookaheads.fits_initial states)

/-! ## Completed items -/

@[simp] theorem keys_followStep (ps : List Prediction) (fs : List (Nat × Flow)) :
    (followStep ps fs).map Prod.fst = fs.map Prod.fst := by
  simp [followStep]

theorem keys_follows (seeds : List (Item × Flow)) :
    (g.follows table seeds).map Prod.fst = g.predicted (seeds.map Prod.fst) := by
  refine settle_induction
    (P := fun fs : List (Nat × Flow) ↦ fs.map Prod.fst = g.predicted (seeds.map Prod.fst))
    (fun fs h ↦ by rw [keys_followStep, h]) _ ?_
  rw [List.map_map]
  exact List.map_id _

theorem mem_flowClosure {seeds : List (Item × Flow)} {i : Item} {f : Flow} :
    (i, f) ∈ g.flowClosure table seeds ↔ (i, f) ∈ seeds ∨
      i.dot = 0 ∧ ∃ r, g.rules[i.rule]? = some r ∧ (r.lhs, f) ∈ g.follows table seeds := by
  simp only [flowClosure, List.mem_append, List.mem_flatMap, List.mem_map, mem_rulesOf,
    Prod.exists, Prod.mk.injEq]
  refine or_congr_right ⟨?_, ?_⟩
  · rintro ⟨n, f, hn, k, ⟨r, hr, rfl⟩, rfl, rfl⟩
    exact ⟨rfl, r, hr, hn⟩
  · rintro ⟨hdot, r, hr, hn⟩
    refine ⟨r.lhs, f, hn, i.rule, ⟨r, hr, rfl⟩, ?_, rfl⟩
    cases i
    simp_all

theorem mem_closure_of_mem_flowClosure {seeds : List (Item × Flow)} {i : Item} {f : Flow}
    (h : (i, f) ∈ g.flowClosure table seeds) : i ∈ g.closure (seeds.map Prod.fst) := by
  rw [mem_closure]
  rcases (g.mem_flowClosure table).mp h with h | ⟨hdot, r, hr, hf⟩
  · exact Or.inl (List.mem_map_of_mem h)
  · refine Or.inr ⟨hdot, r, hr, ?_⟩
    rw [← g.keys_follows table]
    exact List.mem_map.mpr ⟨_, hf, rfl⟩

/-- The rules that may be completed in a state before a terminal. -/
def completable (s : State) (la : List TerminalSet) (t : Terminal) : List Nat :=
  Ordered.ofList ((((g.itemLookaheads table s la).filter fun (i, _) ↦
    (g.afterDot i).isEmpty).filter fun (_, la) ↦ la.contains t).map (·.1.rule))

/-- What is done in a state before a terminal, with the conflicts this settles. -/
def cell (n : Nat) (s : State) (la : List TerminalSet) (t : Terminal) :
    Option Action × List Conflict :=
  if t = .endOfInput && (g.completable table s la t).contains g.acceptRule then
    (some .accept, [])
  else
    g.entry n t (s.target? (.terminal t))
      ((g.completable table s la t).filter (· != g.acceptRule))

theorem fullRow_eq (n : Nat) (s : State) (la : List TerminalSet) :
    g.fullRow table n s la =
      (Terminal.all.filterMap fun t ↦ (g.cell table n s la t).1.map fun a ↦ (t, a),
        Terminal.all.flatMap fun t ↦ (g.cell table n s la t).2) := by
  have hentries : ∀ t : Terminal,
      (if t = .endOfInput && (g.completable table s la t).contains g.acceptRule then
        (t, some Action.accept, ([] : List Conflict))
      else (t, g.entry n t (s.target? (.terminal t))
        ((g.completable table s la t).filter (· != g.acceptRule)))) =
      (t, g.cell table n s la t) := by
    intro t
    unfold cell
    split <;> rfl
  unfold fullRow
  simp only [List.filterMap_map, List.flatMap_map]
  congr 1
  · refine List.filterMap_congr fun t _ ↦ ?_
    exact congrArg (fun x : Terminal × Option Action × List Conflict ↦
      x.2.1.map fun a ↦ (x.1, a)) (hentries t)
  · refine congrArg (fun f ↦ Terminal.all.flatMap f) (funext fun t ↦ ?_)
    exact congrArg (fun x : Terminal × Option Action × List Conflict ↦ x.2.2) (hentries t)

theorem keys_filterMap_sublist (h : Terminal → Option Action) (ts : List Terminal) :
    ((ts.filterMap fun t ↦ (h t).map fun a ↦ (t, a)).map Prod.fst).Sublist ts := by
  induction ts with
  | nil => simp
  | cons t ts ih =>
    cases ha : h t with
    | none => simpa [ha] using ih.cons t
    | some a => simpa [ha] using ih.cons_cons t

theorem lookup_filterMap (h : Terminal → Option Action) {ts : List Terminal} (hn : ts.Nodup)
    {t : Terminal} (ht : t ∈ ts) :
    (ts.filterMap fun t ↦ (h t).map fun a ↦ (t, a)).lookup t = h t := by
  induction ts with
  | nil => simp at ht
  | cons u ts ih =>
    rw [List.nodup_cons] at hn
    by_cases htu : t = u
    · subst htu
      cases ha : h t with
      | some a => simp [ha]
      | none =>
        rw [List.filterMap_cons_none (by simp [ha]), List.lookup_eq_none_iff]
        intro x hx
        refine bne_iff_ne.mpr ?_
        rintro rfl
        exact hn.1 ((keys_filterMap_sublist h ts).subset (List.mem_map_of_mem hx))
    · have htail := ih hn.2 ((List.mem_cons.mp ht).resolve_left htu)
      cases ha : h u with
      | some a => simp [ha, List.lookup_cons, beq_false_of_ne htu, htail]
      | none => simp [ha, htail]

theorem nodup_all : Terminal.all.Nodup := by decide

theorem nodup_keys_fullRow (n : Nat) (s : State) (la : List TerminalSet) :
    ((g.fullRow table n s la).1.map Prod.fst).Nodup := by
  rw [fullRow_eq]
  exact nodup_all.sublist (keys_filterMap_sublist _ _)

theorem lookup_fullRow (n : Nat) (s : State) (la : List TerminalSet) (t : Terminal) :
    (g.fullRow table n s la).1.lookup t = (g.cell table n s la t).1 := by
  rw [fullRow_eq]
  exact lookup_filterMap (fun t ↦ (g.cell table n s la t).1) nodup_all t.mem_all

variable {g table}

theorem mem_completable {s : State} {la : List TerminalSet} {t : Terminal} {k : Nat} :
    k ∈ g.completable table s la t ↔ ∃ d ts, (⟨k, d⟩, ts) ∈ g.itemLookaheads table s la ∧
      g.afterDot ⟨k, d⟩ = [] ∧ t ∈ ts := by
  simp only [completable, Ordered.mem_ofList, List.mem_map, List.mem_filter, Prod.exists,
    List.isEmpty_iff]
  constructor
  · rintro ⟨⟨k, d⟩, ts, ⟨⟨h, hdot⟩, ht⟩, rfl⟩
    exact ⟨d, ts, h, hdot, ht⟩
  · rintro ⟨d, ts, h, hdot, ht⟩
    exact ⟨⟨k, d⟩, ts, ⟨⟨h, hdot⟩, ht⟩, rfl⟩

theorem mem_itemLookaheads {s : State} {la : List TerminalSet} {i : Item} {ts : TerminalSet} :
    (i, ts) ∈ g.itemLookaheads table s la ↔ ∃ f, (i, f) ∈ g.flowClosure table
      ((s.kernel.zip la).map fun (i, s) ↦ (i, .constant s)) ∧ ts = f.generated := by
  simp only [itemLookaheads, List.mem_map, Prod.exists, Prod.mk.injEq]
  constructor
  · rintro ⟨i, f, h, rfl, rfl⟩
    exact ⟨f, h, rfl⟩
  · rintro ⟨f, h, rfl⟩
    exact ⟨i, f, h, rfl, rfl⟩

theorem mem_closure_of_mem_itemLookaheads {s : State} {la : List TerminalSet}
    (hla : la.length = s.kernel.length) {i : Item} {ts : TerminalSet}
    (h : (i, ts) ∈ g.itemLookaheads table s la) : i ∈ g.closure s.kernel := by
  obtain ⟨f, hf, -⟩ := mem_itemLookaheads.mp h
  have hmem := g.mem_closure_of_mem_flowClosure table hf
  rw [List.map_map] at hmem
  change i ∈ g.closure ((s.kernel.zip la).map Prod.fst) at hmem
  rwa [List.map_fst_zip hla.ge] at hmem

theorem isKernel_of_state {n : Nat} {s : State} (h : g.states[n]? = some s) :
    g.IsKernel s.kernel :=
  g.isKernel_of_consistent g.consistent_survey _
    (List.mem_of_getElem? (g.states_getElem?.mp h).1)

/-- Only a rule that has been read to its end is completed. -/
theorem has_of_mem_completable {n : Nat} {s : State} (hs : g.states[n]? = some s)
    {la : List TerminalSet} (hla : la.length = s.kernel.length) {t : Terminal} {k : Nat}
    (h : k ∈ g.completable table s la t) :
    k ≤ g.acceptRule ∧ g.Has n ⟨k, (g.rhs k).length⟩ := by
  obtain ⟨d, ts, hmem, hdot, -⟩ := mem_completable.mp h
  have hclosure := mem_closure_of_mem_itemLookaheads hla hmem
  obtain ⟨hk, hle⟩ := g.mem_items.mp
    (g.closure_subset_items (isKernel_of_state hs).subset hclosure)
  have hge : (g.rhs k).length ≤ d := by simpa [afterDot] using hdot
  obtain rfl : d = (g.rhs k).length := Nat.le_antisymm hle hge
  exact ⟨hk, s, hs, hclosure⟩

/-- What a state lets a machine do before a terminal. -/
def Allows (g : Grammar α) (n : Nat) (t : Terminal) : Action → Prop
  | .shift m => g.Edge n (.terminal t) m
  | .reduce k => ∃ r, g.rules[k]? = some r ∧ g.Has n ⟨k, r.rhs.length⟩
  | .accept => t = .endOfInput ∧ g.Has n ⟨g.acceptRule, 1⟩

theorem entry_cases {n : Nat} {t : Terminal} {shift? : Option Nat} {rules : List Nat} {a : Action}
    (h : (g.entry n t shift? rules).1 = some a) :
    (∃ m, shift? = some m ∧ a = .shift m) ∨ ∃ k ∈ rules, a = .reduce k := by
  unfold entry at h
  split at h
  · obtain ⟨m, hm, rfl⟩ := Option.map_eq_some_iff.mp h
    exact Or.inl ⟨m, hm, rfl⟩
  · rename_i k others
    split at h
    · exact Or.inr ⟨k, List.mem_cons_self .., (Option.some.inj h).symm⟩
    · rename_i m
      split at h
      · exact Or.inr ⟨k, List.mem_cons_self .., (Option.some.inj h).symm⟩
      · exact Or.inl ⟨m, rfl, (Option.some.inj h).symm⟩
      · exact Or.inl ⟨m, rfl, (Option.some.inj h).symm⟩

theorem allows_of_cell {n : Nat} {s : State} (hs : g.states[n]? = some s)
    {la : List TerminalSet} (hla : la.length = s.kernel.length) {t : Terminal} {a : Action}
    (h : (g.cell table n s la t).1 = some a) : g.Allows n t a := by
  unfold cell at h
  split at h
  · rename_i hc
    rw [Bool.and_eq_true, decide_eq_true_eq, List.contains_iff_mem] at hc
    cases Option.some.inj h
    have hhas := (has_of_mem_completable hs hla hc.2).2
    rw [rhs_acceptRule] at hhas
    exact ⟨hc.1, hhas⟩
  · rcases entry_cases h with ⟨m, hm, rfl⟩ | ⟨k, hk, rfl⟩
    · exact ⟨s, hs, hm⟩
    · obtain ⟨hk, hne⟩ := List.mem_filter.mp hk
      obtain ⟨hle, hhas⟩ := has_of_mem_completable hs hla hk
      have hlt : k < g.rules.length := by
        have : k ≠ g.acceptRule := by simpa using hne
        exact lt_of_le_of_ne hle this
      refine ⟨g.rules[k], List.getElem?_eq_getElem hlt, ?_⟩
      rwa [g.rhs_of_getElem? (List.getElem?_eq_getElem hlt)] at hhas

/-! ## The rows of the tables -/

theorem tables_row? {n : Nat} {row : Row} : g.tables.row? n = some row ↔
    ∃ s la, g.states[n]? = some s ∧ g.lookaheads[n]? = some la ∧
      row = Row.ofEntries (g.fullRow g.flows n s la).1 s.edges := by
  simp only [Tables.row?, tables, fullRows, List.getElem?_map, List.getElem?_zip_eq_some,
    Option.map_eq_some_iff, Prod.exists, List.getElem?_zipIdx, lookaheads]
  constructor
  · rintro ⟨_, _, s, ⟨⟨_, _, _, ⟨_, la, ⟨hs, hla⟩, heq⟩, hrow⟩, hs'⟩, rfl⟩
    simp only [Prod.mk.injEq, Nat.zero_add] at heq
    obtain ⟨⟨rfl, rfl⟩, rfl⟩ := heq
    cases Option.some.inj (hs.symm.trans hs')
    exact ⟨s, la, hs, hla, by rw [hrow]⟩
  · rintro ⟨s, la, hs, hla, rfl⟩
    exact ⟨_, _, s, ⟨⟨s, la, n, ⟨s, la, ⟨hs, hla⟩, by simp⟩, rfl⟩, hs⟩, rfl⟩

theorem length_lookahead {n : Nat} {s : State} {la : List TerminalSet}
    (hs : g.states[n]? = some s) (hla : g.lookaheads[n]? = some la) :
    la.length = s.kernel.length := by
  have hfits := g.fits_solveLookaheads g.flows g.states
  have := congrArg (fun l ↦ l[n]?) hfits
  simpa [show (g.solveLookaheads g.flows g.states)[n]? = some la from hla, hs] using this

/-- Each state has a row. -/
theorem exists_row {n : Nat} {s : State} (hs : g.states[n]? = some s) :
    ∃ row, g.tables.row? n = some row := by
  have hlen : (g.solveLookaheads g.flows g.states).length = g.states.length := by
    simpa using congrArg List.length (g.fits_solveLookaheads g.flows g.states)
  have hlt : n < g.lookaheads.length := by
    rw [lookaheads, hlen]
    exact (List.getElem?_eq_some_iff.mp hs).1
  exact ⟨_, tables_row?.mpr ⟨s, _, hs, List.getElem?_eq_getElem hlt, rfl⟩⟩

theorem allows_of_decide {n : Nat} {row : Row} (hrow : g.tables.row? n = some row) {t : Terminal}
    {a : Action} (h : row.decide t = some a) : g.Allows n t a := by
  obtain ⟨s, la, hs, hla, rfl⟩ := tables_row?.mp hrow
  have hlen := length_lookahead hs hla
  rw [Row.decide_ofEntries (g.nodup_keys_fullRow ..), lookup_fullRow] at h
  rcases Option.or_eq_some_iff.mp h with h | ⟨-, h⟩
  · exact allows_of_cell hs hlen h
  · obtain ⟨k, hk, rfl⟩ := Option.map_eq_some_iff.mp h
    obtain ⟨u, hu⟩ := Row.exists_of_defaultOf hk
    rw [fullRow_eq] at hu
    obtain ⟨u, -, hu⟩ := List.mem_filterMap.mp hu
    obtain ⟨a, ha, heq⟩ := Option.map_eq_some_iff.mp hu
    cases heq
    have hallows := allows_of_cell hs hlen ha
    exact hallows

theorem goto?_eq_some_iff {n m t : Nat} {row : Row} (hrow : g.tables.row? n = some row) :
    row.goto? m = some t ↔ g.Edge n (.nonterminal m) t := by
  obtain ⟨s, la, hs, -, rfl⟩ := tables_row?.mp hrow
  rw [Row.goto?_ofEntries]
  constructor
  · exact fun h ↦ ⟨s, hs, h⟩
  · rintro ⟨s', hs', h⟩
    cases Option.some.inj (hs.symm.trans hs')
    exact h

theorem edge_of_errorShift? {n m : Nat} {row : Row} (hrow : g.tables.row? n = some row)
    (h : row.errorShift? = some m) : g.Edge n (.terminal .error) m := by
  unfold Row.errorShift? at h
  split at h
  · rename_i k hk
    cases h
    exact allows_of_decide (a := .shift m) hrow (by simp [Row.decide, hk])
  · cases h

end Grammar

end PlainLedger
