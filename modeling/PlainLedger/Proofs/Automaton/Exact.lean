import PlainLedger.Proofs.Automaton.Follow
import PlainLedger.Proofs.Grammar.First

/-!
# Lookaheads are exact

The flows of the nonterminals and the lookaheads of the kernels have room for all that may follow.
Where every nonterminal stands for some text they hold nothing else: what a flow generates can be
derived, what is among the lookaheads of a kernel item may follow it, and both are kept by every
round of the computation.
-/

namespace PlainLedger.Grammar

variable {α : Type} {g : Grammar α}

/-! ## What a text may begin with -/

/-- A text that begins with the terminal can be derived. -/
def Begins (g : Grammar α) (xs : List Symbol) (t : Terminal) : Prop :=
  ∃ ts : List Terminal, g.Derives xs ((t :: ts).map .terminal)

/-- What the flow says about the symbols can be derived from them. -/
structure Derivable (g : Grammar α) (xs : List Symbol) (f : Flow) : Prop where
  begins : ∀ t ∈ f.generated, g.Begins xs t
  vanishes : f.passes = true → g.Derives xs []

/-- Nothing but declared nonterminals comes from declared ones. -/
theorem Derives.declared (hg : g.Closed) {xs ys : List Symbol} (h : g.Derives xs ys)
    (hxs : ∀ n, .nonterminal n ∈ xs → n < g.names.length) :
    ∀ n, .nonterminal n ∈ ys → n < g.names.length := by
  induction h with
  | refl => exact hxs
  | tail _ hstep ih =>
    cases hstep with
    | rule hk us vs =>
      intro n hn
      rcases List.mem_append.mp hn with hn | hn
      · rcases List.mem_append.mp hn with hn | hn
        · exact ih n (List.mem_append_left _ hn)
        · exact (hg _ (List.mem_of_getElem? hk)).2 n hn
      · exact ih n (List.mem_append_right _ (List.mem_cons_of_mem _ hn))

/-- Declared nonterminals have a text of terminals. -/
theorem Productive.exists_derives (hproductive : g.Productive) {xs : List Symbol}
    (hxs : ∀ n, .nonterminal n ∈ xs → n < g.names.length) :
    ∃ ts : List Terminal, g.Derives xs (ts.map .terminal) := by
  obtain ⟨f⟩ := hproductive.nonempty_forest hxs
  refine ⟨f.leaves.map Leaf.terminal, ?_⟩
  rw [List.map_map]
  exact f.derives

/-- What comes after the first terminal can be derived further until only terminals are left. -/
theorem Opens.begins (hg : g.Closed) (hproductive : g.Productive) {xs : List Symbol}
    (hxs : ∀ n, .nonterminal n ∈ xs → n < g.names.length) {t : Terminal} (h : g.Opens xs t) :
    g.Begins xs t := by
  obtain ⟨ys, hys⟩ := h
  have hdeclared := hys.declared hg hxs
  obtain ⟨ts, hts⟩ := hproductive.exists_derives fun n hn ↦ hdeclared n (List.mem_cons_of_mem _ hn)
  have hrest := hts.append [.terminal t] []
  simp only [List.append_nil, List.singleton_append] at hrest
  exact ⟨ts, hys.trans hrest⟩

theorem derivable_ofSymbols (hg : g.Closed) (hproductive : g.Productive) {xs : List Symbol}
    (hxs : ∀ n, .nonterminal n ∈ xs → n < g.names.length) :
    g.Derivable xs (g.flows.ofSymbols xs) where
  begins t ht := Opens.begins hg hproductive hxs ((supports_flows.ofSymbols xs).opens t ht)
  vanishes := (supports_flows.ofSymbols xs).vanishes

/-- The flow of the symbols, applied to what follows them, is what can stand first. -/
theorem mem_apply_singleton_iff (hg : g.Closed) (hproductive : g.Productive) {xs : List Symbol}
    (hxs : ∀ n, .nonterminal n ∈ xs → n < g.names.length) {t u : Terminal} :
    u ∈ (g.flows.ofSymbols xs).apply (.singleton t) ↔ g.Begins (xs ++ [.terminal t]) u := by
  have hflow : u ∈ (g.flows.ofSymbols xs).apply (.singleton t) ↔
      u ∈ (g.flows.ofSymbols (xs ++ [.terminal t])).generated := by
    rw [FlowTable.ofSymbols_append, FlowTable.ofSymbols_singleton, Flow.mem_apply,
      Flow.mem_generated_andThen]
    rfl
  rw [hflow]
  constructor
  · refine (derivable_ofSymbols hg hproductive fun n hn ↦ hxs n ?_).begins u
    simpa using hn
  · rintro ⟨ts, hts⟩
    exact mem_generated_of_opens (Draft.solves_flows hg) ⟨_, hts⟩

/-! ## Something follows everywhere -/

/-- Every state is reached. -/
theorem exists_path {n : Nat} {s : State} (hs : g.states[n]? = some s) :
    ∃ ss xs, g.Path (n :: ss) xs := by
  induction n using Nat.strong_induction_on generalizing s with
  | _ n ih =>
    rcases g.consistent_survey.found n _ (g.states_getElem?.mp hs).1 with
      rfl | ⟨m, K, x, hlt, -, hK, hx⟩
    · exact ⟨[], [], .start⟩
    · obtain ⟨s', hs', rfl⟩ := g.exists_state_of_kernel hK
      obtain ⟨ss, xs, hpath⟩ := ih m hlt hs'
      have htarget := (target?_eq_some_iff hs').mpr ⟨_, hx, (g.states_getElem?.mp hs).1⟩
      exact ⟨m :: ss, x :: xs, .step hpath ⟨s', hs', htarget⟩⟩

theorem Has.exists_mayFollow (hg : g.Closed) (hproductive : g.Productive) {n : Nat} {i : Item}
    (hi : g.Has n i) : ∃ t, g.MayFollow n i t := by
  obtain ⟨s, hs, -⟩ := id hi
  obtain ⟨ss, xs, hpath⟩ := exists_path hs
  obtain ⟨t, ht⟩ := hpath.exists_follows hg hproductive hi
  exact ⟨t, ht.mayFollow⟩

/-- Where something stands before a flow, what the flow makes of all of it comes from one of the
terminals. -/
theorem exists_mem_apply_singleton {f : Flow} {s : TerminalSet} {P : Terminal → Prop}
    (hs : ∀ t ∈ s, P t) (hP : ∃ t, P t) {u : Terminal} (hu : u ∈ f.apply s) :
    ∃ t, P t ∧ u ∈ f.apply (.singleton t) := by
  rcases Flow.mem_apply.mp hu with hu | ⟨hp, hu⟩
  · obtain ⟨t, ht⟩ := hP
    exact ⟨t, ht, Flow.mem_apply.mpr (Or.inl hu)⟩
  · exact ⟨u, hs u hu, Flow.mem_apply.mpr (Or.inr ⟨hp, TerminalSet.mem_singleton.mpr rfl⟩)⟩

/-! ## Within a state -/

/-- Where the nonterminal is predicted in the state, the terminal may come after it. -/
def MayComeAfter (g : Grammar α) (n m : Nat) (t : Terminal) : Prop :=
  ∃ i u rest, g.MayFollow n i u ∧ g.afterDot i = .nonterminal m :: rest ∧
    t ∈ (g.flows.ofSymbols rest).apply (.singleton u)

theorem MayComeAfter.predict {n k : Nat} {r : Rule α} {t : Terminal}
    (h : g.MayComeAfter n r.lhs t) (hr : g.rules[k]? = some r) : g.MayFollow n ⟨k, 0⟩ t := by
  obtain ⟨i, u, rest, hi, hdot, ht⟩ := h
  exact .predict hi hdot hr ht

section Kernel

variable {n : Nat} {i : Item} {s : TerminalSet}

/-- One prediction more keeps to what may come after the nonterminals. -/
theorem mayComeAfter_of_prediction (hg : g.Closed) (hproductive : g.Productive)
    (hi : g.KernelHas n i) {fs : List (Nat × Flow)}
    (hfs : ∀ x ∈ fs, ∀ t ∈ x.2.apply s, g.MayComeAfter n x.1 t) {p : Prediction}
    (hp : p ∈ g.predictions g.flows (g.predicted [i])) {t : Terminal}
    (ht : t ∈ (p.flow.andThen ((fs.lookup p.source).getD .never)).apply s) :
    g.MayComeAfter n p.target t := by
  obtain ⟨k, r, rest, hr, hlhs, hrhs, hsource, hflow⟩ := mem_predictions.mp hp
  obtain ⟨S, hS, hmem⟩ := hi
  have hsub : g.predicted [i] ⊆ g.predicted S.kernel :=
    predicted_mono hg (by simpa using hmem)
  have hhas : g.Has n ⟨k, 0⟩ := ⟨S, hS, g.mem_closure.mpr (Or.inr ⟨rfl, r, hr, hsub hlhs⟩)⟩
  have hsourced : ∀ v ∈ ((fs.lookup p.source).getD .never).apply s, g.MayFollow n ⟨k, 0⟩ v := by
    intro v hv
    cases hlookup : fs.lookup p.source with
    | none => simp [hlookup, Flow.mem_apply, Flow.never] at hv
    | some f =>
      obtain ⟨l₁, l₂, rfl, -⟩ := List.lookup_eq_some_iff.mp hlookup
      rw [hlookup, Option.getD_some] at hv
      have hafter := hfs (p.source, f) (by simp) v hv
      rw [hsource] at hafter
      exact hafter.predict hr
  rw [Flow.mem_apply_andThen, hflow] at ht
  obtain ⟨v, hv, ht⟩ :=
    exists_mem_apply_singleton hsourced (hhas.exists_mayFollow hg hproductive) ht
  exact ⟨⟨k, 0⟩, v, rest, hv, by rw [afterDot_zero hr, hrhs], ht⟩

/-- What a kernel item says may come after a nonterminal does so. -/
theorem mayComeAfter_of_mem_follows (hg : g.Closed) (hproductive : g.Productive)
    (hi : g.KernelHas n i) (hs : ∀ t ∈ s, g.MayFollow n i t) {m : Nat} {f : Flow}
    (hf : (m, f) ∈ g.follows g.flows [(i, .through)]) {t : Terminal} (ht : t ∈ f.apply s) :
    g.MayComeAfter n m t := by
  suffices h : ∀ x ∈ g.follows g.flows [(i, .through)], ∀ t ∈ x.2.apply s,
      g.MayComeAfter n x.1 t from h _ hf t ht
  have hjoin : ∀ (m : Nat) (f f' : Flow), (∀ t ∈ f.apply s, g.MayComeAfter n m t) →
      (∀ t ∈ f'.apply s, g.MayComeAfter n m t) →
      ∀ t ∈ (f.join f').apply s, g.MayComeAfter n m t := by
    intro m f f' h h' t ht
    have hf := h t
    have hf' := h' t
    simp only [Flow.mem_apply, Flow.mem_generated_join, Flow.passes_join, Bool.or_eq_true]
      at ht hf hf'
    tauto
  refine settle_induction (P := fun fs : List (Nat × Flow) ↦
    ∀ x ∈ fs, ∀ t ∈ x.2.apply s, g.MayComeAfter n x.1 t) ?_ _ ?_
  · intro fs hfs x hx
    rw [followStep_eq] at hx
    obtain ⟨y, hy, rfl⟩ := List.mem_map.mp hx
    refine Flow.foldl_join_induction _ _ (hjoin y.1) (hfs y hy) fun p hp t ht ↦ ?_
    obtain ⟨hp, htarget⟩ := List.mem_filter.mp hp
    rw [← of_decide_eq_true htarget]
    exact mayComeAfter_of_prediction hg hproductive hi hfs hp ht
  · intro x hx
    obtain ⟨m, -, rfl⟩ := List.mem_map.mp hx
    rw [seedFlow_eq]
    refine Flow.foldl_join_induction _ _ (hjoin m) ?_ fun f hf t ht ↦ ?_
    · intro t ht
      simp [Flow.mem_apply, Flow.never] at ht
    · obtain ⟨x, hx, hpart⟩ := List.mem_filterMap.mp hf
      obtain ⟨rest, hdot, rfl⟩ := seedPart_eq_some.mp hpart
      rw [List.mem_singleton.mp hx] at hdot ht
      have hthrough : ∀ v ∈ Flow.through.apply s, g.MayFollow n i v := by
        intro v hv
        simp only [Flow.mem_apply, Flow.through, TerminalSet.not_mem_empty, true_and,
          false_or] at hv
        exact hs v hv
      rw [Flow.mem_apply_andThen] at ht
      obtain ⟨v, hv, ht⟩ :=
        exists_mem_apply_singleton hthrough (hi.has.exists_mayFollow hg hproductive) ht
      exact ⟨i, v, rest, hv, hdot, ht⟩

/-- What a kernel item says may follow an item of the state does so. -/
theorem mayFollow_of_mem_flowClosure (hg : g.Closed) (hproductive : g.Productive)
    (hi : g.KernelHas n i) (hs : ∀ t ∈ s, g.MayFollow n i t) {j : Item} {f : Flow}
    (hj : (j, f) ∈ g.flowClosure g.flows [(i, .through)]) {t : Terminal} (ht : t ∈ f.apply s) :
    g.MayFollow n j t := by
  rcases (g.mem_flowClosure g.flows).mp hj with hj | ⟨hdot, r, hr, hf⟩
  · cases List.mem_singleton.mp hj
    refine hs t ?_
    simpa [Flow.mem_apply, Flow.through] using ht
  · obtain ⟨k, d⟩ := j
    subst hdot
    exact (mayComeAfter_of_mem_follows hg hproductive hi hs hf ht).predict hr

end Kernel

/-! ## Between states -/

/-- What a round adds to the lookaheads has come along an edge. -/
theorem mem_get_collect {ws : List (List (List Inflow))} {l : Lookaheads} {n k : Nat}
    {t : Terminal} (ht : t ∈ (Lookaheads.collect ws l).get n k) :
    t ∈ l.get n k ∨ ∃ row cell, ws[n]? = some row ∧ row[k]? = some cell ∧
      ∃ w ∈ cell, t ∈ w.flow.apply (l.get w.state w.place) := by
  unfold Lookaheads.get Lookaheads.collect at ht
  simp only [List.getD_eq_getElem?_getD, List.getElem?_zipWith] at ht
  cases hn : l[n]? with
  | none => simp [hn] at ht
  | some row =>
    cases hws : ws[n]? with
    | none => simp [hn, hws] at ht
    | some cells =>
      simp only [hn, hws, Option.getD_some, List.getElem?_zipWith] at ht
      cases hk : row[k]? with
      | none => simp [hk] at ht
      | some s =>
        cases hcell : cells[k]? with
        | none => simp [hk, hcell] at ht
        | some cell =>
          simp only [hk, hcell, Option.getD_some] at ht
          rw [Lookaheads.get_eq hn hk]
          exact (Lookaheads.mem_absorb.mp ht).imp_right fun h ↦ ⟨cells, cell, rfl, hcell, h⟩

/-- Lookaheads that may follow the kernel items they belong to. -/
def Warranted (g : Grammar α) (l : Lookaheads) : Prop :=
  ∀ (n k : Nat) (s : State) (i : Item), g.states[n]? = some s → s.kernel[k]? = some i →
    ∀ t ∈ l.get n k, g.MayFollow n i t

theorem Warranted.collect (hg : g.Closed) (hproductive : g.Productive) {l : Lookaheads}
    (hl : g.Warranted l) : g.Warranted (Lookaheads.collect (g.inflows g.flows g.states) l) := by
  intro n k s i hs hi t ht
  rcases mem_get_collect ht with ht | ⟨row, cell, hrow, hcell, ⟨m, p, f⟩, hw, ht⟩
  · exact hl n k s i hs hi t ht
  · obtain ⟨s', j, hs', hj, hout⟩ := mem_ways.mp (mem_ways_of_mem_inflows hrow hcell hw)
    obtain ⟨i', x, S, hi', hnext, htarget, hS, hplace⟩ := of_mem_outflows hout
    cases Option.some.inj (hs.symm.trans hS)
    cases Option.some.inj (hi.symm.trans hplace)
    have hkernel : g.KernelHas m j := ⟨s', hs', List.mem_of_getElem? hj⟩
    exact .advance (mayFollow_of_mem_flowClosure hg hproductive hkernel (hl m p s' j hs' hj) hi' ht)
      hnext ⟨s', hs', htarget⟩

theorem warranted_initial : g.Warranted (Lookaheads.initial g.states) := by
  intro n k s i hs hi t ht
  obtain ⟨rfl, rfl, rfl⟩ := of_mem_get_initial ht
  obtain rfl := kernelHas_start_iff.mp ⟨s, hs, List.mem_of_getElem? hi⟩
  exact .start

/-- The lookaheads of a kernel item may follow it. -/
theorem warranted_lookaheads (hg : g.Closed) (hproductive : g.Productive) :
    g.Warranted g.lookaheads :=
  settle_induction (fun _ h ↦ h.collect hg hproductive) _ warranted_initial

/-- The lookaheads of a kernel item are what may follow it. -/
theorem mem_lookaheads_iff (hg : g.Closed) (hproductive : g.Productive) {n k : Nat} {s : State}
    {i : Item} (hs : g.states[n]? = some s) (hi : s.kernel[k]? = some i) {t : Terminal} :
    t ∈ g.lookaheads.get n k ↔ g.MayFollow n i t := by
  refine ⟨warranted_lookaheads hg hproductive n k s i hs hi t, fun ht ↦ ?_⟩
  obtain ⟨s', k', j, f, hs', hj, hf, ht⟩ := ht.reached hg
  cases Option.some.inj (hs.symm.trans hs')
  rcases (g.mem_flowClosure g.flows).mp hf with hf | ⟨hdot, r, hr, -⟩
  · cases List.mem_singleton.mp hf
    have hnodup : s.kernel.Nodup := (isKernel_of_state hs).ascending.nodup
    obtain rfl : k = k' :=
      (List.getElem?_inj (List.getElem?_eq_some_iff.mp hi).1 hnodup).mp (hi.trans hj.symm)
    simpa [Flow.mem_apply, Flow.through] using ht
  · -- the rule of a kernel item that nothing has been read of is no rule of the grammar
    obtain ⟨-, rfl⟩ := eq_startItem_of_kernelHas ⟨s, hs, List.mem_of_getElem? hi⟩ hdot
    exact ((List.getElem?_eq_some_iff.mp hr).1.ne rfl).elim

end PlainLedger.Grammar
