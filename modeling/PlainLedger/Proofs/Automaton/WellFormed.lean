import PlainLedger.Proofs.Automaton.Propagate

/-!
# The automaton is well formed

All loops that make the tables come to an end, whether rules are recursive, empty or circular, and
end with what the tables are made from. No two of the states have the same kernel, each of them is
reached, and a state is left by exactly the symbols at the marks of its items, for the kernel of the
items advanced over the symbol.
-/

namespace PlainLedger

namespace Survey

variable {α : Type} {g : Grammar α} {s : Survey}

theorem next_of_length_le (h : s.kernels.length ≤ s.edges.length) :
    s.next g = .some none := by
  rw [next, List.getElem?_eq_none h]

theorem next_of_getElem? (hg : g.Closed) {kernel : List Item}
    (hkernel : s.kernels[s.edges.length]? = some kernel) :
    s.next g = .some (some ⟨(link s.kernels (g.successors kernel)).1,
      s.edges ++ [(link s.kernels (g.successors kernel)).2]⟩) := by
  obtain ⟨items, hitems, hperm⟩ := Grammar.exists_scan hg kernel
  rw [Grammar.successors_eq_moves, ← Grammar.moves_congr hperm]
  simp [next, hkernel, hitems]

/-- If a bounded survey gets as far as leaving all states, so does one without a bound. -/
theorem exhaust_of_complete (hg : g.Closed) (budget : Nat) {s : Survey}
    (h : (complete g budget s).kernels.length ≤ (complete g budget s).edges.length) :
    exhaust (next g) s = .some (complete g budget s) := by
  induction budget generalizing s with
  | zero => exact exhaust_of_none (next_of_length_le h)
  | succ budget ih =>
    rw [complete] at h ⊢
    cases hkernel : s.kernels[s.edges.length]? with
    | none => exact exhaust_of_none (next_of_length_le (List.getElem?_eq_none_iff.mp hkernel))
    | some kernel =>
      rw [hkernel] at h
      rw [exhaust_of_some (next_of_getElem? hg hkernel)]
      exact ih h

theorem Links.map_fst {kernels : List (List Item)} {successors : List (Symbol × List Item)}
    {edges : List (Symbol × Nat)} (h : Links kernels successors edges) :
    edges.map Prod.fst = successors.map Prod.fst := by
  induction h with
  | nil => rfl
  | cons hedge _ ih => rw [List.map_cons, List.map_cons, ih, hedge.1]

end Survey

namespace Grammar

variable {α : Type} (g : Grammar α)

theorem explore_eq {g : Grammar α} (hg : g.Closed) : g.explore = .some g.survey :=
  Survey.exhaust_of_complete hg _ g.length_edges_survey.ge

/-- The loops that make the tables end with what the tables are made from. -/
structure LoopsEnd (g : Grammar α) : Prop where
  flows : g.sweeps = .some g.flows
  items (kernel : List Item) :
    ∃ items, g.scan kernel = .some items ∧ items.Perm (g.closure kernel)
  itemFlows (seeds : List (Item × Flow)) (hproper : ∀ x ∈ seeds, x.2.Proper) :
    ∃ items, g.spread g.flows seeds = .some items ∧
      (Spread.Distinct g seeds → ∀ x, x ∈ items ↔ x ∈ g.flowClosure g.flows seeds)
  survey : g.explore = .some g.survey
  lookaheads : g.propagate g.flows g.states = .some g.lookaheads

/-- The states are different, and their edges are those that the items ask for. -/
structure WellFormed (g : Grammar α) : Prop where
  different : (g.states.map State.kernel).Nodup
  ascending (s : State) (hs : s ∈ g.states) : s.kernel.Pairwise (· < ·)
  reached (n : Nat) (hn : n < g.states.length) :
    Relation.ReflTransGen (fun m n ↦ ∃ x, g.Edge m x n) 0 n
  symbols (s : State) (hs : s ∈ g.states) : (s.edges.map Prod.fst).Pairwise (· < ·)
  leaves (s : State) (hs : s ∈ g.states) (x : Symbol) :
    (∃ t, s.target? x = some t) ↔ ∃ i ∈ g.closure s.kernel, g.next? i = some x
  target (s : State) (hs : s ∈ g.states) (x : Symbol) (t : Nat) (ht : s.target? x = some t) :
    ∃ s', g.states[t]? = some s' ∧
      ∀ j, j ∈ s'.kernel ↔ ∃ i ∈ g.closure s.kernel, g.next? i = some x ∧ j = i.advance

theorem loopsEnd {g : Grammar α} (hg : g.Closed) : g.LoopsEnd where
  flows := sweeps_eq hg
  items := exists_scan hg
  itemFlows seeds hproper := by
    by_cases hseeds : Spread.Distinct g seeds
    · obtain ⟨items, hitems, hmem⟩ := exists_spread_mem_iff hg g.proper_flows hproper hseeds
      exact ⟨items, hitems, fun _ ↦ hmem⟩
    · obtain ⟨items, hitems⟩ := exists_spread (g := g) g.proper_flows hproper
      exact ⟨items, hitems, fun h ↦ (hseeds h).elim⟩
  survey := explore_eq hg
  lookaheads := propagate_eq hg

variable {g}

theorem map_kernel_states (g : Grammar α) : g.states.map State.kernel = g.survey.kernels := by
  rw [states, List.map_map]
  exact List.map_fst_zip g.length_edges_survey.ge

theorem Path.reaches {n : Nat} {ss : List Nat} {xs : List Symbol} (h : g.Path (n :: ss) xs) :
    Relation.ReflTransGen (fun m n ↦ ∃ x, g.Edge m x n) 0 n := by
  generalize hss : n :: ss = path at h
  induction h generalizing n ss with
  | start =>
    cases hss
    exact .refl
  | step _ he ih =>
    cases hss
    exact (ih rfl).tail ⟨_, he⟩

theorem wellFormed (g : Grammar α) : g.WellFormed where
  different := by
    rw [map_kernel_states]
    exact g.consistent_survey.nodup
  ascending s hs := by
    obtain ⟨n, hn⟩ := List.mem_iff_getElem?.mp hs
    exact (isKernel_of_state hn).ascending
  reached n hn := by
    obtain ⟨ss, xs, hpath⟩ := exists_path (List.getElem?_eq_getElem hn)
    exact hpath.reaches
  symbols s hs := by
    obtain ⟨n, hn⟩ := List.mem_iff_getElem?.mp hs
    obtain ⟨hkernel, hedges⟩ := g.states_getElem?.mp hn
    rw [(g.consistent_survey.linked n _ _ hkernel hedges).map_fst]
    exact g.ascending_keys_successors s.kernel
  leaves s hs x := by
    obtain ⟨n, hn⟩ := List.mem_iff_getElem?.mp hs
    constructor
    · rintro ⟨t, ht⟩
      obtain ⟨K, hK, -⟩ := (target?_eq_some_iff hn).mp ht
      exact (g.mem_successors.mp hK).1
    · rintro ⟨i, hi, hnext⟩
      obtain ⟨t, S, hS, ht⟩ := exists_edge ⟨s, hn, hi⟩ hnext
      cases Option.some.inj (hn.symm.trans hS)
      exact ⟨t, ht⟩
  target s hs x t ht := by
    obtain ⟨n, hn⟩ := List.mem_iff_getElem?.mp hs
    obtain ⟨K, hK, hkernel⟩ := (target?_eq_some_iff hn).mp ht
    obtain ⟨s', hs', rfl⟩ := g.exists_state_of_kernel hkernel
    exact ⟨s', hs', fun j ↦ g.mem_of_mem_successors hK⟩

/-- Whatever the rules of a grammar, the loops that make its tables come to an end, and the states
are different, reached, and left by just the symbols that their items ask for. -/
theorem automaton_wellFormed (hg : g.Closed) : g.LoopsEnd ∧ g.WellFormed :=
  ⟨loopsEnd hg, wellFormed g⟩

theorem automaton_wellFormed_nested : nested.Closed ∧ nested.LoopsEnd ∧ nested.WellFormed := by
  have hclosed : nested.Closed := by decide
  exact ⟨hclosed, automaton_wellFormed hclosed⟩

end Grammar

end PlainLedger
