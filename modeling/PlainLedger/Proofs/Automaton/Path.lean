import PlainLedger.Proofs.Automaton.Survey

/-!
# Paths through the automaton

A path spells the symbols of its edges. An item of the state that a path ends in tells which symbols
the path ends with, and that the state before them predicts the item's rule: so a completed rule can
always be taken off the path, and its left-hand side put in its place.
-/

namespace PlainLedger

theorem Survey.lookup_eq_some_iff {kernels : List (List Item)} (hk : kernels.Nodup)
    {successors : List (Symbol × List Item)} {edges : List (Symbol × Nat)}
    (h : Links kernels successors edges) (hs : (successors.map Prod.fst).Nodup) {x : Symbol}
    {t : Nat} : edges.lookup x = some t ↔ ∃ K, (x, K) ∈ successors ∧ kernels[t]? = some K := by
  induction h with
  | nil => simp
  | @cons s e ss es hse _ ih =>
    obtain ⟨y, K₁⟩ := s
    obtain ⟨y', t₁⟩ := e
    obtain ⟨rfl, hK₁⟩ := hse
    rw [List.map_cons, List.nodup_cons] at hs
    by_cases hxy : x = y
    · subst hxy
      rw [List.lookup_cons_self]
      constructor
      · intro ht
        cases ht
        exact ⟨K₁, List.mem_cons_self .., hK₁⟩
      · rintro ⟨K, hK, ht⟩
        rcases List.mem_cons.mp hK with heq | hK
        · cases heq
          have hlt := (List.getElem?_eq_some_iff.mp ht).1
          exact congrArg some ((List.getElem?_inj hlt hk).mp (ht.trans hK₁.symm)).symm
        · exact (hs.1 (List.mem_map.mpr ⟨(x, K), hK, rfl⟩)).elim
    · rw [List.lookup_cons, beq_false_of_ne hxy]
      simp only [List.mem_cons, Prod.mk.injEq, hxy, false_and, false_or]
      exact ih hs.2

namespace Grammar

variable {α : Type} (g : Grammar α)

/-- The state numbered `s` is left over `x` towards the one numbered `t`. -/
def Edge (s : Nat) (x : Symbol) (t : Nat) : Prop :=
  ∃ S, g.states[s]? = some S ∧ S.target? x = some t

/-- The closure of the state numbered `s` holds the item. -/
def Has (s : Nat) (i : Item) : Prop := ∃ S, g.states[s]? = some S ∧ i ∈ g.closure S.kernel

/-- The kernel of the state numbered `s` holds the item. -/
def KernelHas (s : Nat) (i : Item) : Prop := ∃ S, g.states[s]? = some S ∧ i ∈ S.kernel

variable {g}

theorem target?_eq_some_iff {s t : Nat} {S : State} {x : Symbol} (hS : g.states[s]? = some S) :
    S.target? x = some t ↔
      ∃ K, (x, K) ∈ g.successors S.kernel ∧ g.survey.kernels[t]? = some K := by
  have hsurvey := g.consistent_survey
  obtain ⟨hkernel, hedges⟩ := g.states_getElem?.mp hS
  exact Survey.lookup_eq_some_iff hsurvey.nodup (hsurvey.linked s _ _ hkernel hedges)
    (g.nodup_keys_successors S.kernel)

/-- A state can be left by every symbol that stands after a mark. -/
theorem exists_edge {s : Nat} {i : Item} {x : Symbol} (hi : g.Has s i)
    (hx : g.next? i = some x) : ∃ t, g.Edge s x t := by
  obtain ⟨S, hS, hi⟩ := hi
  have hK := g.mem_successors.mpr ⟨⟨i, hi, hx⟩, rfl⟩
  have hkernel := (g.states_getElem?.mp hS).1
  have hlt := (List.getElem?_eq_some_iff.mp hkernel).1
  rw [← length_edges_survey] at hlt
  have hlinks := g.consistent_survey.linked s _ _ hkernel (List.getElem?_eq_getElem hlt)
  obtain ⟨j, hj⟩ := List.mem_iff_getElem?.mp hK
  have hjlt : j < (g.survey.edges[s]).length := by
    rw [← hlinks.length_eq]
    exact (List.getElem?_eq_some_iff.mp hj).1
  have hlink := List.forall₂_iff_get.mp hlinks
  have := hlink.2 j (List.getElem?_eq_some_iff.mp hj).1 hjlt
  simp only [List.get_eq_getElem, (List.getElem?_eq_some_iff.mp hj).2] at this
  exact ⟨_, S, hS, (target?_eq_some_iff hS).mpr ⟨_, hK, this.2⟩⟩

/-- An edge advances the items that go on with its symbol, and its target has no others. -/
theorem kernelHas_iff_of_edge {s t : Nat} {x : Symbol} (h : g.Edge s x t) {j : Item} :
    g.KernelHas t j ↔ ∃ i, g.Has s i ∧ g.next? i = some x ∧ j = i.advance := by
  obtain ⟨S, hS, hx⟩ := h
  obtain ⟨K, hK, ht⟩ := (target?_eq_some_iff hS).mp hx
  obtain ⟨T, hT, hkernel⟩ := g.exists_state_of_kernel ht
  constructor
  · rintro ⟨T', hT', hj⟩
    rw [hT, Option.some.injEq] at hT'
    subst hT'
    rw [hkernel] at hj
    obtain ⟨i, hi, hnext, rfl⟩ := (g.mem_of_mem_successors hK).mp hj
    exact ⟨i, ⟨S, hS, hi⟩, hnext, rfl⟩
  · rintro ⟨i, ⟨S', hS', hi⟩, hnext, rfl⟩
    rw [hS, Option.some.injEq] at hS'
    subst hS'
    refine ⟨T, hT, ?_⟩
    rw [hkernel]
    exact (g.mem_of_mem_successors hK).mpr ⟨i, hi, hnext, rfl⟩

theorem exists_state_of_edge {s t : Nat} {x : Symbol} (h : g.Edge s x t) :
    ∃ T, g.states[t]? = some T := by
  obtain ⟨S, hS, hx⟩ := h
  obtain ⟨K, -, ht⟩ := (target?_eq_some_iff hS).mp hx
  obtain ⟨T, hT, -⟩ := g.exists_state_of_kernel ht
  exact ⟨T, hT⟩

theorem Edge.unique {s t t' : Nat} {x : Symbol} (h : g.Edge s x t) (h' : g.Edge s x t') :
    t = t' := by
  obtain ⟨S, hS, ht⟩ := h
  obtain ⟨S', hS', ht'⟩ := h'
  cases Option.some.inj (hS.symm.trans hS')
  exact Option.some.inj (ht.symm.trans ht')

theorem KernelHas.has {s : Nat} {i : Item} (h : g.KernelHas s i) : g.Has s i := by
  obtain ⟨S, hS, hi⟩ := h
  exact ⟨S, hS, g.subset_closure _ hi⟩

theorem Has.kernelHas {s : Nat} {i : Item} (h : g.Has s i) (hdot : i.dot ≠ 0) :
    g.KernelHas s i := by
  obtain ⟨S, hS, hi⟩ := h
  exact ⟨S, hS, g.mem_kernel_of_mem_closure hi hdot⟩

theorem kernelHas_start_iff {i : Item} : g.KernelHas 0 i ↔ i = g.startItem := by
  obtain ⟨S, hS, hkernel⟩ := g.exists_start_state
  constructor
  · rintro ⟨S', hS', hi⟩
    cases Option.some.inj (hS.symm.trans hS')
    simpa [hkernel] using hi
  · rintro rfl
    exact ⟨S, hS, by simp [hkernel]⟩

/-- No edge leads back to where a text begins. -/
theorem not_edge_start {s : Nat} {x : Symbol} : ¬g.Edge s x 0 := by
  intro h
  obtain ⟨i, -, -, hi⟩ := (kernelHas_iff_of_edge h).mp (kernelHas_start_iff.mpr rfl)
  have : (0 : Nat) = i.dot + 1 := congrArg Item.dot hi
  omega

/-- A state that is entered by an edge has something in its kernel. -/
theorem exists_kernelHas_of_edge {s t : Nat} {x : Symbol} (h : g.Edge s x t) :
    ∃ i, g.Has s i ∧ g.next? i = some x ∧ g.KernelHas t i.advance := by
  obtain ⟨S, hS, hx⟩ := h
  obtain ⟨K, hK, ht⟩ := (target?_eq_some_iff hS).mp hx
  obtain ⟨⟨i, hi, hnext⟩, -⟩ := g.mem_successors.mp hK
  exact ⟨i, ⟨S, hS, hi⟩, hnext,
    (kernelHas_iff_of_edge ⟨S, hS, hx⟩).mpr ⟨i, ⟨S, hS, hi⟩, hnext, rfl⟩⟩

/-- The symbol that leads into a state can be read off its kernel. -/
theorem symbol_eq_of_kernelHas {s t : Nat} {x : Symbol} (h : g.Edge s x t) {j : Item}
    (hj : g.KernelHas t j) : ∃ d, j.dot = d + 1 ∧ (g.rhs j.rule)[d]? = some x := by
  obtain ⟨i, -, hnext, rfl⟩ := (kernelHas_iff_of_edge h).mp hj
  rw [next?_eq_getElem?] at hnext
  exact ⟨i.dot, rfl, hnext⟩

/-- Only where a text begins does a kernel hold an item that nothing has been read of. -/
theorem eq_startItem_of_kernelHas {s : Nat} {i : Item} (h : g.KernelHas s i) (hdot : i.dot = 0) :
    s = 0 ∧ i = g.startItem := by
  obtain ⟨S, hS, hi⟩ := h
  rcases g.consistent_survey.found s _ (g.states_getElem?.mp hS).1 with
    rfl | ⟨m, K, x, -, -, -, hx⟩
  · exact ⟨rfl, kernelHas_start_iff.mp ⟨S, hS, hi⟩⟩
  · obtain ⟨j, -, -, rfl⟩ := (g.mem_of_mem_successors hx).mp hi
    exact (Nat.succ_ne_zero _ hdot).elim

theorem Edge.symbol_unique {s s' t : Nat} {x x' : Symbol} (h : g.Edge s x t)
    (h' : g.Edge s' x' t) : x = x' := by
  obtain ⟨i, -, -, hi⟩ := exists_kernelHas_of_edge h
  obtain ⟨d, hd, hx⟩ := symbol_eq_of_kernelHas h hi
  obtain ⟨d', hd', hx'⟩ := symbol_eq_of_kernelHas h' hi
  cases Nat.succ.inj (hd.symm.trans hd')
  exact Option.some.inj (hx.symm.trans hx')

/-- Where a rule is predicted, its left-hand side can be read. -/
theorem exists_goto {s k : Nat} {r : Rule α} (h : g.Has s ⟨k, 0⟩) (hr : g.rules[k]? = some r) :
    ∃ t, g.Edge s (.nonterminal r.lhs) t := by
  obtain ⟨S, hS, hk⟩ := h
  rcases g.mem_closure.mp hk with hk | ⟨-, r', hr', hlhs⟩
  · obtain ⟨-, heq⟩ := eq_startItem_of_kernelHas ⟨S, hS, hk⟩ rfl
    have hlt := (List.getElem?_eq_some_iff.mp hr).1
    have hrule : k = g.acceptRule := congrArg Item.rule heq
    exact (Nat.lt_irrefl _ (hrule ▸ hlt)).elim
  · cases Option.some.inj (hr.symm.trans hr')
    obtain ⟨i, hi, hnext⟩ := g.exists_next_of_mem_predicted hlhs
    exact exists_edge ⟨S, hS, hi⟩ hnext

theorem eq_zero_of_has_startItem {s : Nat} (h : g.Has s g.startItem) : s = 0 := by
  obtain ⟨S, hS, hi⟩ := h
  rcases g.mem_closure.mp hi with hi | ⟨-, r, hr, -⟩
  · exact (eq_startItem_of_kernelHas ⟨S, hS, hi⟩ rfl).1
  · have hlt := (List.getElem?_eq_some_iff.mp hr).1
    exact (Nat.lt_irrefl _ hlt).elim

variable (g)

/-- The states passed through, the last one first, and the symbols read on the way. -/
inductive Path : List Nat → List Symbol → Prop where
  | start : Path [0] []
  | step {s t : Nat} {ss : List Nat} {x : Symbol} {xs : List Symbol} :
      Path (s :: ss) xs → g.Edge s x t → Path (t :: s :: ss) (x :: xs)

variable {g}

namespace Path

variable {ss : List Nat} {xs : List Symbol}

theorem length_eq (h : g.Path ss xs) : ss.length = xs.length + 1 := by
  induction h with
  | start => rfl
  | step _ _ ih => simp [ih]

theorem ne_nil (h : g.Path ss xs) : ss ≠ [] := by
  cases h <;> exact List.cons_ne_nil _ _

/-- The state that a path ends in is one of the automaton. -/
theorem exists_state {s : Nat} (h : g.Path (s :: ss) xs) : ∃ S, g.states[s]? = some S := by
  cases h with
  | start =>
    obtain ⟨S, hS, -⟩ := g.exists_start_state
    exact ⟨S, hS⟩
  | step _ he => exact exists_state_of_edge he

/-- A path whose last symbols are taken back is a path. -/
theorem drop (h : g.Path ss xs) {d : Nat} (hd : d ≤ xs.length) :
    g.Path (ss.drop d) (xs.drop d) := by
  induction h generalizing d with
  | start =>
    cases Nat.le_zero.mp hd
    exact .start
  | step hp he ih =>
    cases d with
    | zero => exact .step hp he
    | succ d => exact ih (Nat.le_of_succ_le_succ hd)

theorem eq_nil_of_start {s : Nat} (h : g.Path (s :: ss) xs) (hs : s = 0) : ss = [] ∧ xs = [] := by
  subst hs
  cases h with
  | start => exact ⟨rfl, rfl⟩
  | step _ he => exact (not_edge_start he).elim

/-- What an item says has been read is what the path ends with, and the state before that predicts
the item's rule. -/
theorem of_has {s k d : Nat} (h : g.Path (s :: ss) xs) (hi : g.Has s ⟨k, d⟩) :
    d ≤ xs.length ∧ (xs.take d).reverse = (g.rhs k).take d ∧
      ∃ s' rest, (s :: ss).drop d = s' :: rest ∧ g.Has s' ⟨k, 0⟩ := by
  induction d generalizing s ss xs with
  | zero => exact ⟨Nat.zero_le _, by simp, s, ss, rfl, hi⟩
  | succ d ih =>
    have hkernel := hi.kernelHas (Nat.succ_ne_zero d)
    cases h with
    | start =>
      have := congrArg Item.dot (kernelHas_start_iff.mp hkernel)
      exact (Nat.succ_ne_zero d this).elim
    | @step s₁ _ ss x xs hp he =>
      obtain ⟨⟨k', d'⟩, hi', hnext, heq⟩ := (kernelHas_iff_of_edge he).mp hkernel
      simp only [Item.advance, Item.mk.injEq, Nat.add_right_cancel_iff] at heq
      obtain ⟨rfl, rfl⟩ := heq
      obtain ⟨hle, htake, s', rest, hdrop, hhas⟩ := ih hp hi'
      rw [next?_eq_getElem?] at hnext
      refine ⟨by simpa using hle, ?_, s', rest, hdrop, hhas⟩
      rw [List.take_succ_cons, List.reverse_cons, htake, List.take_add_one, hnext]
      rfl

end Path

/-- A completed rule can be taken off a path, and its left-hand side read instead. -/
theorem Path.reduce {s k : Nat} {ss : List Nat} {xs : List Symbol} {r : Rule α}
    (h : g.Path (s :: ss) xs) (hr : g.rules[k]? = some r) (hi : g.Has s ⟨k, r.rhs.length⟩) :
    r.rhs.length ≤ xs.length ∧ (xs.take r.rhs.length).reverse = r.rhs ∧
      ∃ s' rest t, (s :: ss).drop r.rhs.length = s' :: rest ∧ g.Has s' ⟨k, 0⟩ ∧
        g.Edge s' (.nonterminal r.lhs) t := by
  obtain ⟨hle, htake, s', rest, hdrop, hhas⟩ := h.of_has hi
  obtain ⟨t, ht⟩ := exists_goto hhas hr
  rw [g.rhs_of_getElem? hr, List.take_length] at htake
  exact ⟨hle, htake, s', rest, t, hdrop, hhas, ht⟩

/-- When the whole text has been read, the path spells the start symbol. -/
theorem Path.accept {s : Nat} {ss : List Nat} {xs : List Symbol} (h : g.Path (s :: ss) xs)
    (hi : g.Has s ⟨g.acceptRule, 1⟩) : ss = [0] ∧ xs = [.nonterminal g.start] := by
  obtain ⟨hle, htake, s', rest, hdrop, hhas⟩ := h.of_has hi
  have hpath := h.drop hle
  rw [hdrop] at hpath
  have hs' := eq_zero_of_has_startItem hhas
  obtain ⟨hrest, hxs⟩ := hpath.eq_nil_of_start hs'
  rw [rhs_acceptRule] at htake
  cases xs with
  | nil => simp at hle
  | cons x xs =>
    simp only [List.drop_succ_cons, List.drop_zero] at hdrop hxs
    rw [hdrop, hs', hrest, hxs]
    simpa [hxs] using htake

end Grammar

end PlainLedger
