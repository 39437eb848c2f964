import PlainLedger.Proofs.Automaton.Exact

/-!
# Canonical sets of items

A canonical set holds the items that a text read so far may stand at, each with the terminals that
may follow it after just that text. The states of the automaton do not tell texts apart that stand
at the same items, so that one state takes the place of several canonical sets. Its lookaheads are
those of all of them together: each canonical set is what follows along some path, and each path
makes one.
-/

namespace PlainLedger.Grammar

variable {α : Type}

section Definitions

variable (g : Grammar α)

/-- The members of the set and what they predict: a rule of the nonterminal after a mark, before
whatever the rest of the predicting item and its terminal may begin with. -/
inductive Closes (I : Set (Item × Terminal)) : Item → Terminal → Prop where
  | mem {i : Item} {t : Terminal} (h : (i, t) ∈ I) : Closes I i t
  | predict {k : Nat} {i : Item} {t u : Terminal} {p : Rule α} {rest : List Symbol}
      (h : Closes I i t) (hdot : g.afterDot i = .nonterminal p.lhs :: rest)
      (hrule : g.rules[k]? = some p) (hu : g.Begins (rest ++ [.terminal t]) u) : Closes I ⟨k, 0⟩ u

/-- The items of the set that go on with the symbol, advanced over it. -/
def goto (I : Set (Item × Terminal)) (x : Symbol) : Set (Item × Terminal) :=
  {y | ∃ i, (i, y.2) ∈ I ∧ g.next? i = some x ∧ y.1 = i.advance}

/-- The sets reached from the whole text before the end of the input. -/
inductive Canonical : Set (Item × Terminal) → Prop where
  | start : Canonical {y | g.Closes {(g.startItem, .endOfInput)} y.1 y.2}
  | goto {I : Set (Item × Terminal)} {x : Symbol} (h : Canonical I) (hx : (g.goto I x).Nonempty) :
      Canonical {y | g.Closes (g.goto I x) y.1 y.2}

/-- The items of the set that something has been read of, or that nothing predicts. -/
def core (I : Set (Item × Terminal)) : Set Item :=
  {i | (i.dot ≠ 0 ∨ i = g.startItem) ∧ ∃ t, (i, t) ∈ I}

/-- What follows along a path. -/
def along (ss : List Nat) : Set (Item × Terminal) := {y | g.Follows ss y.1 y.2}

end Definitions

variable {g : Grammar α} {n m : Nat} {ss : List Nat} {xs : List Symbol} {i : Item} {t u : Terminal}

theorem mem_apply_rest_iff (hg : g.Closed) (hproductive : g.Productive) {x : Symbol}
    {rest : List Symbol} (hdot : g.afterDot i = x :: rest) :
    u ∈ (g.flows.ofSymbols rest).apply (.singleton t) ↔ g.Begins (rest ++ [.terminal t]) u := by
  refine mem_apply_singleton_iff hg hproductive fun n hn ↦ lt_of_mem_rhs hg (k := i.rule) ?_
  have hmem : .nonterminal n ∈ g.afterDot i := hdot ▸ List.mem_cons_of_mem x hn
  exact (List.drop_sublist _ _).subset hmem

/-! ## Paths and canonical sets -/

theorem closes_start_iff (hg : g.Closed) (hproductive : g.Productive) :
    g.Closes {(g.startItem, .endOfInput)} i t ↔ g.Follows [0] i t := by
  constructor
  · intro h
    induction h with
    | mem h =>
      cases h
      exact .start
    | predict _ hdot hrule hu ih =>
      exact ih.predict hdot hrule ((mem_apply_rest_iff hg hproductive hdot).mpr hu)
  · intro h
    generalize hss : [0] = ss at h
    induction h with
    | start => exact .mem rfl
    | predict _ hdot hrule hu ih =>
      exact (ih hss).predict hdot hrule ((mem_apply_rest_iff hg hproductive hdot).mp hu)
    | advance => cases hss

theorem closes_goto_iff (hg : g.Closed) (hproductive : g.Productive) {x : Symbol}
    (he : g.Edge n x m) :
    g.Closes (g.goto (g.along (n :: ss)) x) i t ↔ g.Follows (m :: n :: ss) i t := by
  constructor
  · intro h
    induction h with
    | mem h =>
      obtain ⟨j, hj, hnext, rfl⟩ := h
      exact .advance hj hnext he
    | predict _ hdot hrule hu ih =>
      exact ih.predict hdot hrule ((mem_apply_rest_iff hg hproductive hdot).mpr hu)
  · intro h
    generalize hpath : m :: n :: ss = ns at h
    induction h with
    | start => cases hpath
    | predict _ hdot hrule hu ih =>
      exact (ih hpath).predict hdot hrule ((mem_apply_rest_iff hg hproductive hdot).mp hu)
    | advance h hnext he' =>
      cases hpath
      cases he.symbol_unique he'
      exact .mem ⟨_, h, hnext, rfl⟩

/-- What follows along a path is a canonical set. -/
theorem Path.canonical (hg : g.Closed) (hproductive : g.Productive) (h : g.Path ss xs) :
    g.Canonical (g.along ss) := by
  induction h with
  | start =>
    have hstart := Canonical.start (g := g)
    simp only [closes_start_iff hg hproductive] at hstart
    exact hstart
  | @step n m ss x xs hpath he ih =>
    obtain ⟨j, hj, hnext, -⟩ := exists_kernelHas_of_edge he
    obtain ⟨t, ht⟩ := hpath.exists_follows hg hproductive hj
    have hgoto := ih.goto (x := x) ⟨(j.advance, t), j, ht, hnext, rfl⟩
    simp only [closes_goto_iff hg hproductive he] at hgoto
    exact hgoto

/-- Each canonical set is what follows along a path. -/
theorem Canonical.exists_path (hg : g.Closed) (hproductive : g.Productive)
    {I : Set (Item × Terminal)} (h : g.Canonical I) :
    ∃ n ss xs, g.Path (n :: ss) xs ∧ I = g.along (n :: ss) := by
  induction h with
  | start =>
    refine ⟨0, [], [], .start, ?_⟩
    simp only [closes_start_iff hg hproductive]
    rfl
  | @goto I x _ hx ih =>
    obtain ⟨n, ss, xs, hpath, rfl⟩ := ih
    obtain ⟨⟨j, t⟩, i, hi, hnext, -⟩ := hx
    obtain ⟨m, he⟩ := exists_edge (Follows.mayFollow hi |>.has hg) hnext
    refine ⟨m, n :: ss, x :: xs, .step hpath he, ?_⟩
    simp only [closes_goto_iff hg hproductive he]
    rfl

theorem Follows.exists_path (h : g.Follows ss i t) : ∃ xs, g.Path ss xs := by
  induction h with
  | start => exact ⟨[], .start⟩
  | predict _ _ _ _ ih => exact ih
  | advance _ _ he ih =>
    obtain ⟨xs, hpath⟩ := ih
    exact ⟨_, .step hpath he⟩

/-- What may follow in a state does so along one of the paths that end there. -/
theorem MayFollow.exists_follows (h : g.MayFollow n i t) : ∃ ss, g.Follows (n :: ss) i t := by
  induction h with
  | start => exact ⟨[], .start⟩
  | predict _ hdot hrule hu ih =>
    obtain ⟨ss, hss⟩ := ih
    exact ⟨ss, hss.predict hdot hrule hu⟩
  | advance _ hnext he ih =>
    obtain ⟨ss, hss⟩ := ih
    exact ⟨_, hss.advance hnext he⟩

/-! ## Kernels -/

/-- The core of a path is the kernel of the state that it ends in. -/
theorem Path.mem_core_iff (hg : g.Closed) (hproductive : g.Productive) (h : g.Path (n :: ss) xs) :
    i ∈ g.core (g.along (n :: ss)) ↔ g.KernelHas n i := by
  constructor
  · rintro ⟨hdot | rfl, t, ht⟩
    · exact (ht.mayFollow.has hg).kernelHas hdot
    · obtain rfl := eq_zero_of_has_startItem (ht.mayFollow.has hg)
      exact kernelHas_start_iff.mpr rfl
  · intro hi
    refine ⟨?_, h.exists_follows hg hproductive hi.has⟩
    by_cases hdot : i.dot = 0
    · exact Or.inr (eq_startItem_of_kernelHas hi hdot).2
    · exact Or.inl hdot

/-- States with the same kernel items are one state. -/
theorem eq_of_kernelHas_iff {s : State} (hs : g.states[n]? = some s)
    {s' : State} (hs' : g.states[m]? = some s') (h : ∀ i, i ∈ s.kernel ↔ i ∈ s'.kernel) :
    n = m := by
  have hkernel : s.kernel = s'.kernel :=
    (isKernel_of_state hs).ascending.eq_of_mem_iff (isKernel_of_state hs').ascending h
  have hn := (g.states_getElem?.mp hs).1
  have hm := (g.states_getElem?.mp hs').1
  rw [← hkernel, ← hn] at hm
  exact (List.getElem?_inj (List.getElem?_eq_some_iff.mp hn).1 g.consistent_survey.nodup).mp hm.symm

/-- The lookaheads of a kernel item are the terminals it has in the canonical sets that have the
kernel of its state as their core. -/
theorem mem_lookaheads_iff_canonical (hg : g.Closed) (hproductive : g.Productive) {k : Nat}
    {s : State} (hs : g.states[n]? = some s) (hi : s.kernel[k]? = some i) :
    t ∈ g.lookaheads.get n k ↔
      ∃ I, g.Canonical I ∧ g.core I = {j | j ∈ s.kernel} ∧ (i, t) ∈ I := by
  rw [mem_lookaheads_iff hg hproductive hs hi]
  have hkernel : ∀ j, g.KernelHas n j ↔ j ∈ s.kernel := by
    refine fun j ↦ ⟨?_, fun hj ↦ ⟨s, hs, hj⟩⟩
    rintro ⟨s', hs', hj⟩
    cases Option.some.inj (hs.symm.trans hs')
    exact hj
  constructor
  · intro ht
    obtain ⟨ss, hss⟩ := ht.exists_follows
    obtain ⟨xs, hpath⟩ := hss.exists_path
    refine ⟨g.along (n :: ss), hpath.canonical hg hproductive, ?_, hss⟩
    ext j
    exact (hpath.mem_core_iff hg hproductive).trans (hkernel j)
  · rintro ⟨I, hI, hcore, ht⟩
    obtain ⟨m, ss, xs, hpath, rfl⟩ := hI.exists_path hg hproductive
    obtain ⟨s', hs'⟩ := hpath.exists_state
    have hsame : ∀ j, j ∈ s.kernel ↔ j ∈ s'.kernel := by
      intro j
      have hj : j ∈ g.core (g.along (m :: ss)) ↔ j ∈ s.kernel := by rw [hcore]; rfl
      rw [← hj, hpath.mem_core_iff hg hproductive]
      refine ⟨?_, fun hj ↦ ⟨s', hs', hj⟩⟩
      rintro ⟨s'', hs'', hj⟩
      cases Option.some.inj (hs'.symm.trans hs'')
      exact hj
    obtain rfl := eq_of_kernelHas_iff hs hs' hsame
    exact Follows.mayFollow ht

/-- A number may stand before the end of the text or before a parenthesis, but after no text before
both. -/
theorem mem_lookaheads_parenthesized :
    (parenthesized.Closed ∧ parenthesized.Productive ∧
      parenthesized.states[2]? = some ⟨[⟨0, 1⟩], []⟩ ∧
      (State.mk [⟨0, 1⟩] []).kernel[0]? = some ⟨0, 1⟩) ∧
    (.rightParen ∈ parenthesized.lookaheads.get 2 0 ↔
      ∃ I, parenthesized.Canonical I ∧
        parenthesized.core I = {j | j ∈ (State.mk [⟨0, 1⟩] []).kernel} ∧
        (⟨0, 1⟩, .rightParen) ∈ I) := by
  have hclosed : parenthesized.Closed := by decide
  have hstate : parenthesized.states[2]? = some ⟨[⟨0, 1⟩], []⟩ := by decide +kernel
  exact ⟨⟨hclosed, productive_parenthesized, hstate, rfl⟩,
    mem_lookaheads_iff_canonical hclosed productive_parenthesized hstate rfl⟩

end PlainLedger.Grammar
