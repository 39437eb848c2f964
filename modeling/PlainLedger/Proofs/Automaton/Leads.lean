import PlainLedger.Proofs.Automaton.Lookahead

/-!
# Following a derivation

The tables lead along a forest where they say to read each leaf when it comes, and to complete each
rule where its last symbol has been read. Tables without conflicts lead along every forest that a
sentence can be derived with.
-/

namespace PlainLedger

variable {α : Type}

/-- Beginning in one state, the tables lead along the forest to another state, if the terminal comes
after the leaves of the forest. -/
inductive Leads (g : Grammar α) :
    {xs : List Symbol} → Nat → Forest g xs → Terminal → Nat → Prop where
  | nil (n : Nat) (t : Terminal) : Leads g n .nil t n
  | leaf {xs : List Symbol} {n m n' : Nat} {x : Leaf} {rest : Forest g xs} {t : Terminal}
    {row : Row}
      (hrow : g.tables.row? n = some row) (hdecide : row.decide x.terminal = some (.shift m))
      (hrest : Leads g m rest t n') : Leads g n (.leaf x rest) t n'
  | node {xs : List Symbol} {n n₁ m n' k : Nat} {p : Rule α} {h : g.rules[k]? = some p}
      {children : Forest g p.rhs} {rest : Forest g xs} {t : Terminal} {row : Row}
      (hchildren : Leads g n children (rest.first t) n₁) (hrow : g.tables.row? n₁ = some row)
      (hdecide : row.decide (rest.first t) = some (.reduce k))
      (hedge : g.Edge n (.nonterminal p.lhs) m) (hrest : Leads g m rest t n') :
      Leads g n (.node k h children rest) t n'

theorem Forest.first_append {g : Grammar α} {xs ys : List Symbol} (f : Forest g xs)
    (f' : Forest g ys) (t : Terminal) : (f.append f').first t = f.first (f'.first t) := by
  unfold Forest.first
  rw [Forest.leaves_append]
  cases f.leaves <;> rfl

namespace Leads

variable {g : Grammar α} {xs : List Symbol} {n n' : Nat} {f : Forest g xs} {t : Terminal}

/-- The way leads over the symbols of the forest. -/
theorem path (h : Leads g n f t n') {ss : List Nat} {ys : List Symbol} (hp : g.Path (n :: ss) ys) :
    ∃ ss', g.Path (n' :: ss') (xs.reverse ++ ys) := by
  induction h generalizing ss ys with
  | nil => exact ⟨ss, hp⟩
  | @leaf xs n m n' x rest t row hrow hdecide _ ih =>
    obtain ⟨ss', hpath⟩ := ih (.step hp (Grammar.allows_of_decide hrow hdecide))
    exact ⟨ss', by simpa [Leaf.symbol] using hpath⟩
  | @node xs n n₁ m n' k p _ children rest t row _ hrow _ hedge _ _ ih =>
    obtain ⟨ss', hpath⟩ := ih (.step hp hedge)
    exact ⟨ss', by simpa using hpath⟩

/-- The way along one forest, and then along another. -/
theorem append {ys : List Symbol} {f' : Forest g ys} {m : Nat} (h : Leads g n f (f'.first t) m)
    (h' : Leads g m f' t n') : Leads g n (f.append f') t n' := by
  generalize hu : f'.first t = u at h
  induction h with
  | nil => exact h'
  | leaf hrow hdecide _ ih => exact .leaf hrow hdecide (ih h' hu)
  | @node xs n n₁ m n' k p hrule children rest t row hchildren hrow hdecide hedge _ ihc ihr =>
    subst hu
    rw [← Forest.first_append] at hchildren hdecide
    exact .node hchildren hrow hdecide hedge (ihr h' rfl)

/-- What a way along a forest comes to, by the first tree of the forest. -/
def Begun (g : Grammar α) (n : Nat) (t : Terminal) (n' : Nat) :
    {xs : List Symbol} → Forest g xs → Prop
  | _, .nil => n = n'
  | _, .leaf x rest => ∃ m row, g.tables.row? n = some row ∧
      row.decide x.terminal = some (.shift m) ∧ Leads g m rest t n'
  | _, .node (p := p) k _ children rest => ∃ n₁ m row, Leads g n children (rest.first t) n₁ ∧
      g.tables.row? n₁ = some row ∧ row.decide (rest.first t) = some (.reduce k) ∧
      g.Edge n (.nonterminal p.lhs) m ∧ Leads g m rest t n'

theorem begun (h : Leads g n f t n') : Begun g n t n' f := by
  cases h with
  | nil => rfl
  | leaf hrow hdecide hrest => exact ⟨_, _, hrow, hdecide, hrest⟩
  | node hchildren hrow hdecide hedge hrest =>
    exact ⟨_, _, _, hchildren, hrow, hdecide, hedge, hrest⟩

/-- The way along two forests, one after the other, can be told apart. -/
theorem exists_of_append {ys : List Symbol} {f' : Forest g ys}
    (h : Leads g n (f.append f') t n') :
    ∃ m, Leads g n f (f'.first t) m ∧ Leads g m f' t n' := by
  induction f generalizing n with
  | nil => exact ⟨n, .nil n _, h⟩
  | leaf x rest ih =>
    obtain ⟨m, row, hrow, hdecide, hrest⟩ := h.begun
    obtain ⟨m', hm, hm'⟩ := ih hrest
    exact ⟨m', .leaf hrow hdecide hm, hm'⟩
  | node k hrule children rest _ ih =>
    obtain ⟨n₁, m, row, hchildren, hrow, hdecide, hedge, hrest⟩ := h.begun
    rw [Forest.first_append] at hchildren hdecide
    obtain ⟨m', hm, hm'⟩ := ih hrest
    exact ⟨m', .node hchildren hrow hdecide hedge hm, hm'⟩

end Leads

namespace Grammar

variable {g : Grammar α}

/-! ## Decisions -/

section Decisions

variable {n : Nat} {s : State} {la : List TerminalSet} {row : Row} {t : Terminal}

theorem decide_of_cell {a : Action} (hrow : g.tables.row? n = some row)
    (hs : g.states[n]? = some s) (hla : g.lookaheads[n]? = some la)
    (h : (g.cell g.flows n s la t).1 = some a) : row.decide t = some a := by
  obtain ⟨s', la', hs', hla', rfl⟩ := tables_row?.mp hrow
  cases Option.some.inj (hs.symm.trans hs')
  cases Option.some.inj (hla.symm.trans hla')
  rw [Row.decide_ofEntries (g.nodup_keys_fullRow ..), lookup_fullRow, h, Option.some_or]

/-- A terminal is read where no rule is to be completed rather. -/
theorem cell_of_shift {m : Nat} (htarget : s.target? (.terminal t) = some m)
    (hend : t ≠ .endOfInput) (hprefers : ∀ k ∈ g.completable g.flows s la t, k ≠ g.acceptRule →
      g.prefersReduce? t k = some false) :
    (g.cell g.flows n s la t).1 = some (.shift m) := by
  have hfirst : ¬((t = .endOfInput && (g.completable g.flows s la t).contains g.acceptRule) =
      true) := by simp [hend]
  unfold cell
  rw [if_neg hfirst, htarget]
  unfold entry
  split
  · rfl
  · rename_i k others hrules
    have hk : k ∈ (g.completable g.flows s la t).filter (· != g.acceptRule) := by
      rw [hrules]
      exact List.mem_cons_self ..
    obtain ⟨hk, hne⟩ := List.mem_filter.mp hk
    dsimp only
    rw [hprefers k hk (by simpa using hne)]

/-- A rule is completed where it is the only one, and reading on is not preferred. -/
theorem cell_of_reduce {k : Nat} (hk : k ∈ g.completable g.flows s la t)
    (hne : k ≠ g.acceptRule) (hnone : (g.cell g.flows n s la t).2 = [])
    (haccept : t = .endOfInput → g.acceptRule ∉ g.completable g.flows s la t)
    (hprefers : ∀ m, s.target? (.terminal t) = some m → g.prefersReduce? t k = some true) :
    (g.cell g.flows n s la t).1 = some (.reduce k) := by
  have hfirst : ¬((t = .endOfInput && (g.completable g.flows s la t).contains g.acceptRule) =
      true) := by simpa using haccept
  have hmem : k ∈ (g.completable g.flows s la t).filter (· != g.acceptRule) :=
    List.mem_filter.mpr ⟨hk, by simpa using hne⟩
  unfold cell at hnone ⊢
  rw [if_neg hfirst] at hnone ⊢
  generalize (g.completable g.flows s la t).filter (· != g.acceptRule) = rules at hmem hnone ⊢
  cases rules with
  | nil => cases hmem
  | cons k' others =>
    have hothers : others = [] := by
      unfold entry at hnone
      dsimp only at hnone
      split at hnone
      · simpa using hnone
      · split at hnone
        · simpa using hnone
        · simpa using hnone
        · simp at hnone
    rw [hothers, List.mem_singleton] at hmem
    subst hmem
    unfold entry
    dsimp only
    split
    · rfl
    · rename_i m hm
      rw [hprefers m hm]

theorem prefersReduce?_of_levels (hlevels : g.levels = []) (t : Terminal) (k : Nat) :
    g.prefersReduce? t k = none := by
  have hrank : g.rank? t = none := by simp [Draft.rank?, hlevels]
  unfold prefersReduce?
  rw [hrank]

/-- Without ranks, what could be read as well as completed is a conflict. -/
theorem eq_acceptRule_of_shift (hlevels : g.levels = []) {k m : Nat}
    (htarget : s.target? (.terminal t) = some m) (hnone : (g.cell g.flows n s la t).2 = [])
    (haccept : t = .endOfInput → g.acceptRule ∉ g.completable g.flows s la t)
    (hk : k ∈ g.completable g.flows s la t) : k = g.acceptRule := by
  by_contra hne
  have hfirst : ¬((t = .endOfInput && (g.completable g.flows s la t).contains g.acceptRule) =
      true) := by simpa using haccept
  have hmem : k ∈ (g.completable g.flows s la t).filter (· != g.acceptRule) :=
    List.mem_filter.mpr ⟨hk, by simpa using hne⟩
  unfold cell at hnone
  rw [if_neg hfirst, htarget] at hnone
  cases hrules : (g.completable g.flows s la t).filter (· != g.acceptRule) with
  | nil =>
    rw [hrules] at hmem
    cases hmem
  | cons k' others =>
    rw [hrules] at hnone
    simp [entry, g.prefersReduce?_of_levels hlevels] at hnone

theorem cell_conflicts (hconflicts : g.tables.conflicts = []) (hs : g.states[n]? = some s)
    (hla : g.lookaheads[n]? = some la) (t : Terminal) : (g.cell g.flows n s la t).2 = [] := by
  have hrow : g.fullRow g.flows n s la ∈ g.fullRows g.flows g.states g.lookaheads := by
    refine List.mem_map.mpr ⟨((s, la), n), ?_, rfl⟩
    rw [List.mem_zipIdx_iff_getElem?]
    exact List.getElem?_zip_eq_some.mpr ⟨hs, hla⟩
  have hnone : (g.fullRow g.flows n s la).2 = [] :=
    List.flatMap_eq_nil_iff.mp hconflicts _ hrow
  rw [fullRow_eq] at hnone
  exact List.flatMap_eq_nil_iff.mp hnone t t.mem_all

/-- In the state the terminal can be read, and the rule can be completed before it. -/
def Contested (g : Grammar α) (n : Nat) (t : Terminal) (k : Nat) : Prop :=
  k ≠ g.acceptRule ∧ (∃ m, g.Edge n (.terminal t) m) ∧
    ∃ s la, g.states[n]? = some s ∧ g.lookaheads[n]? = some la ∧
      k ∈ g.completable g.flows s la t

/-- A rule that has been read competes with every terminal that may come after it. -/
theorem MayFollow.contested (hg : g.Closed) {k d m : Nat} (h : g.MayFollow n ⟨k, d⟩ t)
    (hdone : g.afterDot ⟨k, d⟩ = []) (hk : k ≠ g.acceptRule) (hedge : g.Edge n (.terminal t) m) :
    g.Contested n t k := by
  obtain ⟨s, hs, -⟩ := h.has hg
  obtain ⟨la, hla, -⟩ := length_row_lookaheads hs
  exact ⟨hk, ⟨m, hedge⟩, s, la, hs, hla, h.mem_completable hg hdone hs hla⟩

/-- A terminal is read where completing a rule is not preferred. -/
theorem exists_shift {m : Nat} (hedge : g.Edge n (.terminal t) m) (hend : t ≠ .endOfInput)
    (hprefers : ∀ k, g.Contested n t k → g.prefersReduce? t k = some false) :
    ∃ row, g.tables.row? n = some row ∧ row.decide t = some (.shift m) := by
  obtain ⟨s, hs, htarget⟩ := id hedge
  obtain ⟨la, hla, -⟩ := length_row_lookaheads hs
  obtain ⟨row, hrow⟩ := exists_row hs
  refine ⟨row, hrow, decide_of_cell hrow hs hla (cell_of_shift htarget hend ?_)⟩
  exact fun k hk hne ↦ hprefers k ⟨hne, ⟨m, hedge⟩, s, la, hs, hla, hk⟩

/-- What comes next in an item is read where completing a rule is not preferred. -/
theorem MayFollow.exists_shift (hg : g.Closed) {i : Item} {u : Terminal} (h : g.MayFollow n i u)
    (hnext : g.next? i = some (.terminal t)) (hend : t ≠ .endOfInput)
    (hprefers : ∀ k, g.Contested n t k → g.prefersReduce? t k = some false) :
    ∃ m row, g.Edge n (.terminal t) m ∧ g.tables.row? n = some row ∧
      row.decide t = some (.shift m) ∧ g.MayFollow m i.advance u := by
  obtain ⟨m, hedge⟩ := exists_edge (h.has hg) hnext
  obtain ⟨row, hrow, hdecide⟩ := Grammar.exists_shift hedge hend hprefers
  exact ⟨m, row, hedge, hrow, hdecide, h.advance hnext hedge⟩

/-- What comes first may come next. -/
theorem mem_apply_terminal (t : Terminal) (xs : List Symbol) (s : TerminalSet) :
    t ∈ (g.flows.ofSymbols (.terminal t :: xs)).apply s := by
  rw [FlowTable.ofSymbols_cons, Flow.mem_apply_andThen, Flow.mem_apply]
  exact Or.inl (TerminalSet.mem_singleton.mpr rfl)

/-- A rule is completed where it has been read and reading on is not preferred. -/
theorem exists_reduce (hg : g.Closed) (hconflicts : g.tables.conflicts = []) {k : Nat} {p : Rule α}
    (hrule : g.rules[k]? = some p) (hfollow : g.MayFollow n ⟨k, p.rhs.length⟩ t)
    (haccept : t = .endOfInput → ¬g.Has n ⟨g.acceptRule, 1⟩)
    (hprefers : g.Contested n t k → g.prefersReduce? t k = some true) :
    ∃ row, g.tables.row? n = some row ∧ row.decide t = some (.reduce k) := by
  obtain ⟨s, hs, -⟩ := hfollow.has hg
  obtain ⟨la, hla, hlength⟩ := length_row_lookaheads hs
  obtain ⟨row, hrow⟩ := exists_row hs
  have hdone : g.afterDot ⟨k, p.rhs.length⟩ = [] := by
    rw [afterDot, g.rhs_of_getElem? hrule, List.drop_length]
  have hk := hfollow.mem_completable hg hdone hs hla
  have hne : k ≠ g.acceptRule := (List.getElem?_eq_some_iff.mp hrule).1.ne
  refine ⟨row, hrow, decide_of_cell hrow hs hla (cell_of_reduce hk hne
    (cell_conflicts hconflicts hs hla t) ?_ ?_)⟩
  · intro hu hmem
    have hhas := (has_of_mem_completable hs hlength hmem).2
    rw [rhs_acceptRule] at hhas
    exact haccept hu hhas
  · exact fun m hm ↦ hprefers ⟨hne, ⟨m, s, hs, hm⟩, s, la, hs, hla, hk⟩

/-- Without ranks there is nothing to choose. -/
theorem not_contested (hlevels : g.levels = []) (hconflicts : g.tables.conflicts = []) {k : Nat}
    (haccept : t = .endOfInput → ¬g.Has n ⟨g.acceptRule, 1⟩) : ¬g.Contested n t k := by
  rintro ⟨hne, ⟨m, s, hs, htarget⟩, s', la, hs', hla, hk⟩
  cases Option.some.inj (hs.symm.trans hs')
  refine hne (eq_acceptRule_of_shift hlevels htarget (cell_conflicts hconflicts hs hla t) ?_ hk)
  intro hu hmem
  obtain ⟨la', hla', hlength⟩ := length_row_lookaheads hs
  cases Option.some.inj (hla.symm.trans hla')
  have hhas := (has_of_mem_completable hs hlength hmem).2
  rw [rhs_acceptRule] at hhas
  exact haccept hu hhas

end Decisions

/-! ## Tables without conflicts -/

/-- Where a whole text has been read, nothing is left to be completed. -/
theorem not_derives_of_accept
    (hstart : ¬Relation.TransGen g.Produces [.nonterminal g.start] [.nonterminal g.start])
    {ss : List Nat} {n k : Nat} {ys : List Symbol} {p : Rule α}
    (hp : g.Path (n :: ss) (p.rhs.reverse ++ ys)) (hhas : g.Has n ⟨g.acceptRule, 1⟩)
    (hrule : g.rules[k]? = some p)
    (h : g.Derives [.nonterminal g.start] (ys.reverse ++ [.nonterminal p.lhs])) : False := by
  have hstep : g.Produces (ys.reverse ++ [.nonterminal p.lhs]) (ys.reverse ++ p.rhs ++ []) :=
    .rule hrule _ _
  have hsymbols : ys.reverse ++ p.rhs ++ [] = [.nonterminal g.start] := by
    have hspelled := congrArg List.reverse (hp.accept hhas).2
    simpa using hspelled
  rw [hsymbols] at hstep
  exact hstart (.tail' h hstep)

theorem afterDot_advance {i : Item} {x : Symbol} {xs : List Symbol} (h : g.afterDot i = x :: xs) :
    g.afterDot i.advance = xs := by
  rw [afterDot, Item.advance, ← List.drop_drop, ← afterDot, h]
  rfl

/-- Without conflicts and ranks, the tables lead along whatever can be derived. -/
theorem exists_leads (hg : g.Closed)
    (hstart : ¬Relation.TransGen g.Produces [.nonterminal g.start] [.nonterminal g.start])
    (hlevels : g.levels = []) (hconflicts : g.tables.conflicts = []) {xs : List Symbol}
    (f : Forest g xs) {n : Nat} {i : Item} {t : Terminal} {ss : List Nat} {ys : List Symbol}
    {ts : List Terminal} (hfollow : g.MayFollow n i t) (hdot : g.afterDot i = xs)
    (hleaves : ∀ x ∈ f.leaves, x.terminal ≠ .endOfInput)
    (hpath : g.Path (n :: ss) ys) (hts : t = .endOfInput → ts = [])
    (hderives : g.Derives [.nonterminal g.start] (ys.reverse ++ xs ++ ts.map .terminal)) :
    ∃ n', Leads g n f t n' ∧ g.MayFollow n' ⟨i.rule, i.dot + xs.length⟩ t := by
  induction f generalizing n i t ss ys ts with
  | nil => exact ⟨n, .nil n t, hfollow⟩
  | @leaf x xs rest ih =>
    rw [Forest.leaves, List.forall_mem_cons] at hleaves
    have hnext : g.next? i = some x.symbol := by rw [next?, hdot, List.head?_cons]
    obtain ⟨m, hedge⟩ := exists_edge (hfollow.has hg) hnext
    obtain ⟨row, hrow, hdecide⟩ := exists_shift hedge hleaves.1
      fun k hk ↦ (not_contested hlevels hconflicts (fun h ↦ (hleaves.1 h).elim) hk).elim
    obtain ⟨n', hleads, hfollow'⟩ := ih (hfollow.advance hnext hedge) (afterDot_advance hdot)
      hleaves.2 (.step hpath hedge) hts (by simpa using hderives)
    refine ⟨n', .leaf hrow hdecide hleads, ?_⟩
    rw [Item.advance, Nat.add_right_comm] at hfollow'
    exact hfollow'
  | @node k p h children xs rest ihc ihr =>
    simp only [Forest.leaves, List.forall_mem_append] at hleaves
    have hnext : g.next? i = some (.nonterminal p.lhs) := by rw [next?, hdot, List.head?_cons]
    -- what comes after the children: the leaves to the right of them, and then the rest
    have hafter : rest.first t = .endOfInput → rest.leaves.map Leaf.terminal ++ ts = [] := by
      intro hu
      unfold Forest.first at hu
      cases hl : rest.leaves with
      | nil =>
        rw [hl] at hu
        exact hts hu
      | cons x l =>
        rw [hl] at hu hleaves
        exact (hleaves.2 x (List.mem_cons_self ..) hu).elim
    have hright : g.Derives [.nonterminal g.start]
        (ys.reverse ++ .nonterminal p.lhs ::
          (rest.leaves.map Leaf.terminal ++ ts).map .terminal) := by
      have hrest := rest.derives.append (ys.reverse ++ [.nonterminal p.lhs]) (ts.map .terminal)
      have hsymbols : rest.leaves.map Leaf.symbol =
          (rest.leaves.map Leaf.terminal).map Symbol.terminal := by
        rw [List.map_map]
        rfl
      rw [hsymbols] at hrest
      refine Relation.ReflTransGen.trans hderives (?_ : g.Derives _ _)
      simpa using hrest
    have hfirst : rest.first t ∈ (g.flows.ofSymbols xs).apply (.singleton t) :=
      rest.first_mem_apply hg (TerminalSet.mem_singleton.mpr rfl)
    have hbegin : g.afterDot ⟨k, 0⟩ = p.rhs := by
      rw [afterDot, List.drop_zero, g.rhs_of_getElem? h]
    obtain ⟨n₁, hleads₁, hfollow₁⟩ := ihc (hfollow.predict hdot h hfirst) hbegin hleaves.1 hpath
      hafter (hright.tail (.rule h _ _))
    rw [Nat.zero_add] at hfollow₁
    have haccept : rest.first t = .endOfInput → ¬g.Has n₁ ⟨g.acceptRule, 1⟩ := by
      intro hu hhas
      obtain ⟨ss₁, hpath₁⟩ := hleads₁.path hpath
      rw [hafter hu] at hright
      exact not_derives_of_accept hstart hpath₁ hhas h hright
    obtain ⟨row₁, hrow₁, hdecide⟩ := exists_reduce hg hconflicts h hfollow₁ haccept
      fun hk ↦ (not_contested hlevels hconflicts haccept hk).elim
    obtain ⟨m, hedge⟩ := exists_edge (hfollow.has hg) hnext
    obtain ⟨n', hleads, hfollow'⟩ := ihr (hfollow.advance hnext hedge) (afterDot_advance hdot)
      hleaves.2 (.step hpath hedge) hts (by simpa using hderives)
    refine ⟨n', .node hleads₁ hrow₁ hdecide hedge hleads, ?_⟩
    rw [Item.advance, Nat.add_right_comm] at hfollow'
    exact hfollow'

/-- A text is accepted where the start symbol has been read and the text ends. -/
theorem exists_accept (hg : g.Closed) {n : Nat}
    (hfollow : g.MayFollow n ⟨g.acceptRule, 1⟩ .endOfInput) :
    ∃ row, g.tables.row? n = some row ∧ row.decide .endOfInput = some .accept := by
  have hdone : g.afterDot ⟨g.acceptRule, 1⟩ = [] := by
    rw [afterDot, rhs_acceptRule]
    rfl
  obtain ⟨s, hs, -⟩ := hfollow.has hg
  obtain ⟨la, hla, -⟩ := length_row_lookaheads hs
  obtain ⟨row, hrow⟩ := exists_row hs
  have hmem : g.acceptRule ∈ g.completable g.flows s la .endOfInput :=
    hfollow.mem_completable hg hdone hs hla
  refine ⟨row, hrow, decide_of_cell hrow hs hla ?_⟩
  unfold cell
  rw [if_pos (by simpa using hmem)]

/-- Without conflicts and ranks, the tables lead along every derivation tree of the start symbol,
and accept it. -/
theorem exists_leads_start (hg : g.Closed)
    (hstart : ¬Relation.TransGen g.Produces [.nonterminal g.start] [.nonterminal g.start])
    (hlevels : g.levels = []) (hconflicts : g.tables.conflicts = [])
    (f : Forest g [.nonterminal g.start]) (hleaves : ∀ x ∈ f.leaves, x.terminal ≠ .endOfInput) :
    ∃ n row, Leads g 0 f .endOfInput n ∧ g.tables.row? n = some row ∧
      row.decide .endOfInput = some .accept := by
  have hdot : g.afterDot g.startItem = [.nonterminal g.start] := by
    rw [afterDot, startItem, rhs_acceptRule, List.drop_zero]
  obtain ⟨n, hleads, hfollow⟩ := exists_leads hg hstart hlevels hconflicts f .start hdot hleaves
    .start (fun _ ↦ rfl) .refl
  obtain ⟨row, hrow, haccept⟩ := exists_accept hg hfollow
  exact ⟨n, row, hleads, hrow, haccept⟩

end Grammar

end PlainLedger
