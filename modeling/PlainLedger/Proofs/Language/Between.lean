import PlainLedger.Proofs.Language.Tables
import PlainLedger.Proofs.Machine.Run

/-!
# Around the list of declarations

Above the bottom of the stack stands the list of declarations, from the first step on until the
whole text has been read. Recovery goes on right above it and nowhere else. What is done in the few
states that have to do with whole declarations is spelled out here.
-/

namespace PlainLedger.Language

variable {V σ : Type}

theorem tables_engine {ctx : Context} {options : Options} :
    (engine ctx options).tables = (engine ctx options).grammar.tables := rfl

/-! ## States -/

/-- A row that completes a rule whatever comes next decides so. -/
theorem Completes.decide {n : Nat} {lhs : Category} {rhs : List Symbol} {action : Production}
    (h : Completes n lhs rhs action) {row : Row} (hrow : tables.row? n = some row)
    (t : Terminal) : ∃ k p, row.decide t = some (.reduce k) ∧ grammar.rules[k]? = some p ∧
      p.lhs = lhs.index ∧ p.rhs = rhs ∧ p.action = action := by
  obtain ⟨row', hrow', hactions, k, hk, p, hp, hlhs, hrhs, haction⟩ := h
  cases Option.some.inj (hrow.symm.trans hrow')
  refine ⟨k, p, ?_, hp, hlhs, hrhs, haction⟩
  rw [Row.decide_of_not_needsLookahead (by simp [Row.needsLookahead, hactions])]
  exact congrArg _ hk

section States

variable {row : Row} {t : Terminal} {k : Nat} {p : Rule Production}

/-- A text begins with an empty list of declarations. -/
theorem decide_opening (hrow : tables.row? opening = some row) (t : Terminal) :
    ∃ k p, row.decide t = some (.reduce k) ∧ grammar.rules[k]? = some p ∧
      p.lhs = Category.declarations.index ∧ p.rhs = [] ∧ p.action = .declarationsEmpty :=
  Completes.decide completes_opening hrow t

/-- Skipped text is one of the declarations. -/
theorem decide_skipped (hrow : tables.row? skipped = some row) (t : Terminal) :
    ∃ k p, row.decide t = some (.reduce k) ∧ grammar.rules[k]? = some p ∧
      p.lhs = Category.declarations.index ∧
      p.rhs = [Category.declarations.symbol, .terminal .error] ∧
      p.action = .declarationsError :=
  Completes.decide completes_skipped hrow t

theorem errorShift?_between (ctx : Context) (options : Options) :
    (engine ctx options).errorShift? between = some skipped := by
  obtain ⟨row, hrow, hshift, -⟩ := exists_row_between
  exact Option.bind_eq_some_iff.mpr ⟨row, hrow, hshift⟩

theorem edge_between_skipped : grammar.Edge between (.terminal .error) skipped := by
  obtain ⟨row, hrow, hshift, -⟩ := exists_row_between
  exact Grammar.edge_of_errorShift? (show grammar.tables.row? between = some row from hrow) hshift

/-- The end of the text completes the ledger. -/
theorem decide_between_end (hrow : tables.row? between = some row) :
    ∃ k, row.decide .endOfInput = some (.reduce k) := by
  obtain ⟨row', hrow', -, ⟨k, -, hdecide⟩, -⟩ := exists_row_between
  cases Option.some.inj (hrow.symm.trans hrow')
  exact ⟨k, hdecide⟩

/-- Between declarations, only the end of the text completes a rule. -/
theorem decide_between (hrow : tables.row? between = some row)
    (h : row.decide t = some (.reduce k)) (hrule : grammar.rules[k]? = some p) :
    t = .endOfInput ∧ p.lhs = Category.file.index := by
  obtain ⟨row', hrow', -, ⟨k', hk', hdecide⟩, hother⟩ := exists_row_between
  cases Option.some.inj (hrow.symm.trans hrow')
  rcases hother t (Terminal.mem_all t) with rfl | hreads
  · cases h.symm.trans hdecide
    obtain ⟨p', hrule', hlhs⟩ := grammar.mem_rulesOf.mp hk'
    cases Option.some.inj (hrule.symm.trans hrule')
    exact ⟨rfl, hlhs⟩
  · rw [ReadsOrFails, h] at hreads
    exact hreads.elim

/-- A whole ledger is accepted. -/
theorem decide_closing (hrow : tables.row? closing = some row) :
    row.decide .endOfInput = some .accept := by
  obtain ⟨row', hrow', hdecide⟩ := exists_row_closing
  cases Option.some.inj (hrow.symm.trans hrow')
  exact hdecide

/-- What warns, and what nothing is read ahead after, is completed without a look ahead. -/
theorem needsLookahead_of_decide {n : Nat} (hrow : tables.row? n = some row)
    (h : row.decide t = some (.reduce k)) (hrule : grammar.rules[k]? = some p)
    (hp : p.action.warns = true ∨ Brisk (.nonterminal p.lhs)) : row.needsLookahead = false := by
  by_contra hlooks
  obtain ⟨hwarns, hbrisk⟩ := prompt_of_mem (List.mem_of_getElem? hrow)
    (eq_true_of_ne_false hlooks) k (Row.mem_reduced_of_decide h) p hrule
  rcases hp with hp | hp
  · exact absurd (hwarns.symm.trans hp) Bool.false_ne_true
  · exact hbrisk hp

end States

/-- Skipped text stands between declarations. -/
theorem edge_to_skipped {n : Nat} {x : Symbol} (h : grammar.Edge n x skipped) :
    n = between ∧ x = .terminal .error := by
  obtain rfl := h.symbol_unique edge_between_skipped
  exact ⟨(edge_error h).1, rfl⟩

/-! ## Stacks -/

section Stacks

variable {T : Symbol → V → Prop} {x : Slot V} {rest slots : List (Slot V)} {xs : List Symbol}

/-- Below the list of declarations is the bottom of the stack. -/
theorem below_between (h : Spelled grammar T (x :: rest) xs) (hx : x.state = between) :
    ∃ bottom, rest = [bottom] ∧ xs = [Category.declarations.symbol] := by
  cases h with
  | bottom hzero => exact absurd (hx.symm.trans hzero) (by decide)
  | @push _ y slots X xs h he _ =>
    rw [hx] at he
    obtain ⟨hy, rfl⟩ := edge_to_between he
    obtain ⟨rfl, rfl⟩ := h.eq_nil_of_start hy
    exact ⟨y, rfl, rfl⟩

/-- Below skipped text is the list of declarations. -/
theorem below_skipped (h : Spelled grammar T (x :: rest) xs) (hx : x.state = skipped) :
    ∃ ds bottom, ds.state = between ∧ rest = [ds, bottom] ∧
      xs = [.terminal .error, Category.declarations.symbol] := by
  cases h with
  | bottom hzero => exact absurd (hx.symm.trans hzero) (by decide)
  | @push _ y slots X xs h he _ =>
    rw [hx] at he
    obtain ⟨hy, rfl⟩ := edge_to_skipped he
    obtain ⟨bottom, rfl, rfl⟩ := below_between h hy
    exact ⟨y, bottom, hy, rfl, rfl⟩

/-- Below a whole ledger is the bottom of the stack. -/
theorem below_closing (h : Spelled grammar T (x :: rest) xs) (hx : x.state = closing) :
    ∃ bottom, rest = [bottom] ∧ xs = [Category.file.symbol] := by
  cases h with
  | bottom hzero => exact absurd (hx.symm.trans hzero) (by decide)
  | @push _ y slots X xs h he _ =>
    rw [hx] at he
    obtain ⟨hy, rfl⟩ := edge_to_closing he
    obtain ⟨rfl, rfl⟩ := h.eq_nil_of_start hy
    exact ⟨y, rfl, rfl⟩

/-- The state has to do with whole declarations only. -/
def AtDeclaration (n : Nat) : Prop := n = closing ∨ n = between ∨ n = skipped

instance (n : Nat) : Decidable (AtDeclaration n) := by
  unfold AtDeclaration
  infer_instance

section Reduce

variable {row : Row} {t : Terminal} {k n : Nat} {p : Rule Production} {y : Slot V}
  {below : List (Slot V)}

/-- Nothing is completed where the whole text has been read. -/
theorem state_ne_closing (hs : Spelled grammar T (x :: rest) xs)
    (hrow : tables.row? x.state = some row) (hdecide : row.decide t = some (.reduce k))
    (hrule : grammar.rules[k]? = some p) (hbelow : (x :: rest).drop p.rhs.length = y :: below)
    (hedge : grammar.Edge y.state (.nonterminal p.lhs) n) : x.state ≠ closing := by
  intro hx
  obtain ⟨bottom, rfl, rfl⟩ := below_closing hs hx
  obtain ⟨⟨-, htake⟩, -⟩ := hs.of_decide hrow hdecide hrule hbelow
  have hfile := (declarationRule hrule).file_not_mem
  have hempty : p.rhs = [] := by
    rcases hrhs : p.rhs with _ | ⟨X, Xs⟩
    · rfl
    · rw [hrhs, List.length_cons, List.take_succ_cons, List.take_nil] at htake
      rw [hrhs, ← htake] at hfile
      simp at hfile
  rw [hempty] at hbelow
  cases hbelow
  rw [hx] at hedge
  exact not_edge_closing hedge

/-- A rule that is completed in a state of whole declarations puts declarations together. -/
theorem lhs_of_atDeclaration (hs : Spelled grammar T (x :: rest) xs)
    (hx : AtDeclaration x.state) (hrow : tables.row? x.state = some row)
    (hdecide : row.decide t = some (.reduce k)) (hrule : grammar.rules[k]? = some p)
    (hbelow : (x :: rest).drop p.rhs.length = y :: below)
    (hedge : grammar.Edge y.state (.nonterminal p.lhs) n) :
    (p.lhs = Category.file.index ∧ t = .endOfInput ∧ n = closing) ∨
      (p.lhs = Category.declarations.index ∧ n = between) := by
  rcases hx with hx | hx | hx
  · exact (state_ne_closing hs hrow hdecide hrule hbelow hedge hx).elim
  · obtain ⟨ht, hlhs⟩ := decide_between (hx ▸ hrow) hdecide hrule
    rw [hlhs] at hedge
    exact Or.inl ⟨hlhs, ht, (edge_file hedge).2⟩
  · obtain ⟨k', p', hdecide', hrule', hlhs, -⟩ := decide_skipped (hx ▸ hrow) t
    cases hdecide.symm.trans hdecide'
    cases Option.some.inj (hrule.symm.trans hrule')
    rw [hlhs] at hedge
    exact Or.inr ⟨hlhs, (edge_declarations hedge).2⟩

end Reduce

variable {r : Reducer Production V σ} {ctx : Context} {options : Options}

/-- Recovery goes on above the list of declarations. -/
theorem resume_above {pending : List Token} {m : σ} {c' : Config V σ}
    (h : Config.Recovers (engine ctx options) r slots pending m (.running c'))
    (hs : Spelled grammar T slots xs) :
    ∃ above ds bottom z, slots = above ++ [ds, bottom] ∧ ds.state = between ∧
      z.state = skipped ∧ z.value = r.blank ∧ c'.stack.slots = [z, ds, bottom] ∧
      grammar.Edge ds.state (.terminal .error) z.state ∧
      Spelled grammar T [ds, bottom] [Category.declarations.symbol] := by
  cases h with
  | @resume popped rest x n span _ hslots hpopped hshift hslots' _ _ _ =>
    have hedge : grammar.Edge x.state (.terminal .error) n :=
      Config.edge_of_errorShift? tables_engine hshift
    obtain ⟨hx, hn⟩ := edge_error hedge
    subst hslots
    obtain ⟨bottom, rfl, hxs⟩ := below_between hs.of_append hx
    have hbelow := hs.of_append
    rw [hxs] at hbelow
    exact ⟨popped, x, bottom, _, rfl, hx, hn, rfl, hslots', hedge, hbelow⟩

/-- Recovery is impossible only where the list of declarations is not yet begun, and where the
whole text has been read. -/
theorem state_of_stuck (hs : Spelled grammar T (x :: rest) xs)
    (h : ∀ y ∈ x :: rest, (engine ctx options).errorShift? y.state = none) :
    x.state = opening ∨ x.state = closing := by
  generalize hslots : x :: rest = slots at hs h
  induction hs generalizing x rest with
  | bottom hx =>
    cases hslots
    exact Or.inl hx
  | @push x' y slots X xs hs he _ ih =>
    cases hslots
    rcases ih rfl fun z hz ↦ h z (List.mem_cons_of_mem _ hz) with hy | hy
    · rw [hy] at he
      rcases edge_opening he with ⟨-, hx⟩ | ⟨-, hx⟩
      · exact Or.inr hx
      · have hnone := h x' (List.mem_cons_self ..)
        rw [hx, errorShift?_between] at hnone
        cases hnone
    · rw [hy] at he
      exact (not_edge_closing he).elim

end Stacks

end PlainLedger.Language
