import PlainLedger.Proofs.Language.Between
import PlainLedger.Proofs.Language.Exchange

/-!
# Entries that were made

Whatever is refused or skipped, the entries that were made are those that are handed over in the
end, in the order in which they were made. They are kept in the list of declarations, which recovery
never takes off the stack. An entry that was just made stands alone above that list; the rules that
append it are completed whatever comes next, so nothing can go wrong before it is in the list.
-/

namespace PlainLedger.Language

variable {H ε σ ω : Type} (i : Interpretation H ε σ ω)

/-! ## The record of a session -/

/-- The exchanges of a watched session. -/
def Session.record (s : Session (σ × List (Exchange H ε))) : List (Exchange H ε) := s.state.2

theorem record_releaseAll (hs : List H) (s : Session (σ × List (Exchange H ε))) :
    (s.releaseAll i.watched hs).record = s.record := by
  have hfold : ∀ (hs : List H) (state : σ × List (Exchange H ε)),
      (hs.foldl (fun state h ↦ i.watched.release h state) state).2 = state.2 := by
    intro hs
    induction hs with
    | nil => exact fun state ↦ rfl
    | cons h hs ih => exact fun state ↦ ih _
  exact hfold hs s.state

/-- The exchanges are calls other than the last, and these entries were made in them. -/
def Made (entries : List H) (xs : List (Exchange H ε)) : Prop :=
  Exchange.entries xs = entries ∧ ∀ x ∈ xs, x.isFinish = false

variable {i}

theorem Made.append {entries : List H} {xs : List (Exchange H ε)} (h : Made entries xs)
    {x : Exchange H ε} (hx : x.isFinish = false) :
    Made (entries ++ x.entry?.toList) (xs ++ [x]) := by
  refine ⟨?_, ?_⟩
  · rw [Exchange.entries_append, h.1]
    cases hentry : x.entry? <;> simp [Exchange.entries, hentry]
  · intro y hy
    rcases List.mem_append.mp hy with hy | hy
    · exact h.2 y hy
    · rwa [List.mem_singleton.mp hy]

theorem Made.append_none {entries : List H} {xs : List (Exchange H ε)} (h : Made entries xs)
    {x : Exchange H ε} (hx : x.isFinish = false) (hentry : x.entry? = none) :
    Made entries (xs ++ [x]) := by
  have happend := h.append hx
  rwa [hentry, Option.toList_none, List.append_nil] at happend

theorem Made.noise {ctx : Context} {entries : List H} {s s' : Session (σ × List (Exchange H ε))}
    (h : Made entries s.record) (hnoise : (reducer i.watched ctx).Noise s s') :
    Made entries s'.record := by
  refine hnoise.keeps (J := fun s ↦ Made entries s.record) h ?_ ?_
  · intro d s hs
    exact hs.append_none rfl rfl
  · intro v s hs
    change Made entries (s.releaseAll i.watched v.handles).record
    rwa [record_releaseAll]

/-- What carrying out a plan adds to the entries that were made. -/
theorem Made.perform {entries : List H} {s s' : Session (σ × List (Exchange H ε))}
    (h : Made entries s.record) {origin : Provenance} {plan : Plan H} {entry : Bool}
    (hplan : plan.Makes entry) {verdict : Verdict (Value H)}
    (hs' : s.perform i.watched origin plan = (verdict, s')) :
    (∃ a, entry = true ∧ verdict = .value (.handle a) ∧ Made (entries ++ [a]) s'.record) ∨
      (∃ v, entry = false ∧ verdict = .value v ∧ Made entries s'.record) ∨
      ∃ message, verdict = .rejected message ∧ Made entries s'.record := by
  cases plan with
  | keep v =>
    cases hs'
    exact Or.inr (Or.inl ⟨v, hplan, rfl, h⟩)
  | warn message v =>
    cases hs'
    exact Or.inr (Or.inl ⟨v, hplan, rfl, h.append_none rfl rfl⟩)
  | construct c =>
    cases hs'
    have hc : c.isEntry = entry := hplan
    cases (i.construct c s.state.1).1 with
    | error reason =>
      exact Or.inr (Or.inr ⟨i.message reason, rfl, h.append_none rfl rfl⟩)
    | ok a =>
      cases entry with
      | true =>
        have happend := h.append (x := .construct c (.ok a)) rfl
        rw [Exchange.entry?, if_pos hc] at happend
        exact Or.inl ⟨a, rfl, rfl, happend⟩
      | false =>
        have hnone : Exchange.entry? (ε := ε) (.construct c (.ok a)) = none := by
          simp [Exchange.entry?, hc]
        exact Or.inr (Or.inl ⟨.handle a, rfl, rfl, h.append_none rfl hnone⟩)
  | measure c tolerance? =>
    obtain ⟨hc, rfl⟩ := hplan
    cases hanswer : i.construct c s.state.1 with
    | mk answer state =>
      have hwatched : i.watched.construct c s.state =
          (answer, (state, s.state.2 ++ [.construct c answer])) := by
        simp [Interpretation.watched, hanswer]
      have hnone : Exchange.entry? (.construct c answer) = none := by
        cases answer <;> simp [Exchange.entry?, hc]
      cases answer with
      | ok a =>
        rw [perform_measure_ok i.watched hwatched] at hs'
        cases hs'
        exact Or.inr (Or.inl ⟨_, rfl, rfl, h.append_none rfl hnone⟩)
      | error reason =>
        rw [perform_measure_error i.watched hwatched] at hs'
        cases hs'
        refine Or.inr (Or.inr ⟨_, rfl, ?_⟩)
        rw [record_releaseAll]
        exact h.append_none rfl hnone
  | declare d =>
    cases hs'
    cases (i.declare d s.state.1).1 with
    | error reason => exact Or.inr (Or.inr ⟨i.message reason, rfl, h.append_none rfl rfl⟩)
    | ok a => exact Or.inr (Or.inl ⟨.nothing, hplan, rfl, h.append_none rfl rfl⟩)

section Reduce

variable {ctx : Context} {p : Production} {red : Reduction (Value H)} {entries : List H}
  {s s' : Session (σ × List (Exchange H ε))} {verdict : Verdict (Value H)}

/-- What completing a rule adds to the entries that were made. -/
theorem Made.reduce (h : Made entries s.record)
    (hr : (reducer i.watched ctx).reduce p red s = (verdict, s')) :
    (∃ cause, verdict = .fatal cause ∧ Made entries s'.record) ∨
      (∃ a, p.makesEntry = true ∧ verdict = .value (.handle a) ∧
        Made (entries ++ [a]) s'.record) ∨
      (∃ v, p.makesEntry = false ∧ verdict = .value v ∧ Made entries s'.record) ∨
      ∃ message, verdict = .rejected message ∧ Made entries s'.record := by
  simp only [reducer] at hr
  split at hr
  · cases hr
    refine Or.inl ⟨_, rfl, ?_⟩
    rwa [record_releaseAll]
  · rename_i plan args hrun
    refine Or.inr (Made.perform ?_ (returns_plan _ _ _ _ _ _ hrun) hr)
    rwa [record_releaseAll]

/-- A rule whose value is found among the values of its right-hand side. -/
theorem Made.reduce_keep (h : Made entries s.record) {v : Value H} {args : Args H}
    (hplan : (p.plan (ctx.provenance red.span) (txnFlag? p red.below)).run
      { pending := red.values } = .ok (.keep v, args))
    (hr : (reducer i.watched ctx).reduce p red s = (verdict, s')) :
    verdict = .value v ∧ Made entries s'.record := by
  simp only [reducer, hplan, Session.perform] at hr
  cases hr
  refine ⟨rfl, ?_⟩
  rwa [record_releaseAll]

end Reduce

/-! ## The stack -/

/-- The slots, and the symbols that they spell, when the entries have been made. -/
inductive Stage : List H → List (Slot (Value H)) → List Symbol → Prop where
  /-- Nothing has been read. -/
  | opening {x : Slot (Value H)} : Stage [] [x] []
  /-- The entries are in the list of declarations; above it is no entry. -/
  | body {entries : List H} (above : List (Slot (Value H))) (xs : List Symbol)
      {ds bottom : Slot (Value H)} (hlength : above.length = xs.length)
      (habove : ∀ x ∈ xs, ¬EntrySymbol x) (hds : ds.value = .list entries) :
      Stage entries (above ++ [ds, bottom]) (xs ++ [Category.declarations.symbol])
  /-- The last entry is not yet in the list. -/
  | made {entries : List H} {a : H} {y ds bottom : Slot (Value H)} {x : Symbol}
      (hx : EntrySymbol x) (hy : y.value = .handle a) (hds : ds.value = .list entries) :
      Stage (entries ++ [a]) [y, ds, bottom] [x, Category.declarations.symbol]
  /-- The whole text has been read. -/
  | closed {entries : List H} {y bottom : Slot (Value H)} (hy : y.value = .list entries) :
      Stage entries [y, bottom] [Category.file.symbol]

/-- The last entry was just made. -/
def Fresh (entries : List H) (slots : List (Slot (Value H))) (xs : List Symbol) : Prop :=
  ∃ entries' a z ds bottom X, entries = entries' ++ [a] ∧ slots = [z, ds, bottom] ∧
    xs = [X, Category.declarations.symbol] ∧ EntrySymbol X ∧ z.value = .handle a ∧
    ds.value = .list entries'

/-- The stack spells symbols, and holds the entries that were made. -/
def Kept (c : Config (Value H) (Session (σ × List (Exchange H ε)))) : Prop :=
  ∃ entries xs, Made entries c.memory.record ∧
    Spelled grammar (fun _ _ ↦ True) c.stack.slots xs ∧ Stage entries c.stack.slots xs

theorem not_entrySymbol_terminal (t : Terminal) : ¬EntrySymbol (.terminal t) := by
  rintro (h | ⟨c, -, h⟩) <;> cases h

/-- What is done where an entry has been read does not depend on what comes next. -/
theorem decide_of_entry {m n : Nat} {x : Symbol} (hx : EntrySymbol x)
    (hedge : grammar.Edge m x n) {row : Row} (hrow : tables.row? n = some row) (t : Terminal) :
    ∃ k p, row.decide t = some (.reduce k) ∧ grammar.rules[k]? = some p ∧
      (p.lhs = Category.declarations.index ∧
          p.rhs = [Category.declarations.symbol, Category.entry.symbol] ∧
          p.action = .declarationsEntry ∨
        p.lhs = Category.entry.index ∧ p.rhs = [x] ∧ p.action = .forward) := by
  rcases hx with rfl | ⟨c, hc, rfl⟩
  · obtain ⟨k, p, hdecide, hp, hrule⟩ := (completes_of_edge_entry hedge).decide hrow t
    exact ⟨k, p, hdecide, hp, Or.inl hrule⟩
  · obtain ⟨k, p, hdecide, hp, hrule⟩ := (completes_of_edge_entryCategory hc hedge).decide hrow t
    exact ⟨k, p, hdecide, hp, Or.inr hrule⟩

theorem Stage.body_of_error {entries : List H} {z ds bottom : Slot (Value H)}
    (hds : ds.value = .list entries) :
    Stage entries [z, ds, bottom] [.terminal .error, Category.declarations.symbol] :=
  .body [z] [.terminal .error] rfl (by decide) hds

theorem Stage.body_of_declarations {entries : List H} {ds bottom : Slot (Value H)}
    (hds : ds.value = .list entries) :
    Stage entries [ds, bottom] [Category.declarations.symbol] :=
  .body [] [] rfl (by simp) hds

section Steps

variable {ctx : Context} {options : Options}
  {c c' : Config (Value H) (Session (σ × List (Exchange H ε)))}

/-- The list of declarations holds the entries, but for one that was just made. -/
theorem value_of_between {entries : List H} {above slots : List (Slot (Value H))}
    {ds bottom : Slot (Value H)} {xs : List Symbol} (hstage : Stage entries slots xs)
    (hs : Spelled grammar (fun _ _ ↦ True) slots xs) (hslots : slots = above ++ [ds, bottom])
    (hds : ds.state = between) :
    ds.value = .list entries ∨ Fresh entries slots xs := by
  cases hstage with
  | opening =>
    have hlen := congrArg List.length hslots
    simp at hlen
  | body _ _ _ _ hvalue =>
    obtain ⟨-, heq⟩ := List.append_inj' hslots rfl
    cases heq
    exact Or.inl hvalue
  | made hX hz hvalue =>
    exact Or.inr ⟨_, _, _, _, _, _, rfl, rfl, rfl, hX, hz, hvalue⟩
  | @closed _ y bottom' _ =>
    obtain ⟨-, heq⟩ := List.append_inj' (show [] ++ [y, bottom'] = _ from hslots) rfl
    cases heq
    cases hs with
    | push _ he _ =>
      obtain ⟨-, hclosing⟩ := edge_file he
      exact absurd (hclosing.symm.trans hds) (by decide)

/-- Recovery keeps the list of declarations, as long as no entry was just made. -/
theorem kept_of_recovers {entries : List H} (taken : List (Slot (Value H)))
    {slots : List (Slot (Value H))} {xs xs' : List Symbol} {pending : List Token}
    {m : Session (σ × List (Exchange H ε))}
    (h : Config.Recovers (engine ctx options) (reducer i.watched ctx) slots pending m
      (.running c'))
    (hmade : Made entries m.record) (hstage : Stage entries (taken ++ slots) xs)
    (hs : Spelled grammar (fun _ _ ↦ True) (taken ++ slots) xs)
    (hs' : Spelled grammar (fun _ _ ↦ True) slots xs')
    (hnew : ¬Fresh entries (taken ++ slots) xs) : Kept c' := by
  obtain ⟨above, ds, bottom, z, hslots, hbetween, -, -, hc', hz, hds⟩ := resume_above h hs'
  have hall : taken ++ slots = (taken ++ above) ++ [ds, bottom] := by
    rw [hslots, List.append_assoc]
  rcases value_of_between hstage hs hall hbetween with hvalue | hfresh
  · unfold Kept
    rw [hc']
    exact ⟨entries, _, hmade.noise h.noise, hds.push hz trivial, .body_of_error hvalue⟩
  · exact (hnew hfresh).elim

/-- Reading a token keeps the entries. -/
theorem kept_of_shift {entries : List H} {x : Slot (Value H)} {rest : List (Slot (Value H))}
    {xs : List Symbol} {row : Row} {t : Terminal} {n : Nat} {v : Value H} {span : Span}
    (hs : Spelled grammar (fun _ _ ↦ True) (x :: rest) xs) (hstage : Stage entries (x :: rest) xs)
    (hrow : tables.row? x.state = some row) (hdecide : row.decide t = some (.shift n)) :
    Spelled grammar (fun _ _ ↦ True) (⟨n, v, span⟩ :: x :: rest) (.terminal t :: xs) ∧
      Stage entries (⟨n, v, span⟩ :: x :: rest) (.terminal t :: xs) := by
  have hedge : grammar.Edge x.state (.terminal t) n :=
    Grammar.allows_of_decide (show grammar.tables.row? x.state = some row from hrow) hdecide
  refine ⟨.push hs hedge trivial, ?_⟩
  generalize hslots : x :: rest = slots at hstage hs
  cases hstage with
  | opening =>
    cases hslots
    obtain ⟨hx, -⟩ := hs.state_eq_zero
    rw [hx] at hedge
    rcases edge_opening hedge with ⟨h, -⟩ | ⟨h, -⟩ <;> cases h
  | @body _ above xs ds bottom hlength habove hds =>
    refine .body (⟨n, v, span⟩ :: above) (.terminal t :: xs) ?_ ?_ hds
    · simp [hlength]
    · intro y hy
      rcases List.mem_cons.mp hy with rfl | hy
      · exact not_entrySymbol_terminal t
      · exact habove y hy
  | made hx _ _ =>
    cases hslots
    cases hs with
    | push _ he _ =>
      obtain ⟨k, p, hreduce, -⟩ := decide_of_entry hx he hrow t
      cases hdecide.symm.trans hreduce
  | @closed _ y bottom hy =>
    cases hslots
    cases hs with
    | push _ he _ =>
      obtain ⟨-, hx⟩ := edge_file he
      rw [hx] at hedge
      exact (not_edge_closing hedge).elim

section Reduce

variable {entries : List H} {x y : Slot (Value H)} {rest below : List (Slot (Value H))}
  {xs : List Symbol} {row row' : Row} {t : Terminal} {k n : Nat} {p : Rule Production}
  {v : Value H} {verdict : Verdict (Value H)} {span : Span}
  {s s' : Session (σ × List (Exchange H ε))}

/-- The first rule to be completed begins an empty list. -/
theorem stage_of_opening {x : Slot (Value H)}
    (hs : Spelled grammar (fun _ _ ↦ True) [x] xs) (hmade : Made [] s.record)
    (hrow : tables.row? x.state = some row) (hdecide : row.decide t = some (.reduce k))
    (hrule : grammar.rules[k]? = some p) (hbelow : [x].drop p.rhs.length = y :: below)
    (hverdict : (reducer i.watched ctx).reduce p.action (.ofSlots k p.rhs.length [x]) s =
      (.value v, s')) :
    Made [] s'.record ∧ Stage [] (⟨n, v, span⟩ :: y :: below)
      (.nonterminal p.lhs :: [].drop p.rhs.length) := by
  obtain ⟨hx, -⟩ := hs.state_eq_zero
  obtain ⟨k', p', hdecide', hrule', hlhs, hrhs, haction⟩ :=
    decide_opening (hx ▸ hrow) t
  cases hdecide.symm.trans hdecide'
  cases Option.some.inj (hrule.symm.trans hrule')
  rw [hrhs] at hbelow hverdict ⊢
  rw [haction] at hverdict
  cases hbelow
  obtain ⟨hv, hmade'⟩ := hmade.reduce_keep (v := .list []) rfl hverdict
  cases hv
  rw [hlhs]
  exact ⟨hmade', .body_of_declarations rfl⟩

/-- The entry that was just made goes into the list. -/
theorem stage_of_made {a : H} {z ds bottom : Slot (Value H)} {X : Symbol}
    (hX : EntrySymbol X) (hz : z.value = .handle a) (hds : ds.value = .list entries)
    (hs : Spelled grammar (fun _ _ ↦ True) [z, ds, bottom] [X, Category.declarations.symbol])
    (hmade : Made (entries ++ [a]) s.record) (hrow : tables.row? z.state = some row)
    (hdecide : row.decide t = some (.reduce k)) (hrule : grammar.rules[k]? = some p)
    (hbelow : [z, ds, bottom].drop p.rhs.length = y :: below)
    (hverdict : (reducer i.watched ctx).reduce p.action
      (.ofSlots k p.rhs.length [z, ds, bottom]) s = (verdict, s')) :
    ∃ v, verdict = .value v ∧ Made (entries ++ [a]) s'.record ∧ ∀ n span,
      Stage (entries ++ [a]) (⟨n, v, span⟩ :: y :: below)
        (.nonterminal p.lhs :: [X, Category.declarations.symbol].drop p.rhs.length) := by
  have hedge : ∃ m, grammar.Edge m X z.state := by
    cases hs with
    | push _ he _ => exact ⟨_, he⟩
  obtain ⟨m, hedge⟩ := hedge
  obtain ⟨k', p', hdecide', hrule', hp⟩ := decide_of_entry hX hedge hrow t
  cases hdecide.symm.trans hdecide'
  cases Option.some.inj (hrule.symm.trans hrule')
  rcases hp with ⟨hlhs, hrhs, haction⟩ | ⟨hlhs, hrhs, haction⟩
  · rw [hrhs] at hbelow hverdict ⊢
    rw [haction] at hverdict
    cases hbelow
    obtain ⟨hv, hmade'⟩ := hmade.reduce_keep (v := .list (entries ++ [a])) (by
      change (Production.declarationsEntry.plan _ _).run
        { pending := [ds.value, z.value] } = _
      rw [hds, hz]
      rfl) hverdict
    rw [hlhs]
    exact ⟨_, hv, hmade', fun _ _ ↦ .body_of_declarations rfl⟩
  · rw [hrhs] at hbelow hverdict ⊢
    rw [haction] at hverdict
    cases hbelow
    obtain ⟨hv, hmade'⟩ := hmade.reduce_keep (v := .handle a) (by
      change (Production.forward.plan _ _).run { pending := [z.value] } = _
      rw [hz]
      rfl) hverdict
    rw [hlhs]
    exact ⟨_, hv, hmade', fun _ _ ↦ .made (Or.inl rfl) rfl hds⟩

/-- Above the list of declarations a completed rule may make an entry, which then stands alone. -/
theorem stage_of_above {above : List (Slot (Value H))} {ds bottom : Slot (Value H)}
    (hlength : above.length = xs.length) (habove : ∀ x ∈ xs, ¬EntrySymbol x)
    (hds : ds.value = .list entries)
    (htake : (xs.take p.rhs.length).reverse = p.rhs)
    (hs : Spelled grammar (fun _ _ ↦ True) (y :: below)
      (xs.drop p.rhs.length ++ [Category.declarations.symbol]))
    (hmade : Made entries s.record) (hrule : grammar.rules[k]? = some p)
    (hbelow : above.drop p.rhs.length ++ [ds, bottom] = y :: below)
    (hedge : grammar.Edge y.state (.nonterminal p.lhs) n)
    {red : Reduction (Value H)}
    (hverdict : (reducer i.watched ctx).reduce p.action red s = (.value v, s')) :
    ∃ entries', Made entries' s'.record ∧ Stage entries' (⟨n, v, span⟩ :: y :: below)
      (.nonterminal p.lhs :: xs.drop p.rhs.length ++ [Category.declarations.symbol]) := by
  obtain ⟨hentry, -, -, -, -, -, hforward, -⟩ := declarationRule hrule
  rcases hmade.reduce hverdict
    with ⟨cause, h, -⟩ | ⟨a, hmakes, hv, hmade'⟩ | ⟨w, hmakes, -, hmade'⟩ |
    ⟨message, h, -⟩
  · cases h
  · obtain ⟨c, hc, hlhs⟩ := hentry.mp hmakes
    have hy : y.state = between := by
      refine edge_declaration hedge ?_
      rw [hlhs]
      exact List.mem_map_of_mem (by simp [hc])
    obtain ⟨-, -, hxs⟩ := below_between hs hy
    have hdrop : xs.drop p.rhs.length = [] := List.append_left_eq_self.mp hxs
    have hnone : above.drop p.rhs.length = [] := by
      rw [List.drop_eq_nil_iff] at hdrop ⊢
      omega
    rw [hnone] at hbelow
    cases hbelow
    cases hv
    rw [hdrop, hlhs]
    exact ⟨_, hmade', .made (Or.inr ⟨c, hc, rfl⟩) rfl hds⟩
  · refine ⟨entries, hmade', ?_⟩
    rw [← hbelow]
    refine .body (⟨n, v, span⟩ :: above.drop p.rhs.length)
      (.nonterminal p.lhs :: xs.drop p.rhs.length) ?_ ?_ hds
    · simp [hlength]
    · intro x hx
      rcases List.mem_cons.mp hx with rfl | hx
      · rintro (hlhs | ⟨c, hc, hlhs⟩)
        · obtain ⟨-, c, hc, hrhs⟩ := hforward (Symbol.nonterminal.inj hlhs)
          have hmem : c.symbol ∈ xs.take p.rhs.length := by
            rw [← List.mem_reverse, htake, hrhs]
            exact List.mem_singleton_self _
          exact habove _ (List.mem_of_mem_take hmem) (Or.inr ⟨c, hc, rfl⟩)
        · rw [hentry.mpr ⟨c, hc, Symbol.nonterminal.inj hlhs⟩] at hmakes
          cases hmakes
      · exact habove x (List.mem_of_mem_drop hx)
  · cases h

/-- A rule that takes the list of declarations off the stack puts it back, with the same entries. -/
theorem stage_of_declarations {above : List (Slot (Value H))} {ds bottom : Slot (Value H)}
    (hlength : above.length = xs.length) (habove : ∀ x ∈ xs, ¬EntrySymbol x)
    (hds : ds.value = .list entries)
    (htake : (xs ++ [Category.declarations.symbol]).reverse = p.rhs)
    (hmade : Made entries s.record) (hrule : grammar.rules[k]? = some p)
    (hbelow : (above ++ [ds, bottom]).drop p.rhs.length = y :: below)
    (hverdict : (reducer i.watched ctx).reduce p.action
      (.ofSlots k p.rhs.length (above ++ [ds, bottom])) s = (.value v, s')) :
    Made entries s'.record ∧ Stage entries (⟨n, v, span⟩ :: y :: below) [.nonterminal p.lhs] := by
  have hmem : Category.declarations.symbol ∈ p.rhs := by
    rw [← htake]
    simp
  have hdeclarations := (declarationRule hrule).declarations_mem
  rw [List.reverse_append] at htake
  rcases hdeclarations hmem with ⟨haction, hlhs, hrhs⟩ | ⟨hlhs, ⟨haction, hrhs⟩ |
    ⟨haction, hrhs⟩ | ⟨haction, hrhs⟩⟩ <;>
    rw [hrhs] at htake hbelow hverdict <;> rw [haction] at hverdict
  · obtain rfl : xs = [] := by simpa using htake
    obtain rfl : above = [] := List.length_eq_zero_iff.mp hlength
    cases hbelow
    obtain ⟨hv, hmade'⟩ := hmade.reduce_keep (v := .list entries) (by
      change (Production.file.plan _ _).run { pending := [ds.value] } = _
      rw [hds]
      rfl) hverdict
    cases hv
    rw [hlhs]
    exact ⟨hmade', .closed rfl⟩
  · obtain rfl : xs = [Category.directive.symbol] := by simpa using htake
    obtain ⟨z, rfl⟩ := List.length_eq_one_iff.mp hlength
    cases hbelow
    obtain ⟨hv, hmade'⟩ := hmade.reduce_keep (v := .list entries) (by
      change (Production.declarationsDirective.plan _ _).run
        { pending := [ds.value, z.value] } = _
      rw [hds]
      rfl) hverdict
    cases hv
    rw [hlhs]
    exact ⟨hmade', .body_of_declarations rfl⟩
  · obtain rfl : xs = [Category.entry.symbol] := by simpa using htake
    exact (habove _ (List.mem_singleton_self _) (Or.inl rfl)).elim
  · obtain rfl : xs = [.terminal .error] := by simpa using htake
    obtain ⟨z, rfl⟩ := List.length_eq_one_iff.mp hlength
    cases hbelow
    obtain ⟨hv, hmade'⟩ := hmade.reduce_keep (v := .list entries) (by
      change (Production.declarationsError.plan _ _).run
        { pending := [ds.value, z.value] } = _
      rw [hds]
      rfl) hverdict
    cases hv
    rw [hlhs]
    exact ⟨hmade', .body_of_declarations rfl⟩

/-- Completing a rule keeps the entries, and adds the one that the rule makes. -/
theorem stage_of_reduce (hs : Spelled grammar (fun _ _ ↦ True) (x :: rest) xs)
    (hstage : Stage entries (x :: rest) xs) (hmade : Made entries s.record)
    (hrow : tables.row? x.state = some row) (hdecide : row.decide t = some (.reduce k))
    (hrule : grammar.rules[k]? = some p) (hbelow : (x :: rest).drop p.rhs.length = y :: below)
    (hrow' : tables.row? y.state = some row') (hgoto : row'.goto? p.lhs = some n)
    (hverdict : (reducer i.watched ctx).reduce p.action (.ofSlots k p.rhs.length (x :: rest)) s =
      (.value v, s')) :
    ∃ entries' xs', Made entries' s'.record ∧
      Spelled grammar (fun _ _ ↦ True) (⟨n, v, span⟩ :: y :: below) xs' ∧
      Stage entries' (⟨n, v, span⟩ :: y :: below) xs' := by
  obtain ⟨⟨hle, htake⟩, -, -, hs'⟩ := hs.of_decide hrow hdecide hrule hbelow
  have hedge : grammar.Edge y.state (.nonterminal p.lhs) n :=
    Config.edge_of_goto? (e := engine ctx {}) rfl hrow' hgoto
  have hspelled : Spelled grammar (fun _ _ ↦ True) (⟨n, v, span⟩ :: y :: below)
      (.nonterminal p.lhs :: xs.drop p.rhs.length) := .push hs' hedge trivial
  generalize hslots : x :: rest = slots at hstage
  cases hstage with
  | opening =>
    cases hslots
    obtain ⟨hmade', hstage'⟩ := stage_of_opening hs hmade hrow hdecide hrule hbelow hverdict
    exact ⟨_, _, hmade', hspelled, hstage'⟩
  | @body _ above xs ds bottom hlength habove hds =>
    rw [hslots] at hbelow hverdict
    rw [List.length_append, List.length_singleton] at hle
    by_cases hlt : p.rhs.length ≤ xs.length
    · rw [List.take_append_of_le_length hlt] at htake
      rw [List.drop_append_of_le_length hlt] at hs' hspelled
      rw [List.drop_append_of_le_length (by omega)] at hbelow
      obtain ⟨entries', hmade', hstage'⟩ := stage_of_above hlength habove hds htake hs' hmade
        hrule hbelow hedge hverdict
      exact ⟨_, _, hmade', hspelled, hstage'⟩
    · have hlen : p.rhs.length = xs.length + 1 := by omega
      have hall : (xs ++ [Category.declarations.symbol]).length ≤ p.rhs.length := by simp [hlen]
      rw [List.take_of_length_le hall] at htake
      rw [List.drop_of_length_le hall] at hspelled
      obtain ⟨hmade', hstage'⟩ := stage_of_declarations hlength habove hds htake hmade hrule
        hbelow hverdict
      exact ⟨_, _, hmade', hspelled, hstage'⟩
  | made hX hz hds =>
    cases hslots
    obtain ⟨v', hv, hmade', hstage'⟩ := stage_of_made hX hz hds hs hmade hrow hdecide hrule hbelow
      hverdict
    cases hv
    exact ⟨_, _, hmade', hspelled, hstage' n span⟩
  | closed hy =>
    cases hslots
    have hclosing : x.state = closing := by
      cases hs with
      | push _ he _ => exact (edge_file he).2
    exact (state_ne_closing hs hrow hdecide hrule hbelow hedge hclosing).elim

end Reduce

/-- Where an entry was just made, no token is unexpected. -/
theorem not_fresh_of_decide {entries : List H} {x : Slot (Value H)} {rest : List (Slot (Value H))}
    {xs : List Symbol} {row : Row} {t : Terminal}
    (hs : Spelled grammar (fun _ _ ↦ True) (x :: rest) xs) (hrow : tables.row? x.state = some row)
    (hdecide : row.decide t = none) : ¬Fresh entries (x :: rest) xs := by
  rintro ⟨entries', a, z, ds, bottom, X, -, hthree, rfl, hX, -⟩
  cases hthree
  cases hs with
  | push _ he _ =>
    obtain ⟨k, p, hreduce, -⟩ := decide_of_entry hX he hrow t
    cases hdecide.symm.trans hreduce

/-- Every move keeps the entries that were made. -/
theorem kept_of_moves
    (h : Config.Moves (engine ctx options) (reducer i.watched ctx) c (.running c'))
    (hkept : Kept c) : Kept c' := by
  obtain ⟨entries, xs, hmade, hs, hstage⟩ := hkept
  cases h with
  | shift hslots hrow hpending hdecide hvalue hslots' _ _ _ hmemory =>
    rw [hslots] at hs hstage
    obtain ⟨hs', hstage'⟩ := kept_of_shift hs hstage hrow hdecide
    cases hvalue
    unfold Kept
    rw [hslots', hmemory]
    exact ⟨entries, _, hmade.noise (c.noise_peek _ _), hs', hstage'⟩
  | @reduce x y rest below row row' k n p v m _ hslots hrow hdecide hrule hbelow hrow' hgoto
      hverdict hslots' _ _ _ hmemory =>
    rw [hslots] at hs hstage
    obtain ⟨entries', xs', hmade', hs', hstage'⟩ := stage_of_reduce hs hstage
      (hmade.noise (c.noise_consult _ _ row)) hrow hdecide hrule hbelow hrow' hgoto hverdict
    unfold Kept
    rw [hslots', hmemory]
    exact ⟨entries', xs', hmade', hs', hstage'⟩
  | @reject x y rest below row k p message m d _ hslots hrow hdecide hrule hbelow hverdict _
      hrecover =>
    rw [hslots] at hs hstage
    have hmade' := hmade.noise (c.noise_consult (engine ctx options) (reducer i.watched ctx) row)
    obtain ⟨-, -, -, hs'⟩ := hs.of_decide hrow hdecide hrule hbelow
    have hsplit : (x :: rest).take p.rhs.length ++ y :: below = x :: rest := by
      rw [← hbelow, List.take_append_drop]
    have hrejected : Made entries m.record := by
      rcases hmade'.reduce hverdict with ⟨_, h, -⟩ | ⟨_, -, h, -⟩ | ⟨_, -, h, -⟩ | ⟨_, -, h⟩
      · cases h
      · cases h
      · cases h
      · exact h
    rw [← hsplit] at hs hstage
    refine kept_of_recovers _ hrecover (hrejected.append_none rfl rfl) hstage hs hs' ?_
    rw [hsplit] at hs ⊢
    rintro ⟨entries', a, z, ds, bottom, X, rfl, hthree, rfl, hX, hz, hds⟩
    rw [hthree] at hbelow hverdict hs
    have hrow' : tables.row? z.state = some row := by
      cases hthree
      exact hrow
    obtain ⟨v, hv, -⟩ := stage_of_made hX hz hds hs hmade' hrow' hdecide hrule hbelow hverdict
    cases hv
  | skip hslots hrow hdecide _ _ hmemory hrecover =>
    rw [hslots] at hs hstage
    exact kept_of_recovers [] hrecover (hmade.noise hmemory.noise) hstage hs hs
      (not_fresh_of_decide hs hrow hdecide)
  | fail hslots hrow hdecide _ hmemory hrecover =>
    rw [hslots] at hs hstage
    exact kept_of_recovers [] hrecover (hmade.noise hmemory.noise) hstage hs hs
      (not_fresh_of_decide hs hrow hdecide)

/-- A ledger that is accepted is the list of the entries that were made. -/
theorem made_of_accepted {v : Value H}
    (h : Config.Moves (engine ctx options) (reducer i.watched ctx) c (.accepted v c'))
    (hkept : Kept c) : ∃ entries, v = .list entries ∧ Made entries c'.memory.record := by
  obtain ⟨entries, xs, hmade, hs, hstage⟩ := hkept
  cases h with
  | @accept x y row _ hslots hrow hdecide _ hmemory _ =>
    rw [hslots] at hs hstage
    obtain ⟨-, hhas⟩ : c.upcoming = .endOfInput ∧ grammar.Has x.state ⟨_, 1⟩ :=
      Grammar.allows_of_decide (show grammar.tables.row? x.state = some row from hrow) hdecide
    have hpath := hs.path
    rw [List.map_cons] at hpath
    obtain ⟨-, rfl⟩ := hpath.accept hhas
    have hmade' : Made entries c'.memory.record := by
      rw [hmemory]
      exact hmade.noise (c.noise_peek _ _)
    generalize hxs : [Symbol.nonterminal grammar.start] = xs at hstage
    generalize hxy : [x, y] = slots at hstage
    cases hstage with
    | opening => cases hxs
    | body above xs _ _ _ =>
      obtain ⟨-, hlast⟩ := List.append_inj' (show [] ++ [_] = _ from hxs) rfl
      exact absurd hlast (by decide)
    | made => cases hxs
    | closed hy =>
      cases hxy
      exact ⟨entries, hy, hmade'⟩
  | reject _ _ _ _ _ _ _ hrecover => cases hrecover
  | skip _ _ _ _ _ _ hrecover => cases hrecover
  | fail _ _ _ _ _ hrecover => cases hrecover

end Steps

/-- Every step keeps the entries, and ends with the list of them if it ends with a ledger. -/
theorem post_step {ctx : Context} {options : Options}
    {c : Config (Value H) (Session (σ × List (Exchange H ε)))} (hkept : Kept c) :
    (c.step (engine ctx options) (reducer i.watched ctx)).Post Kept
      (fun v c ↦ ∃ entries, v = .list entries ∧ Made entries c.memory.record)
      (fun _ c ↦ ∃ entries, Made entries c.memory.record) := by
  obtain ⟨entries, xs, hmade, hs, hstage⟩ := hkept
  have hmoves := Config.moves_step (e := engine ctx options) (r := reducer i.watched ctx)
    tables_engine (fun _ _ ↦ not_edge_end) hs.path
  cases hstep : c.step (engine ctx options) (reducer i.watched ctx) with
  | running c' =>
    rw [hstep] at hmoves
    exact kept_of_moves hmoves ⟨entries, xs, hmade, hs, hstage⟩
  | accepted v c' =>
    rw [hstep] at hmoves
    exact made_of_accepted hmoves ⟨entries, xs, hmade, hs, hstage⟩
  | aborted cause c' =>
    rw [hstep] at hmoves
    refine hmoves.touches.keeps (J := fun s ↦ ∃ entries, Made entries s.record)
      ⟨entries, hmade⟩ ?_ ?_ (fun _ _ h ↦ h) ?_
    · rintro d s ⟨entries, h⟩
      exact ⟨entries, h.append_none rfl rfl⟩
    · rintro v s ⟨entries, h⟩
      refine ⟨entries, ?_⟩
      change Made entries (s.releaseAll i.watched v.handles).record
      rwa [record_releaseAll]
    · rintro p red s ⟨entries, h⟩
      obtain ⟨verdict, s', hr⟩ : ∃ verdict s',
          (reducer i.watched ctx).reduce p red s = (verdict, s') := ⟨_, _, rfl⟩
      rw [hr]
      rcases h.reduce hr with ⟨_, -, h⟩ | ⟨_, -, -, h⟩ | ⟨_, -, -, h⟩ | ⟨_, -, h⟩ <;> exact ⟨_, h⟩

theorem ends_run (i : Interpretation H ε σ ω) (ctx : Context) (options : Options)
    (tokens : List Token) (state : σ) :
    Engine.Ends (reducer i.watched ctx) Kept
      (fun v c ↦ ∃ entries, v = .list entries ∧ Made entries c.memory.record)
      (fun _ c ↦ ∃ entries, Made entries c.memory.record)
      (run i.watched ctx options tokens (state, [])) := by
  have hempty : Made [] (⟨(state, []), #[]⟩ : Session (σ × List (Exchange H ε))).record :=
    ⟨rfl, by simp [Session.record]⟩
  refine Engine.ends_run _ _ (Engine.post_start _ _ ?_ ?_) fun c h ↦ post_step h
  · intro c hslots _ _ _ _ hmemory
    unfold Kept
    rw [hslots, hmemory]
    exact ⟨[], [], hempty, .bottom rfl, .opening⟩
  · intro d c hnoise
    exact ⟨[], hempty.noise hnoise⟩

/-- What a run accepts are the entries that were made in it. -/
theorem made_of_run {i : Interpretation H ε σ ω} {ctx : Context} {options : Options}
    {tokens : List Token} {state : σ} {v : Value H}
    {c : Config (Value H) (Session (σ × List (Exchange H ε)))}
    (h : run i.watched ctx options tokens (state, []) = (.accepted v, c)) :
    ∃ entries, v = .list entries ∧ Made entries c.memory.record := by
  have hends := ends_run i ctx options tokens state
  rw [h] at hends
  generalize hout : (Outcome.accepted v, c) = out at hends
  cases hends with
  | accepted hmade =>
    cases hout
    obtain ⟨entries, hv, hmade⟩ := hmade
    exact ⟨entries, hv, hmade.noise (Engine.noise_clear (reducer i.watched ctx) _)⟩
  | aborted => cases hout
  | unfinished => cases hout

/-- If the parse is complete, the last call, and the only one of its kind, was to finish the
entries that were made, in the order in which they were made. If it is not, there was no such
call. -/
def FinishesEntries : Parsed ω × σ × List (Exchange H ε) → Prop
  | (.complete _ _, _, calls) => ∃ before, calls =
      before ++ [.finish (Exchange.entries before)] ∧ ∀ x ∈ before, x.isFinish = false
  | (_, _, calls) => ∀ x ∈ calls, x.isFinish = false

theorem finishesEntries_parse (i : Interpretation H ε σ ω) (ctx : Context) (options : Options)
    (tokens : List Token) (state : σ) :
    FinishesEntries (parse i.watched ctx options tokens (state, [])) := by
  have hends := ends_run i ctx options tokens state
  rw [parse]
  generalize run i.watched ctx options tokens (state, []) = out at hends ⊢
  cases hends with
  | @accepted v c h =>
    obtain ⟨entries, rfl, hmade⟩ := h
    obtain ⟨hentries, hbefore⟩ := hmade.noise (Engine.noise_clear (reducer i.watched ctx) c)
    refine ⟨_, ?_, hbefore⟩
    rw [hentries]
    rfl
  | @aborted cause c d h _ =>
    obtain ⟨entries, hmade⟩ := h
    exact (hmade.noise ((Engine.noise_clear (reducer i.watched ctx) c).report d)).2
  | unfinished h =>
    obtain ⟨entries, xs, hmade, -⟩ := h
    exact hmade.2

end PlainLedger.Language
