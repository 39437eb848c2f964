import PlainLedger.Proofs.Machine.Pieces

/-!
# Where completed rules stand

A rule is completed at the place of its parts. What is written as nothing stands where the slot
below it ends. Anything else ends where the last of its tokens ends and, unless something that is
written as nothing comes first, begins where the first of them begins; only skipped text may stand
elsewhere.
-/

namespace PlainLedger

variable {α V σ : Type}

namespace Span

/-- The first position of a span. -/
def beginPoint (s : Span) : Span := point s.firstLine s.firstColumn

@[simp] theorem beginPoint_cover (s t : Span) : (cover s t).beginPoint = s.beginPoint := rfl

end Span

namespace Piece

/-- The last token among pieces. -/
def last? (ps : List Piece) : Option Token := (ps.filterMap token?).getLast?

theorem last?_append_of_none {ps qs : List Piece} (h : last? qs = none) :
    last? (ps ++ qs) = last? ps := by
  rw [last?, List.getLast?_eq_none_iff] at h
  rw [last?, List.filterMap_append, h, List.append_nil]
  rfl

theorem last?_append_of_some {ps qs : List Piece} {t : Token} (h : last? qs = some t) :
    last? (ps ++ qs) = some t := by
  unfold last? at h ⊢
  rw [List.filterMap_append, List.getLast?_append, h]
  rfl

/-- Pieces without a token and without skipped text. -/
theorem eq_nothing_of_last? {ps : List Piece} (hskipped : ∀ p ∈ ps, p.isSkipped = false)
    (h : last? ps = none) : ∀ p ∈ ps, p = .nothing := by
  rw [last?, List.getLast?_eq_none_iff, List.filterMap_eq_nil_iff] at h
  intro p hp
  cases p with
  | token t => cases h _ hp
  | skipped span => cases hskipped _ hp
  | nothing => rfl

end Piece

/-- The span is that of the pieces, which stand after `before`. -/
structure Anchored (before span : Span) (ps : List Piece) : Prop where
  ne_nil : ps ≠ []
  nothing : (∀ p ∈ ps, p = .nothing) → span = before.endPoint
  ends : (∀ p ∈ ps, p.isSkipped = false) → ∀ t ∈ Piece.last? ps, span.endPoint = t.span.endPoint
  begins : (∀ p ∈ ps, p.isSkipped = false) → ∀ t rest, ps = .token t :: rest →
    span.beginPoint = t.span.beginPoint

namespace Anchored

theorem token (before : Span) (t : Token) : Anchored before t.span [.token t] where
  ne_nil := List.cons_ne_nil _ _
  nothing h := by cases h _ (List.mem_singleton.mpr rfl)
  ends _ := by
    rintro _ ⟨⟩
    rfl
  begins _ := by
    rintro _ _ ⟨⟩
    rfl

theorem skipped (before span : Span) (skipped : Span) :
    Anchored before span [.skipped skipped] where
  ne_nil := List.cons_ne_nil _ _
  nothing h := by cases h _ (List.mem_singleton.mpr rfl)
  ends h := by cases h _ (List.mem_singleton.mpr rfl)
  begins h := by cases h _ (List.mem_singleton.mpr rfl)

theorem blank (before : Span) : Anchored before before.endPoint [.nothing] where
  ne_nil := List.cons_ne_nil _ _
  nothing _ := rfl
  ends _ := by rintro _ ⟨⟩
  begins _ := by rintro _ _ ⟨⟩

/-- What stands next to each other. -/
theorem append {before span last span' : Span} {ps qs : List Piece} (h : Anchored before span ps)
    (hlast : span.endPoint = last.endPoint) (h' : Anchored last span' qs) :
    Anchored before (Span.cover span span') (ps ++ qs) where
  ne_nil := List.append_ne_nil_of_left_ne_nil h.ne_nil _
  nothing hps := by
    rw [h'.nothing fun p hp ↦ hps p (List.mem_append_right _ hp), ← hlast,
      h.nothing fun p hp ↦ hps p (List.mem_append_left _ hp)]
    rfl
  ends hskipped := by
    have hps : ∀ p ∈ ps, p.isSkipped = false := fun p hp ↦ hskipped p (List.mem_append_left _ hp)
    have hqs : ∀ p ∈ qs, p.isSkipped = false := fun p hp ↦ hskipped p (List.mem_append_right _ hp)
    intro t ht
    rw [Span.endPoint_cover]
    cases hq : Piece.last? qs with
    | some t' =>
      rw [Piece.last?_append_of_some hq] at ht
      cases ht
      exact h'.ends hqs t hq
    | none =>
      rw [Piece.last?_append_of_none hq] at ht
      rw [h'.nothing (Piece.eq_nothing_of_last? hqs hq), ← hlast]
      exact h.ends hps t ht
  begins hskipped t rest heq := by
    obtain ⟨p, ps, rfl⟩ := List.exists_cons_of_ne_nil h.ne_nil
    cases heq
    rw [Span.beginPoint_cover]
    exact h.begins (fun p hp ↦ hskipped p (List.mem_append_left _ hp)) t ps rfl

end Anchored

/-! ## Stacks -/

/-- The slot stands at its pieces, above the topmost of the slots. -/
def Stands (_ : Symbol) (below : List (Slot V)) (x : Slot V) (ps : List Piece) : Prop :=
  ∀ y ∈ below.head?, Anchored y.span x.span ps

section Stacks

variable {g : Grammar α} {slots : List (Slot V)} {xs : List Symbol} {pss : List (List Piece)}

/-- The topmost slots together stand at their pieces, above the slot below them. -/
theorem Pieced.anchored (k : Nat) (h : Pieced g Stands slots xs pss) {n : Nat}
    (hn : n + 1 ≤ xs.length) :
    ∃ x y below, slots.head? = some x ∧ slots.drop (n + 1) = y :: below ∧
      (Reduction.ofSlots k (n + 1) slots).span.endPoint = x.span.endPoint ∧
      Anchored y.span (Reduction.ofSlots k (n + 1) slots).span
        (pss.take (n + 1)).reverse.flatten := by
  induction h generalizing n with
  | bottom => cases hn
  | @push x y slots X xs ps pss h _ hx ih =>
    cases n with
    | zero =>
      refine ⟨x, y, slots, rfl, rfl, rfl, ?_⟩
      rw [span_ofSlots_one]
      simpa using hx y rfl
    | succ n =>
      have hn' : n + 1 ≤ xs.length := Nat.le_of_succ_le_succ hn
      obtain ⟨_, z, below, ⟨⟩, hbelow, hends, hparts⟩ := ih hn'
      have hlen := h.spelled.length_eq
      have hspan := span_ofSlots_succ k x (show n + 1 ≤ (y :: slots).length by omega)
      refine ⟨x, z, below, rfl, hbelow, ?_, ?_⟩
      · rw [hspan]
        rfl
      · rw [hspan, List.take_succ_cons, List.reverse_cons, List.flatten_append]
        simpa using hparts.append hends (hx y rfl)

/-- A completed rule stands at its pieces, above the slot below it. -/
theorem Pieced.anchored_ofSlots (k : Nat) (h : Pieced g Stands slots xs pss) {n : Nat}
    (hn : n ≤ xs.length) :
    ∃ y below, slots.drop n = y :: below ∧
      Anchored y.span (Reduction.ofSlots k n slots).span
        ((Reduction.ofSlots k n slots).pieces pss) ∧
      (n = 0 → (Reduction.ofSlots k n slots).span = y.span.endPoint) := by
  have hlen := h.spelled.length_eq
  have hvalues := length_values_ofSlots k (show n ≤ slots.length by omega)
  cases n with
  | zero =>
    obtain ⟨y, below, rfl⟩ := List.exists_cons_of_ne_nil h.spelled.ne_nil
    refine ⟨y, below, rfl, ?_, fun _ ↦ rfl⟩
    exact .blank y.span
  | succ n =>
    obtain ⟨_, y, below, -, hbelow, -, hparts⟩ := h.anchored k hn
    refine ⟨y, below, hbelow, ?_, nofun⟩
    rw [Reduction.pieces, hvalues]
    exact hparts

end Stacks

section Runs

variable {e : Engine α} {r : Reducer α V σ} {m₀ m : σ} {evs before : List (Event V)}
  {slots : List (Slot V)} {pss : List (List Piece)} {red : Reduction V} {verdict : Verdict V}

/-- Each slot stands at its pieces at every moment. -/
theorem Trace.stands (h : Trace e r m₀ evs slots m) :
    ∃ xs, Pieced e.grammar Stands slots xs (pieces evs) := by
  refine h.keeps (P := fun evs slots _ ↦ ∃ xs, Pieced e.grammar Stands slots xs (pieces evs))
    ⟨[], .bottom rfl⟩ ?_
  rintro evs slots slots' m m' ev - ⟨xs, hs⟩ hev
  rw [pieces_concat]
  refine hev.pieced hs ?_ ?_ ?_
  · exact fun t n v _ _ y _ ↦ Anchored.token y.span t
  · exact fun n span _ y _ ↦ .skipped y.span span span
  · rintro x rest k p y below n v rfl hrule hhas hbelow - -
    obtain ⟨y', below', hbelow', hanchored, -⟩ :=
      hs.anchored_ofSlots k (hs.spelled.reduce hrule hhas).1
    cases hbelow.symm.trans hbelow'
    rintro _ ⟨⟩
    exact hanchored

/-- The completed rule stands where its pieces do: if it has no symbols, at the end of the slot
below it; otherwise it ends with its last token, and begins with its first one unless something that
is written as nothing precedes it. Skipped text may stand elsewhere. -/
structure Reduction.Placed (red : Reduction V) (ps : List Piece) : Prop where
  blank : red.values = [] → ∃ y below, red.below = y :: below ∧ red.span = y.span.endPoint
  ends : (∀ p ∈ ps, p.isSkipped = false) → ∀ t ∈ Piece.last? ps, red.span.endPoint = t.span.endPoint
  begins : (∀ p ∈ ps, p.isSkipped = false) → ∀ t rest, ps = .token t :: rest →
    red.span.beginPoint = t.span.beginPoint

theorem Completed.placed (h : Completed e r m₀ before red verdict) :
    red.Placed (red.pieces (pieces before)) := by
  obtain ⟨x, rest, m, m', k, p, htrace, hrule, hhas, rfl, -⟩ := h
  obtain ⟨xs, hs⟩ := htrace.stands
  have hle := (hs.spelled.reduce hrule hhas).1
  have hlen := hs.spelled.length_eq
  have hvalues := length_values_ofSlots k (show p.rhs.length ≤ (x :: rest).length by omega)
  obtain ⟨y, below, hbelow, hanchored, hblank⟩ := hs.anchored_ofSlots k hle
  refine ⟨fun hnil ↦ ⟨y, below, hbelow, hblank ?_⟩, hanchored.ends, hanchored.begins⟩
  rw [← hvalues, hnil]
  rfl

/-- Every rule that a run completes stands where its pieces do, also after errors. -/
theorem Engine.placed_run (hg : e.tables = e.grammar.tables) {budget : Nat} {input : List Token}
    (h : (pss, .reduce red verdict) ∈ history (e.run r budget input m).2.log.toList) :
    red.Placed (red.pieces pss) := by
  obtain ⟨before, after, hlog, rfl⟩ := mem_history.mp h
  exact (Engine.completed_run hg hlog).placed

end Runs

end PlainLedger
