import PlainLedger.Proofs.Language.Between
import PlainLedger.Proofs.Machine.Clock

/-!
# Layout of warnings

A warning about a form out of use names the line on which the list begins that the form stands in.
The phrases on a parse stack stand one after the other in the source, and the warnings that came up
while they were read lie on the lines of the phrase each, for lists all of them on its first line.
So the warnings are in the order of the source, and what is put together from several phrases
inherits that.
-/

namespace PlainLedger.Language

variable {V : Type}

/-! ## Kinds of symbols -/

/-- The symbols of whole declarations and of skipped text. -/
def restingSymbols : List Symbol :=
  .terminal .error :: [Category.file, .declarations].map Category.symbol

/-- Lists with forms out of use. -/
def listSymbols : List Symbol := [Category.txnFields, .lotCompList].map Category.symbol

/-- The phrases that such a list may be part of. -/
def loudSymbols : List Symbol :=
  [Category.entry, .transaction, .txnFields, .postingOrKvList, .posting, .position, .lotSpec,
    .lotCompList].map Category.symbol

/-- The phrases that may be written as nothing, the list of declarations apart. -/
def hollowSymbols : List Symbol :=
  [Category.txnFields, .optFlag, .keyValueValue, .postingOrKvList, .keyValueList, .currencyList,
    .optBooking, .maybeNumber, .lotCompList].map Category.symbol

theorem listSymbols_subset : listSymbols ⊆ loudSymbols := by decide

section Rules

variable {k : Nat} {p : Rule Production} (h : grammar.rules[k]? = some p)

include h

theorem not_resting_of_rule (hp : p.action.gathers = false) :
    .nonterminal p.lhs ∉ restingSymbols ∧ ∀ X ∈ p.rhs, X ∉ restingSymbols := by
  have hall : ∀ p ∈ grammar.rules, p.action.gathers = false →
      .nonterminal p.lhs ∉ restingSymbols ∧ ∀ X ∈ p.rhs, X ∉ restingSymbols := by decide +kernel
  exact hall p (List.mem_of_getElem? h) hp

theorem resting_of_rule (hp : p.action.gathers = true) :
    p.lhs = Category.file.index ∨ p.lhs = Category.declarations.index := by
  have hall : ∀ p ∈ grammar.rules, p.action.gathers = true →
      p.lhs = Category.file.index ∨ p.lhs = Category.declarations.index := by decide +kernel
  exact hall p (List.mem_of_getElem? h) hp

/-- A phrase for which nothing is written is hollow, and others have a part that is not. -/
theorem hollow_of_rule (hp : p.action.gathers = false) :
    (p.rhs = [] → p.action.isBlank = true ∧ .nonterminal p.lhs ∈ hollowSymbols) ∧
      (p.rhs ≠ [] → ∃ X ∈ p.rhs, X ∉ hollowSymbols) := by
  have hall : ∀ p ∈ grammar.rules, p.action.gathers = false →
      (p.rhs = [] → p.action.isBlank = true ∧ .nonterminal p.lhs ∈ hollowSymbols) ∧
        (p.rhs ≠ [] → ∃ X ∈ p.rhs, X ∉ hollowSymbols) := by decide +kernel
  exact hall p (List.mem_of_getElem? h) hp

/-- A phrase with a list in it is loud. Only the list itself can begin with such a list, and no
other part of it is loud. -/
theorem loud_of_rule (hp : p.action.gathers = false) :
    (.nonterminal p.lhs ∉ loudSymbols → ∀ X ∈ p.rhs, X ∉ loudSymbols) ∧
      (.nonterminal p.lhs ∈ listSymbols →
        (∀ X ∈ p.rhs.tail, X ∉ loudSymbols) ∧ ∀ X ∈ p.rhs, X ∈ loudSymbols → X ∈ listSymbols) := by
  have hall : ∀ p ∈ grammar.rules, p.action.gathers = false →
      (.nonterminal p.lhs ∉ loudSymbols → ∀ X ∈ p.rhs, X ∉ loudSymbols) ∧
        (.nonterminal p.lhs ∈ listSymbols → (∀ X ∈ p.rhs.tail, X ∉ loudSymbols) ∧
          ∀ X ∈ p.rhs, X ∈ loudSymbols → X ∈ listSymbols) := by decide +kernel
  exact hall p (List.mem_of_getElem? h) hp

/-- Warnings come up in lists. -/
theorem list_of_warns (hp : p.action.warns = true) :
    p.action.gathers = false ∧ .nonterminal p.lhs ∈ listSymbols ∧ p.rhs ≠ [] := by
  have hall : ∀ p ∈ grammar.rules, p.action.warns = true →
      p.action.gathers = false ∧ .nonterminal p.lhs ∈ listSymbols ∧ p.rhs ≠ [] := by
    decide +kernel
  exact hall p (List.mem_of_getElem? h) hp

/-- What warns, and what nothing is read ahead after, ends with a symbol that nothing is read ahead
after. -/
theorem brisk_of_rule (hp : p.action.warns = true ∨ Brisk (.nonterminal p.lhs)) :
    ∃ X ∈ p.rhs.getLast?, Brisk X := by
  have hall : ∀ p ∈ grammar.rules, p.action.warns = true ∨ Brisk (.nonterminal p.lhs) →
      ∃ X ∈ p.rhs.getLast?, Brisk X := by decide +kernel
  exact hall p (List.mem_of_getElem? h) hp

end Rules

/-! ## Warnings of a phrase -/

/-- The warnings of a phrase lie on its lines. -/
structure Marks (ctx : Context) (X : Symbol) (span : Span) (es : List Diagnostic) : Prop where
  within : ∀ d ∈ es, d.kind = .deprecated ∧ ctx.lineOf span ≤ d.line ∧
    d.line ≤ ctx.reported span.lastLine
  quiet : X ∉ loudSymbols → es = []
  list : X ∈ listSymbols → ∀ d ∈ es, d.line = ctx.lineOf span

theorem marks_nil (ctx : Context) (X : Symbol) (span : Span) : Marks ctx X span [] :=
  ⟨nofun, fun _ ↦ rfl, fun _ ↦ nofun⟩

/-- The slots above those of whole declarations stand one after the other, below the lines of the
`old` diagnostics; the others have come up in them, in that order. Phrases that are not written as
nothing do not begin after the line `now`. -/
inductive Laid (ctx : Context) (now : Nat) (old : List Diagnostic) :
    List (Slot V) → List Symbol → List Diagnostic → Prop where
  | rest {slots : List (Slot V)} {xs : List Symbol} (hxs : ∀ X ∈ xs, X ∈ restingSymbols) :
      Laid ctx now old slots xs []
  | push {x y : Slot V} {slots : List (Slot V)} {X : Symbol} {xs : List Symbol}
      {ds es : List Diagnostic} (h : Laid ctx now old (y :: slots) xs ds) (hX : X ∉ restingSymbols)
      (hproper : x.span.firstLine ≤ x.span.lastLine)
      (hbelow : (∀ X ∈ xs, X ∈ restingSymbols) ∨ y.span.lastLine ≤ x.span.firstLine)
      (hold : ∀ d ∈ old, d.line ≤ ctx.lineOf x.span)
      (hnow : X ∉ hollowSymbols → x.span.firstLine ≤ now) (hmarks : Marks ctx X x.span es) :
      Laid ctx now old (x :: y :: slots) (X :: xs) (ds ++ es)

/-- Several phrases that make up one, which takes up the span. -/
structure Stretch (ctx : Context) (now : Nat) (old : List Diagnostic) (Xs : List Symbol)
    (span : Span) (es : List Diagnostic) : Prop where
  proper : span.firstLine ≤ span.lastLine
  old : ∀ d ∈ old, d.line ≤ ctx.lineOf span
  now : (∃ X ∈ Xs, X ∉ hollowSymbols) → span.firstLine ≤ now
  within : ∀ d ∈ es, d.kind = .deprecated ∧ ctx.lineOf span ≤ d.line ∧
    d.line ≤ ctx.reported span.lastLine
  quiet : (∀ X ∈ Xs, X ∉ loudSymbols) → es = []
  list : (∀ X ∈ Xs.dropLast, X ∉ loudSymbols) → (∀ X ∈ Xs, X ∈ loudSymbols → X ∈ listSymbols) →
    ∀ d ∈ es, d.line = ctx.lineOf span

/-- The slot is above those of whole declarations only, or the one below it ends where the span
begins. -/
def Above (slots : List (Slot V)) (xs : List Symbol) (span : Span) : Prop :=
  (∀ X ∈ xs, X ∈ restingSymbols) ∨ ∀ y ∈ slots.head?, y.span.lastLine ≤ span.firstLine

/-- Another phrase after those of a stretch. -/
theorem Stretch.snoc {ctx : Context} {now : Nat} {old es es' : List Diagnostic} {X : Symbol}
    {Xs : List Symbol} {span : Span} {x : Slot V} (h : Stretch ctx now old Xs span es)
    (hends : span.lastLine ≤ x.span.firstLine) (hproper : x.span.firstLine ≤ x.span.lastLine)
    (hnow : X ∉ hollowSymbols → x.span.firstLine ≤ now) (hmarks : Marks ctx X x.span es')
    (hne : Xs ≠ []) : Stretch ctx now old (X :: Xs) (Span.cover span x.span) (es ++ es') := by
  have hbegins : span.firstLine ≤ x.span.firstLine := h.proper.trans hends
  refine ⟨hbegins.trans hproper, h.old, ?_, ?_, ?_, ?_⟩
  · rintro ⟨Y, hY, hhollow⟩
    rcases List.mem_cons.mp hY with rfl | hY
    · exact hbegins.trans (hnow hhollow)
    · exact h.now ⟨Y, hY, hhollow⟩
  · intro d hd
    rcases List.mem_append.mp hd with hd | hd
    · obtain ⟨hkind, hfirst, hlast⟩ := h.within d hd
      exact ⟨hkind, hfirst, hlast.trans (ctx.reported_mono (hends.trans hproper))⟩
    · obtain ⟨hkind, hfirst, hlast⟩ := hmarks.within d hd
      exact ⟨hkind, (ctx.reported_mono hbegins).trans hfirst, hlast⟩
  · intro hquiet
    rw [h.quiet fun Y hY ↦ hquiet Y (List.mem_cons_of_mem _ hY),
      hmarks.quiet (hquiet X (List.mem_cons_self ..)), List.append_nil]
  · intro hquiet hlist d hd
    rw [List.dropLast_cons_of_ne_nil hne] at hquiet
    rw [hmarks.quiet (hquiet X (List.mem_cons_self ..)), List.append_nil] at hd
    exact h.list (fun Y hY ↦ hquiet Y (List.mem_cons_of_mem _ hY))
      (fun Y hY ↦ hlist Y (List.mem_cons_of_mem _ hY)) d hd

section Laid

variable {ctx : Context} {now : Nat} {old ds : List Diagnostic} {slots : List (Slot V)}
  {xs : List Symbol}

theorem Laid.mono {now' : Nat} (h : Laid ctx now old slots xs ds) (hle : now ≤ now') :
    Laid ctx now' old slots xs ds := by
  induction h with
  | rest hxs => exact .rest hxs
  | push _ hX hproper hbelow hold hnow hmarks ih =>
    exact .push ih hX hproper hbelow hold (fun hX ↦ (hnow hX).trans hle) hmarks

/-- The topmost slots, and what is below them. -/
theorem Laid.stretch (k : Nat) (h : Laid ctx now old slots xs ds) {n : Nat}
    (hlen : slots.length = xs.length + 1) (hn : n + 1 ≤ xs.length)
    (hX : ∀ X ∈ xs.take (n + 1), X ∉ restingSymbols) :
    ∃ ds₀ es, ds = ds₀ ++ es ∧
      Laid ctx now old (slots.drop (n + 1)) (xs.drop (n + 1)) ds₀ ∧
      Stretch ctx now old (xs.take (n + 1)) (Reduction.ofSlots k (n + 1) slots).span es ∧
      Above (slots.drop (n + 1)) (xs.drop (n + 1)) (Reduction.ofSlots k (n + 1) slots).span ∧
      ∀ x ∈ slots.head?, (Reduction.ofSlots k (n + 1) slots).span.lastLine = x.span.lastLine := by
  induction h generalizing n with
  | @rest slots xs hxs =>
    obtain ⟨X, xs, rfl⟩ := List.exists_cons_of_length_pos (Nat.lt_of_lt_of_le (Nat.succ_pos n) hn)
    exact (hX X (List.mem_cons_self ..) (hxs X (List.mem_cons_self ..))).elim
  | @push x y slots X xs ds es h hx hproper hbelow hold hnow hmarks ih =>
    cases n with
    | zero =>
      refine ⟨ds, es, rfl, h, ?_, ?_, ?_⟩
      · rw [span_ofSlots_one]
        refine ⟨hproper, hold, ?_, hmarks.within, ?_, ?_⟩
        · rintro ⟨Y, hY, hhollow⟩
          cases List.mem_singleton.mp hY
          exact hnow hhollow
        · exact fun hquiet ↦ hmarks.quiet (hquiet X (List.mem_singleton.mpr rfl))
        · intro _ hlist d hd
          by_cases hloud : X ∈ loudSymbols
          · exact hmarks.list (hlist X (List.mem_singleton.mpr rfl) hloud) d hd
          · rw [hmarks.quiet hloud] at hd
            cases hd
      · refine hbelow.imp id fun hle z hz ↦ ?_
        cases hz
        exact hle
      · rintro _ ⟨⟩
        rfl
    | succ n =>
      simp only [List.length_cons] at hlen hn
      obtain ⟨ds₀, es₀, rfl, hlaid, hstretch, habove, hlast⟩ := ih (n := n)
        (by simp only [List.length_cons]; omega) (by omega) fun Y hY ↦
          hX Y (List.mem_cons_of_mem _ hY)
      have hspan := span_ofSlots_succ k x (show n + 1 ≤ (y :: slots).length by
        simp only [List.length_cons]; omega)
      replace hlast := hlast y rfl
      set span := (Reduction.ofSlots k (n + 1) (y :: slots)).span
      -- what is below the topmost slot is no declaration, and so ends where the slot begins
      have hends : span.lastLine ≤ x.span.firstLine := by
        rw [hlast]
        refine hbelow.resolve_left fun hrest ↦ ?_
        obtain ⟨Y, ys, rfl⟩ := List.exists_cons_of_length_pos (l := xs) (by omega)
        exact hX Y (by simp) (hrest Y (List.mem_cons_self ..))
      refine ⟨ds₀, es₀ ++ es, List.append_assoc .., hlaid, ?_, ?_, ?_⟩
      · rw [hspan]
        refine hstretch.snoc (x := x) hends hproper hnow hmarks ?_
        rw [ne_eq, List.take_eq_nil_iff]
        rintro (h' | rfl)
        · omega
        · exact absurd hn (by simp)
      · rw [hspan]
        exact habove
      · rw [hspan]
        rintro _ ⟨⟩
        rfl

theorem Laid.kind_eq (h : Laid ctx now old slots xs ds) : ∀ d ∈ ds, d.kind = .deprecated := by
  induction h with
  | rest => exact nofun
  | push _ _ _ _ _ _ hmarks ih =>
    intro d hd
    rcases List.mem_append.mp hd with hd | hd
    · exact ih d hd
    · exact (hmarks.within d hd).1

theorem Laid.eq_nil (h : Laid ctx now old slots xs ds) (hxs : ∀ X ∈ xs, X ∈ restingSymbols) :
    ds = [] := by
  cases h with
  | rest => rfl
  | push _ hX => exact (hX (hxs _ (List.mem_cons_self ..))).elim

/-- No warning goes beyond the topmost phrase. -/
theorem Laid.line_le {x : Slot V} {rest : List (Slot V)} (h : Laid ctx now old (x :: rest) xs ds) :
    ∀ d ∈ ds, d.line ≤ ctx.reported x.span.lastLine := by
  generalize hslots : x :: rest = slots at h
  induction h generalizing x rest with
  | rest => exact nofun
  | @push x' y slots X xs ds es h hX hproper hbelow _ _ hmarks ih =>
    cases hslots
    intro d hd
    rcases List.mem_append.mp hd with hd | hd
    · rcases hbelow with hrest | hends
      · rw [h.eq_nil hrest] at hd
        cases hd
      · exact (ih rfl d hd).trans (ctx.reported_mono (hends.trans hproper))
    · exact (hmarks.within d hd).2.2

/-- What is written as nothing stands where the topmost phrase ends. -/
theorem Laid.blank {x : Slot V} {rest : List (Slot V)} {X Y : Symbol}
    (h : Laid ctx now old (x :: rest) (X :: xs) ds) (hX : X ∉ restingSymbols)
    (hY : Y ∉ restingSymbols) (hhollow : Y ∈ hollowSymbols) (n : Nat) (v : V) :
    Laid ctx now old (⟨n, v, x.span.endPoint⟩ :: x :: rest) (Y :: X :: xs) ds := by
  rw [← List.append_nil ds]
  refine .push h hY le_rfl (Or.inr le_rfl) ?_ (absurd hhollow) (marks_nil ctx Y _)
  cases h with
  | rest hxs => exact (hX (hxs X (List.mem_cons_self ..))).elim
  | push _ _ hproper _ hold _ _ =>
    exact fun d hd ↦ (hold d hd).trans (ctx.reported_mono hproper)

/-- A completed rule, some of whose parts are written. The warnings that came up in its parts are
the last ones; together with a new one they are those of the phrase. -/
theorem Laid.complete {k : Nat} {p : Rule Production} {y : Slot V} {below : List (Slot V)}
    (h : Laid ctx now old slots xs ds) (hrule : grammar.rules[k]? = some p)
    (hp : p.action.gathers = false) (hne : p.rhs ≠ []) (hlen : slots.length = xs.length + 1)
    (hle : p.rhs.length ≤ xs.length) (htake : (xs.take p.rhs.length).reverse = p.rhs)
    (hbelow : slots.drop p.rhs.length = y :: below) :
    let span := (Reduction.ofSlots k p.rhs.length slots).span
    (∀ d ∈ old, d.line ≤ ctx.lineOf span) ∧ span.firstLine ≤ now ∧
      (∀ x ∈ slots.head?, span.lastLine = x.span.lastLine) ∧
      (p.action.warns = true → ∀ d ∈ ds, d.line ≤ ctx.lineOf span) ∧
      ∀ (n : Nat) (v : V) (ds' : List Diagnostic), ds' = [] ∨
          (p.action.warns = true ∧ ∃ d, ds' = [d] ∧ d.kind = .deprecated ∧
            d.line = ctx.lineOf span) →
        Laid ctx now old (⟨n, v, span⟩ :: y :: below) (.nonterminal p.lhs :: xs.drop p.rhs.length)
          (ds ++ ds') := by
  obtain ⟨hlhs, hrhs⟩ := not_resting_of_rule hrule hp
  obtain ⟨hquiet, hlist⟩ := loud_of_rule hrule hp
  obtain ⟨hhollow, hsolid⟩ := hollow_of_rule hrule hp
  obtain ⟨m, hm⟩ := Nat.exists_eq_succ_of_ne_zero (mt List.length_eq_zero_iff.mp hne)
  have hparts := List.reverse_eq_iff.mp htake
  rw [hm] at hle hparts hbelow ⊢
  obtain ⟨ds₀, es, rfl, hlaid, hstretch, habove, hlast⟩ := h.stretch k hlen hle (by
    rw [hparts]
    exact fun X hX ↦ hrhs X (List.mem_reverse.mp hX))
  rw [hbelow] at hlaid habove
  rw [hparts] at hstretch
  dsimp only
  set span := (Reduction.ofSlots k m.succ slots).span
  have hnow : span.firstLine ≤ now := by
    obtain ⟨X, hX, hpart⟩ := hsolid hne
    exact hstretch.now ⟨X, List.mem_reverse.mpr hX, hpart⟩
  have hes : .nonterminal p.lhs ∈ listSymbols → ∀ d ∈ es, d.line = ctx.lineOf span := by
    intro hmem
    obtain ⟨htail, hloud⟩ := hlist hmem
    refine hstretch.list ?_ fun X hX ↦ hloud X (List.mem_reverse.mp hX)
    rw [List.dropLast_reverse]
    exact fun X hX ↦ htail X (List.mem_reverse.mp hX)
  refine ⟨hstretch.old, hnow, hlast, ?_, ?_⟩
  · intro hwarns d hd
    rcases List.mem_append.mp hd with hd | hd
    · rcases habove with hrest | hends
      · rw [hlaid.eq_nil hrest] at hd
        cases hd
      · exact (hlaid.line_le d hd).trans (ctx.reported_mono (hends y rfl))
    · exact (hes (list_of_warns hrule hwarns).2.1 d hd).le
  · intro n v ds' hds'
    have hnew : ∀ d ∈ ds', .nonterminal p.lhs ∈ listSymbols ∧ d.kind = .deprecated ∧
        d.line = ctx.lineOf span := by
      rcases hds' with rfl | ⟨hwarns, d, rfl, hkind, hline⟩
      · exact nofun
      · intro d' hd'
        cases List.mem_singleton.mp hd'
        exact ⟨(list_of_warns hrule hwarns).2.1, hkind, hline⟩
    rw [List.append_assoc]
    refine .push hlaid hlhs hstretch.proper (habove.imp id fun hends ↦ hends y rfl) hstretch.old
      (fun _ ↦ hnow) ⟨?_, ?_, ?_⟩
    · intro d hd
      rcases List.mem_append.mp hd with hd | hd
      · exact hstretch.within d hd
      · obtain ⟨-, hkind, hline⟩ := hnew d hd
        exact ⟨hkind, hline.ge, hline.le.trans (ctx.reported_mono hstretch.proper)⟩
    · intro hloud
      rw [hstretch.quiet fun X hX ↦ hquiet hloud X (List.mem_reverse.mp hX), List.nil_append]
      refine List.eq_nil_iff_forall_not_mem.mpr fun d hd ↦ hloud ?_
      exact listSymbols_subset (hnew d hd).1
    · intro hmem d hd
      rcases List.mem_append.mp hd with hd | hd
      · exact hes hmem d hd
      · exact (hnew d hd).2.2

end Laid

end PlainLedger.Language
