import PlainLedger.Proofs.Grammar.Forest
import PlainLedger.Proofs.Machine.Reading
import PlainLedger.Proofs.Machine.Trace

/-!
# What is on the stack

The stack of a machine spells the beginning of a sentence: each slot above the bottom stands for a
symbol, and its value is what the reducer makes of a derivation tree of that symbol. So a completed
rule finds its right-hand side on top of the stack, the machine itself never goes wrong, and what is
accepted is what the reducer makes of a derivation tree of the start symbol.
-/

namespace PlainLedger

variable {α V σ : Type}

/-! ## Folding a forest -/

/-- The token of a leaf that is no skipped text. -/
def Leaf.token? : Leaf → Option Token
  | token t => some t
  | skipped _ => none

/-- The leaf that an event adds to a tree. -/
def Event.leaf? : Event V → Option Leaf
  | .shift t _ => some (.token t)
  | .resume _ span => some (.skipped span)
  | _ => none

/-- The reducer gives these values and spans to the trees, by these events: a token has what
the reducer makes of it, and a rule what it makes of the values of the right-hand side. -/
inductive Forest.Folds {g : Grammar α} (r : Reducer α V σ) :
    {xs : List Symbol} → Forest g xs → List (V × Span) → List (Event V) → Prop where
  | nil : Folds r .nil [] []
  | token {xs : List Symbol} {rest : Forest g xs} {vs : List (V × Span)} {evs : List (Event V)}
      {m m' : σ} {v : V} (t : Token) (hv : r.ofToken t m = (v, m')) (hrest : Folds r rest vs evs) :
      Folds r (.leaf (.token t) rest) ((v, t.span) :: vs) (.shift t v :: evs)
  | skipped {xs : List Symbol} {rest : Forest g xs} {vs : List (V × Span)} {evs : List (Event V)}
      (span : Span) (n : Nat) (hrest : Folds r rest vs evs) :
      Folds r (.leaf (.skipped span) rest) ((r.blank, span) :: vs) (.resume n span :: evs)
  | node {xs : List Symbol} {k : Nat} {p : Rule α} (h : g.rules[k]? = some p)
      {children : Forest g p.rhs} {rest : Forest g xs} {us vs : List (V × Span)}
      {evs evs' : List (Event V)} {red : Reduction V} {m m' : σ} {v : V}
      (hchildren : Folds r children us evs) (hrest : Folds r rest vs evs') (hrule : red.rule = k)
      (hvalues : red.values = us.map Prod.fst) (hspans : red.spans = us.map Prod.snd)
      (hspan : red.span = Config.reductionSpan red.spans red.below)
      (hv : r.reduce p.action red m = (.value v, m')) :
      Folds r (.node k h children rest) ((v, red.span) :: vs)
        (evs ++ .reduce red (.value v) :: evs')

namespace Forest

variable {g : Grammar α} {r : Reducer α V σ} {xs ys : List Symbol}

theorem Folds.append {f : Forest g xs} {f' : Forest g ys} {vs vs' : List (V × Span)}
    {evs evs' : List (Event V)} (h : f.Folds r vs evs) (h' : f'.Folds r vs' evs') :
    (f.append f').Folds r (vs ++ vs') (evs ++ evs') := by
  induction h with
  | nil => exact h'
  | token t hv _ ih => exact .token t hv ih
  | skipped span n _ ih => exact .skipped span n ih
  | node h hchildren _ hrule hvalues hspans hspan hv _ ih =>
    have hnode := Folds.node h hchildren ih hrule hvalues hspans hspan hv
    rw [List.append_assoc]
    exact hnode

/-- Leaves are read one after the other. -/
theorem Folds.leaves_eq {f : Forest g xs} {vs : List (V × Span)} {evs : List (Event V)}
    (h : f.Folds r vs evs) : f.leaves = evs.filterMap Event.leaf? := by
  induction h with
  | nil => rfl
  | token t _ _ ih => simp [leaves, Event.leaf?, ih]
  | skipped span n _ ih => simp [leaves, Event.leaf?, ih]
  | node _ _ _ _ _ _ _ _ ihc ihr =>
    rw [leaves, List.filterMap_append, ihc, ihr]
    rfl

end Forest

/-! ## Stacks of trees -/

/-- Each slot above the bottom holds what the reducer makes of a derivation tree. -/
inductive Grown (g : Grammar α) (r : Reducer α V σ) :
    List (Slot V) → List Symbol → List (Event V) → Prop where
  | bottom {x : Slot V} (hx : x.state = 0) : Grown g r [x] [] []
  | push {x y : Slot V} {slots : List (Slot V)} {X : Symbol} {xs : List Symbol}
      {evs evs' : List (Event V)} (h : Grown g r (y :: slots) xs evs)
      (he : g.Edge y.state X x.state) (f : Forest g [X])
      (hf : f.Folds r [(x.value, x.span)] evs') :
      Grown g r (x :: y :: slots) (X :: xs) (evs ++ evs')

namespace Grown

variable {g : Grammar α} {r : Reducer α V σ} {slots : List (Slot V)} {xs : List Symbol}
  {evs : List (Event V)}

theorem path (h : Grown g r slots xs evs) : g.Path (slots.map Slot.state) xs := by
  induction h with
  | bottom hx =>
    rw [List.map_singleton, hx]
    exact .start
  | push _ he _ _ ih => exact .step ih he

/-- The topmost slots are what is made of a forest. -/
theorem take (h : Grown g r slots xs evs) {d : Nat} (hd : d ≤ xs.length) :
    ∃ (ys : List Symbol) (f : Forest g ys) (evs₁ evs₂ : List (Event V)),
      ys = (xs.take d).reverse ∧ evs = evs₁ ++ evs₂ ∧
      f.Folds r ((slots.take d).reverse.map fun x ↦ (x.value, x.span)) evs₂ ∧
      Grown g r (slots.drop d) (xs.drop d) evs₁ := by
  induction h generalizing d with
  | bottom hx =>
    cases Nat.le_zero.mp hd
    exact ⟨[], .nil, [], [], rfl, rfl, .nil, .bottom hx⟩
  | @push x y slots X xs evs evs' h he f hf ih =>
    cases d with
    | zero => exact ⟨[], .nil, _, [], rfl, by simp, .nil, .push h he f hf⟩
    | succ d =>
      obtain ⟨ys, f', evs₁, evs₂, hys, hevs, hfolds, hgrown⟩ := ih (Nat.le_of_succ_le_succ hd)
      refine ⟨ys ++ [X], f'.append f, evs₁, evs₂ ++ evs', ?_, ?_, ?_, hgrown⟩
      · rw [List.take_succ_cons, List.reverse_cons, hys]
      · rw [hevs, List.append_assoc]
      · rw [List.take_succ_cons, List.reverse_cons, List.map_append]
        exact hfolds.append hf

/-- A rule that has been read to its end is the root of a tree. -/
theorem reduce {x : Slot V} {rest : List (Slot V)} {k : Nat} {p : Rule α} {m m' : σ} {v : V}
    (h : Grown g r (x :: rest) xs evs) (hrule : g.rules[k]? = some p)
    (hhas : g.Has x.state ⟨k, p.rhs.length⟩)
    (hverdict : r.reduce p.action (.ofSlots k p.rhs.length (x :: rest)) m = (.value v, m')) :
    ∃ (f : Forest g [.nonterminal p.lhs]) (evs₁ evs₂ : List (Event V)), evs = evs₁ ++ evs₂ ∧
      f.Folds r [(v, (Reduction.ofSlots k p.rhs.length (x :: rest)).span)]
        (evs₂ ++ [.reduce (.ofSlots k p.rhs.length (x :: rest)) (.value v)]) ∧
      Grown g r ((x :: rest).drop p.rhs.length) (xs.drop p.rhs.length) evs₁ := by
  have hpath := h.path
  rw [List.map_cons] at hpath
  obtain ⟨hle, htake, -⟩ := hpath.reduce hrule hhas
  obtain ⟨ys, f, evs₁, evs₂, hys, hevs, hfolds, hgrown⟩ := h.take hle
  cases hys.trans htake
  refine ⟨.node k hrule f .nil, evs₁, evs₂, hevs,
    .node hrule hfolds .nil rfl ?_ ?_ rfl hverdict, hgrown⟩
  · rw [List.map_map]
    rfl
  · rw [List.map_map]
    rfl

/-- What has been done accounts for the trees on the stack. -/
theorem of_trace {e : Engine α} {m₀ m : σ} (h : Trace e r m₀ evs slots m) :
    ∃ xs evs', Grown e.grammar r slots xs evs' ∧ evs'.Sublist evs := by
  induction h with
  | start => exact ⟨[], [], .bottom rfl, .slnil⟩
  | @snoc evs _ _ _ _ _ h hev ih =>
    obtain ⟨xs, evs', hgrown, hsub⟩ := ih
    cases hev with
    | pull | report | discard =>
      exact ⟨xs, evs', hgrown, hsub.trans (List.sublist_append_left ..)⟩
    | shift hedge hvalue =>
      exact ⟨_, _, hgrown.push hedge (.leaf (.token _) .nil) (.token _ hvalue .nil),
        hsub.append (.refl _)⟩
    | reduce hrule hhas hbelow hedge hverdict =>
      obtain ⟨f, evs₁, evs₂, rfl, hf, hgrown'⟩ := hgrown.reduce hrule hhas hverdict
      rw [hbelow] at hgrown'
      refine ⟨_, _, hgrown'.push hedge f hf, ?_⟩
      rw [← List.append_assoc]
      exact hsub.append (.refl _)
    | reject hrule hhas hbelow hverdict =>
      have hpath := hgrown.path
      rw [List.map_cons] at hpath
      obtain ⟨-, -, evs₁, evs₂, -, rfl, -, hgrown'⟩ := hgrown.take (hpath.reduce hrule hhas).1
      rw [hbelow] at hgrown'
      have hfirst : evs₁.Sublist evs := (List.sublist_append_left ..).trans hsub
      exact ⟨_, _, hgrown', hfirst.trans (List.sublist_append_left ..)⟩
    | pop =>
      cases hgrown with
      | @push _ _ _ _ _ evs₁ _ hgrown' _ _ _ =>
        have hfirst : evs₁.Sublist evs := (List.sublist_append_left ..).trans hsub
        exact ⟨_, _, hgrown', hfirst.trans (List.sublist_append_left ..)⟩
    | @resume x rest m n span hedge =>
      exact ⟨_, _, hgrown.push hedge (.leaf (.skipped span) .nil) (.skipped span n .nil),
        hsub.append (.refl _)⟩

/-- When the whole text has been read, the tree on the stack is one of the start symbol. -/
theorem accept {x y : Slot V} (h : Grown g r [x, y] xs evs)
    (hhas : g.Has x.state ⟨g.acceptRule, 1⟩) :
    ∃ f : Forest g [.nonterminal g.start], f.Folds r [(x.value, x.span)] evs := by
  have hpath := h.path
  rw [List.map_cons] at hpath
  have hxs := (hpath.accept hhas).2
  cases h with
  | push hbottom _ f hf =>
    cases hbottom with
    | bottom =>
      cases hxs
      exact ⟨f, hf⟩

end Grown

/-! ## Completed rules -/

/-- The completed rule is one of the grammar, and there is a value and a span for each symbol of its
right-hand side. -/
def Reduction.Fits (g : Grammar α) (red : Reduction V) : Prop :=
  ∃ p, g.rules[red.rule]? = some p ∧ red.values.length = p.rhs.length ∧
    red.spans.length = p.rhs.length

theorem Spelled.fits {g : Grammar α} {T : Symbol → V → Prop} {x : Slot V} {rest : List (Slot V)}
    {xs : List Symbol} {k : Nat} {p : Rule α} (h : Spelled g T (x :: rest) xs)
    (hrule : g.rules[k]? = some p) (hhas : g.Has x.state ⟨k, p.rhs.length⟩) :
    (Reduction.ofSlots k p.rhs.length (x :: rest)).Fits g := by
  have hle := (h.reduce hrule hhas).1
  have hlen := h.length_eq
  have htaken : ((x :: rest).take p.rhs.length).length = p.rhs.length := by
    rw [List.length_take]
    omega
  refine ⟨p, hrule, ?_, ?_⟩
  · simpa [Reduction.ofSlots] using htaken
  · simpa [Reduction.ofSlots] using htaken

section Fits

variable {e : Engine α} {r : Reducer α V σ} {m₀ m m' : σ} {evs : List (Event V)}
  {slots slots' : List (Slot V)}

theorem Does.fits {ev : Event V} {xs : List Symbol} (h : Does e r slots m ev slots' m')
    (hs : Spelled e.grammar (fun _ _ ↦ True) slots xs) {red : Reduction V} {verdict : Verdict V}
    (hev : .reduce red verdict = ev) : red.Fits e.grammar := by
  cases h with
  | pull | report | discard | shift | pop | resume => cases hev
  | reduce hrule hhas hbelow hedge hverdict =>
    cases hev
    exact hs.fits hrule hhas
  | reject hrule hhas hbelow hverdict =>
    cases hev
    exact hs.fits hrule hhas

theorem Trace.fits (h : Trace e r m₀ evs slots m) {red : Reduction V} {verdict : Verdict V}
    (hmem : .reduce red verdict ∈ evs) : red.Fits e.grammar := by
  induction h with
  | start => cases hmem
  | snoc h hev ih =>
    rcases List.mem_append.mp hmem with hmem | hmem
    · exact ih hmem
    · obtain ⟨xs, hxs⟩ := h.spelled
      exact hev.fits hxs (List.mem_singleton.mp hmem)

theorem Stopped.fits {cause : Abort} (h : Stopped e r m₀ cause evs slots m) {red : Reduction V}
    {verdict : Verdict V} (hmem : .reduce red verdict ∈ evs) : red.Fits e.grammar := by
  cases h with
  | start => cases hmem
  | unrecoverable _ _ h => exact h.fits hmem
  | fatal h hrule hhas hverdict =>
    rcases List.mem_append.mp hmem with hmem | hmem
    · exact h.fits hmem
    · obtain ⟨xs, hxs⟩ := h.spelled
      cases List.mem_singleton.mp hmem
      exact hxs.fits hrule hhas
  | overflow _ h hev _ =>
    rcases List.mem_append.mp hmem with hmem | hmem
    · exact h.fits hmem
    · obtain ⟨xs, hxs⟩ := h.spelled
      exact hev.fits hxs (List.mem_singleton.mp hmem)

end Fits

/-! ## Every run -/

namespace Config

/-- The record holds only completed rules that fit the grammar. -/
def Fits (e : Engine α) (c : Config V σ) : Prop :=
  ∀ red verdict, .reduce red verdict ∈ c.log.toList → red.Fits e.grammar

/-- The slots spell symbols on the way through the automaton, and each of their states has a row. A
rule that the topmost row completes is what the topmost slots spell, and the slot below them goes on
with its left-hand side. -/
def Viable (e : Engine α) (c : Config V σ) : Prop :=
  ∃ xs, e.grammar.Path (c.stack.slots.map Slot.state) xs ∧
    (∀ x ∈ c.stack.slots, ∃ row, e.row? x.state = some row) ∧
    ∀ x rest row t k, c.stack.slots = x :: rest → e.row? x.state = some row →
      row.decide t = some (.reduce k) → ∃ p, e.grammar.rules[k]? = some p ∧
        (xs.take p.rhs.length).reverse = p.rhs ∧
        (Reduction.ofSlots k p.rhs.length (x :: rest)).Fits e.grammar ∧
        ∃ y below row' n, (x :: rest).drop p.rhs.length = y :: below ∧
          e.row? y.state = some row' ∧ row'.goto? p.lhs = some n

/-- The value is what the reducer makes of a derivation tree of the start symbol. What was done for
the tree is part of the record, in that order, and its tokens are tokens of the source, in that
order, or ends of input after them. -/
def Derived (e : Engine α) (r : Reducer α V σ) (input : List Token) (v : V) (c : Config V σ) :
    Prop :=
  ∃ (f : Forest e.grammar [.nonterminal e.grammar.start]) (span : Span) (evs : List (Event V)),
    f.Folds r [(v, span)] evs ∧ evs.Sublist c.log.toList ∧
      ∃ ends : List Token, (∀ t ∈ ends, t.kind = .endOfInput) ∧
        (f.leaves.filterMap Leaf.token?).Sublist (input ++ ends)

/-- A defect is one that the reducer has found, in the rule completed last. -/
def Excused (cause : Abort) (c : Config V σ) : Prop :=
  ∀ d, cause = .defect d →
    ∃ evs red, c.log.toList = evs ++ [.reduce red (.fatal (.defect d))]

variable {e : Engine α} {r : Reducer α V σ} {m₀ : σ} {c : Config V σ}

theorem Traced.viable (hg : e.tables = e.grammar.tables) (h : c.Traced e r m₀) : c.Viable e := by
  obtain ⟨xs, hxs⟩ := h.spelled
  refine ⟨xs, hxs.path, ?_, ?_⟩
  · intro x hx
    obtain ⟨above, below, hslots⟩ := List.append_of_mem hx
    rw [hslots] at hxs
    have hpath := hxs.of_append.path
    obtain ⟨S, hS⟩ := hpath.exists_state
    obtain ⟨row, hrow⟩ := Grammar.exists_row hS
    rw [← hg] at hrow
    exact ⟨row, hrow⟩
  · intro x rest row t k hslots hrow hdecide
    rw [hslots] at hxs
    rw [Engine.row?, hg] at hrow
    obtain ⟨p, hrule, hhas⟩ := Grammar.allows_of_decide hrow hdecide
    obtain ⟨-, htake, -, y, below, hbelow, hpredicted, -⟩ := hxs.reduce hrule hhas
    obtain ⟨n, S, hS, htarget⟩ := Grammar.exists_goto hpredicted hrule
    obtain ⟨row', hrow'⟩ := Grammar.exists_row hS
    have hgoto := (Grammar.goto?_eq_some_iff hrow').mpr ⟨S, hS, htarget⟩
    rw [← hg] at hrow'
    exact ⟨p, hrule, htake, hxs.fits hrule hhas, y, below, row', n, hbelow, hrow', hgoto⟩

theorem Traced.step_inOrder (hg : e.tables = e.grammar.tables) {input : List Token}
    (h : c.Traced e r m₀) (hin : c.InOrder input) : (c.step e r).config.InOrder input := by
  obtain ⟨x, rest, hslots⟩ := List.exists_cons_of_ne_nil h.ne_nil
  rw [Traced, hslots] at h
  obtain ⟨row, hrow⟩ := h.exists_row hg
  exact hin.step hslots hrow

end Config

theorem consumed_of_leaves (evs : List (Event V)) :
    ((evs.filterMap Event.leaf?).filterMap Leaf.token?).Sublist
      (evs.filterMap Event.consumed?) := by
  induction evs with
  | nil => exact .slnil
  | cons ev evs ih =>
    cases ev with
    | shift t v => exact ih.cons_cons t
    | discard t => exact ih.cons t
    | pull | report | reduce | pop | resume => exact ih

/-- What is accepted is derived. -/
theorem Config.Accepted.derived {e : Engine α} {r : Reducer α V σ} {m₀ : σ} {v : V}
    {c : Config V σ} {input : List Token} (h : c.Accepted e r m₀ v) (hin : c.InOrder input) :
    c.Derived e r input v := by
  obtain ⟨x, y, htrace, hhas, rfl, -⟩ := h
  obtain ⟨xs, evs, hgrown, hsub⟩ := Grown.of_trace htrace
  obtain ⟨f, hf⟩ := hgrown.accept hhas
  obtain ⟨ends, hends, heq, -⟩ := hin
  refine ⟨f, x.span, evs, hf, hsub, ends, hends, ?_⟩
  rw [hf.leaves_eq, ← heq, List.append_assoc]
  have hconsumed : (evs.filterMap Event.consumed?).Sublist c.consumed := hsub.filterMap _
  exact ((consumed_of_leaves evs).trans hconsumed).trans (List.sublist_append_left ..)

/-- Only a reducer finds a defect. -/
theorem Stopped.exists_fatal {e : Engine α} {r : Reducer α V σ} {m₀ m : σ} {d : Defect}
    {evs : List (Event V)} {slots : List (Slot V)} (h : Stopped e r m₀ (.defect d) evs slots m) :
    ∃ evs' red, evs = evs' ++ [.reduce red (.fatal (.defect d))] := by
  cases h with
  | fatal h _ _ _ => exact ⟨_, _, rfl⟩

/-- A machine with the tables of a grammar. -/
def Grammar.engine (g : Grammar α) (ctx : Context) (options : Options) : Engine α :=
  ⟨g, g.tables, ctx, options⟩

namespace Engine

variable {e : Engine α} {r : Reducer α V σ}

/-- The record of a run is one of tokens in the order of the source, also if it is given up. -/
theorem ends_inOrder (hg : e.tables = e.grammar.tables) (input : List Token) (m : σ) (n : Nat) :
    (e.steps r n (e.start r input m)).Post (fun c ↦ c.Traced e r m ∧ c.InOrder input)
      (fun v c ↦ c.Accepted e r m v ∧ c.InOrder input)
      (fun cause c ↦ c.Aborted e r m cause ∧ c.InOrder input) := by
  refine e.post_steps r ?_ n ?_
  · rintro c ⟨htraced, hin⟩
    exact (Config.continues_step hg htraced).and (Step.post_of_config (htraced.step_inOrder hg hin))
  · exact (continues_start input m).and (Step.post_of_config (Config.inOrder_start input m))

/-- The record of a run is one of tokens in the order of the source. -/
theorem continues_inOrder (hg : e.tables = e.grammar.tables) (input : List Token) (m : σ)
    (n : Nat) :
    (e.steps r n (e.start r input m)).Post (fun c ↦ c.Traced e r m ∧ c.InOrder input)
      (fun v c ↦ c.Accepted e r m v ∧ c.InOrder input) (fun cause c ↦ c.Aborted e r m cause) :=
  (ends_inOrder hg input m n).imp (fun _ h ↦ h) (fun _ _ h ↦ h) fun _ _ h ↦ h.1

/-- Whatever the grammar, the tokens, the options and the reducer, the stack spells the beginning of
a sentence at every moment of a run, completed rules get one value and one span for each symbol, no
defect comes from the machine itself, and what is accepted has been derived. -/
theorem post_viable (g : Grammar α) (ctx : Context) (options : Options) (r : Reducer α V σ)
    (input : List Token) (m : σ) (n : Nat) :
    ((g.engine ctx options).steps r n ((g.engine ctx options).start r input m)).Post
      (fun c ↦ c.Viable (g.engine ctx options) ∧ c.Fits (g.engine ctx options))
      (fun v c ↦ c.Derived (g.engine ctx options) r input v ∧ c.Fits (g.engine ctx options))
      (fun cause c ↦ c.Excused cause ∧ c.Fits (g.engine ctx options)) := by
  have hg : (g.engine ctx options).tables = (g.engine ctx options).grammar.tables := rfl
  refine (continues_inOrder hg input m n).imp ?_ ?_ ?_
  · rintro c ⟨htraced, -⟩
    exact ⟨htraced.viable hg, fun _ _ hmem ↦ Trace.fits htraced hmem⟩
  · rintro v c ⟨haccepted, hin⟩
    obtain ⟨x, y, htrace, -⟩ := id haccepted
    exact ⟨haccepted.derived hin, fun _ _ hmem ↦ htrace.fits hmem⟩
  · intro cause c haborted
    refine ⟨?_, fun _ _ hmem ↦ Stopped.fits haborted hmem⟩
    rintro d rfl
    exact haborted.exists_fatal

end Engine

end PlainLedger
