import PlainLedger.Proofs.Grammar.Descent
import PlainLedger.Proofs.Machine.Attentive

/-!
# Defaults

Once a token is out of place for the attentive machine, the machine with defaults may complete some
more rules. It reads nothing meanwhile, for what is out of place remains so when a rule is
completed, and it does not go on for ever, for the stack comes nearer to rest. So in the end it
finds the same token out of place.
-/

namespace PlainLedger

variable {α V σ : Type}

open Grammar (Cell)

namespace Engine

variable {e : Engine α} {r : Reducer α V σ} {n k : Nat}

theorem flawless_zero (s : Step V σ) : e.Flawless r s 0 := fun k hk ↦ (Nat.not_lt_zero k hk).elim

theorem Flawless.cons {c : Config V σ} (hc : ¬c.Errs e) (h : e.Flawless r (c.step e r) n) :
    e.Flawless r (.running c) (n + 1) := by
  intro k hk
  cases k with
  | zero =>
    rw [steps_zero]
    exact hc
  | succ k =>
    rw [steps_succ_running]
    exact h k (Nat.lt_of_succ_lt_succ hk)

theorem Flawless.add {s : Step V σ} (h : e.Flawless r s n)
    (h' : e.Flawless r (e.steps r n s) k) : e.Flawless r s (n + k) := by
  intro i hi
  by_cases hlt : i < n
  · exact h i hlt
  · have hn : n + (i - n) = i := by omega
    rw [← hn, steps_add]
    exact h' (i - n) (by omega)

end Engine

namespace Config

variable (e : Engine α) (r : Reducer α V σ)

/-- Nothing is read any more, but rules are completed until the token that comes next is out of
place, or there is no room on the stack. -/
def Stalls (c : Config V σ) : Prop :=
  ∃ N, e.Flawless r (.running c) N ∧ (e.steps r N (.running c)).Post
    (fun c' ↦ c'.Errs e ∧ c'.pending = c.pending ∧
      ∃ ks : List Nat, c'.deeds = c.deeds ++ ks.map .inr)
    (fun _ _ ↦ False)
    (fun cause c' ↦ (∃ depth, cause = .stackOverflow depth) ∧
      ∃ ks : List Nat, c'.deeds = c.deeds ++ ks.map .inr)

/-- The stack is made of the cells, and what comes next is out of place. -/
structure Sinking (height : Nat) (cells : List Cell) (c : Config V σ) : Prop where
  bounded : c.stack.Bounded
  ceiling : c.stack.ceiling = height
  path : e.grammar.Path (c.stack.slots.map Slot.state) (cells.map Cell.symbol)
  refuses : e.grammar.Refuses (c.stack.slots.map Slot.state) c.upcoming
  hollow : e.grammar.Hollow cells

variable {e r} {c : Config V σ} {height : Nat} {cells : List Cell}

/-- Where nothing can be read a rule is completed, and the stack comes nearer to rest. -/
theorem Sinking.step (hg : e.tables = e.grammar.tables) (hclosed : e.grammar.Closed)
    (hproductive : e.grammar.Productive) (hacyclic : e.grammar.Acyclic) (hr : r.Total)
    (h : c.Sinking e height cells) (hc : ¬c.Errs e) :
    (c.step e r).Post
      (fun c' ↦ (c'.pending = c.pending ∧ ∃ k : Nat, c'.deeds = c.deeds ++ [.inr k]) ∧
        ∃ cells', c'.Sinking e height cells' ∧
          e.grammar.distance height cells' < e.grammar.distance height cells)
      (fun _ _ ↦ False)
      (fun cause c' ↦ (∃ depth, cause = .stackOverflow depth) ∧
        ∃ k : Nat, c'.deeds = c.deeds ++ [.inr k]) := by
  have hpath := h.path
  obtain ⟨x, rest, hslots⟩ : ∃ x rest, c.stack.slots = x :: rest :=
    List.exists_cons_of_ne_nil fun hnil ↦ hpath.ne_nil (by rw [hnil, List.map_nil])
  rw [hslots, List.map_cons] at hpath
  obtain ⟨S, hS⟩ := hpath.exists_state
  obtain ⟨row, hrow⟩ := Grammar.exists_row hS
  have hrow' := hrow
  rw [← hg] at hrow'
  rw [errs_iff hslots hrow'] at hc
  obtain ⟨a, ha⟩ := Option.ne_none_iff_exists'.mp hc
  have hrefuses := h.refuses
  rw [hslots, List.map_cons] at hrefuses
  obtain ⟨k, rfl⟩ := hrefuses.decide hclosed hproductive hpath hrow ha
  obtain ⟨p, hrule, hhas⟩ := Grammar.allows_of_decide hrow ha
  obtain ⟨hle, htake, s, ss, n, hdrop, -, hedge⟩ := hpath.reduce hrule hhas
  have hdropped := hpath.drop hle
  rw [hdrop] at hdropped
  have hrefuses' := hrefuses.reduce hclosed hpath hrule hhas hdrop hedge
  rw [← List.map_cons (f := Slot.state), ← List.map_drop] at hdrop
  obtain ⟨y, below, hbelow, rfl, rfl⟩ := List.map_eq_cons_iff.mp hdrop
  obtain ⟨T, hT, htarget⟩ := id hedge
  obtain ⟨rowy, hrowy⟩ := Grammar.exists_row hT
  have hgoto := (Grammar.goto?_eq_some_iff hrowy).mpr hedge
  rw [← hg] at hrowy
  obtain ⟨v, m, hverdict⟩ := hr p.action
    (.ofSlots k p.rhs.length (c.consult e r row).stack.slots) (c.consult e r row).memory
  have hslots' : (c.consult e r row).stack.slots = x :: rest := by rw [stack_consult, hslots]
  rw [step_eq e r hslots hrow', kind_peek, ha]
  dsimp only
  rw [reduce_eq_push hslots' hrule hbelow hrowy hgoto hverdict]
  set c₁ := (c.consult e r row).reduced k p (.value v, m)
  have hstack : c₁.stack = { c.stack with slots := y :: below } := by
    change { (c.consult e r row).stack with
      slots := (c.consult e r row).stack.slots.drop p.rhs.length } = _
    rw [stack_consult, hslots, hbelow]
  have hpending : c₁.pending = c.pending := c.pending_consult e r row
  have hdeeds : c₁.deeds = c.deeds ++ [.inr k] := by
    rw [← (c.looked_consult (e := e) (r := r) row).deeds]
    exact deeds_record (.reduce (.ofSlots k p.rhs.length (c.consult e r row).stack.slots)
      (.value v))
      (c.consult e r row)
  have hbounded : c₁.stack.Bounded := by
    rw [hstack, ← hbelow, ← hslots]
    exact h.bounded.drop p.rhs.length
  refine post_push r ?_ fun depth ↦ ⟨⟨depth, rfl⟩, k, hdeeds⟩
  intro stack hpush
  refine ⟨⟨hpending, k, hdeeds⟩, ?_⟩
  obtain ⟨hbounded', hceiling⟩ := hbounded.push hpush
  -- the cells of the right-hand side, in source order, and those below them
  have hlength : cells.length + 1 = c.stack.slots.length := by
    have hlen := h.path.length_eq
    rw [List.length_map, List.length_map] at hlen
    exact hlen.symm
  have hroom : cells.length + 1 ≤ height := by
    rw [hlength, ← h.ceiling]
    exact h.bounded.length.trans h.bounded.capacity
  have hsplit : (cells.take p.rhs.length).reverse.reverse ++ cells.drop p.rhs.length = cells := by
    rw [List.reverse_reverse, List.take_append_drop]
  have hcells : (cells.take p.rhs.length).reverse.map Cell.symbol = p.rhs := by
    rw [List.map_reverse, List.map_take, htake]
  have hhollow := h.hollow
  rw [← hsplit] at hhollow
  have hheight : ((cells.take p.rhs.length).reverse.reverse ++ cells.drop p.rhs.length).length ≤
      height := by
    rw [hsplit]
    omega
  have hcomplete := Grammar.distance_complete hclosed hacyclic hrule hcells hhollow hheight
    (by rw [List.length_drop]; omega)
  rw [hsplit] at hcomplete
  refine ⟨_, ⟨hbounded', ?_, ?_, ?_, hcomplete.1⟩, hcomplete.2⟩
  · rw [hceiling, hstack]
    exact h.ceiling
  · rw [Stack.slots_push hpush, hstack, List.map_cons, List.map_cons, List.map_cons, List.map_drop]
    exact .step hdropped hedge
  · have hupcoming : ({ c₁ with stack } : Config V σ).upcoming = c.upcoming := by
      unfold upcoming
      rw [← hpending]
      rfl
    rw [Stack.slots_push hpush, hstack, hupcoming]
    exact hrefuses'

/-- Where what comes next is out of place, the machine stalls. -/
theorem Sinking.stalls (hg : e.tables = e.grammar.tables) (hclosed : e.grammar.Closed)
    (hproductive : e.grammar.Productive) (hacyclic : e.grammar.Acyclic) (hr : r.Total)
    (h : c.Sinking e height cells) : c.Stalls e r := by
  induction hn : e.grammar.distance height cells using Nat.strong_induction_on
    generalizing c cells with
  | _ n ih =>
    subst hn
    by_cases hc : c.Errs e
    · refine ⟨0, Engine.flawless_zero _, ?_⟩
      rw [Engine.steps_zero]
      exact ⟨hc, rfl, [], (List.append_nil _).symm⟩
    · have hstep := h.step hg hclosed hproductive hacyclic hr hc
      cases hs : c.step e r with
      | running c' =>
        rw [hs] at hstep
        obtain ⟨⟨hpending, k, hdeeds⟩, cells', hsinking, hdistance⟩ := hstep
        obtain ⟨N, hflawless, hpost⟩ := ih _ hdistance hsinking rfl
        rw [← hs] at hflawless hpost
        have hmore : ∀ c'' : Config V σ, (∃ ks : List Nat, c''.deeds = c'.deeds ++ ks.map .inr) →
            ∃ ks : List Nat, c''.deeds = c.deeds ++ ks.map .inr := by
          rintro c'' ⟨ks, hks⟩
          refine ⟨k :: ks, ?_⟩
          rw [hks, hdeeds, List.append_assoc]
          rfl
        refine ⟨N + 1, hflawless.cons hc, ?_⟩
        rw [Engine.steps_succ_running]
        refine hpost.imp ?_ (fun _ _ h ↦ h) ?_
        · rintro c'' ⟨herrs, hpending', hks⟩
          exact ⟨herrs, hpending'.trans hpending, hmore c'' hks⟩
        · rintro cause c'' ⟨hcause, hks⟩
          exact ⟨hcause, hmore c'' hks⟩
      | accepted v c' =>
        rw [hs] at hstep
        exact hstep.elim
      | aborted cause c' =>
        rw [hs] at hstep
        obtain ⟨hcause, k, hdeeds⟩ := hstep
        refine ⟨1, (Engine.flawless_zero _).cons hc, ?_⟩
        rw [Engine.steps_succ_running, Engine.steps_zero, hs]
        exact ⟨hcause, [k], hdeeds⟩

end Config

/-- Where the attentive machine finds a token out of place, the other one stalls. -/
theorem Abreast.stalls {e : Engine α} {r : Reducer α V σ} {same : σ → σ → Prop} {P : Prop}
    {text : List Token} {c d : Config V σ} (hg : e.tables = e.grammar.tables)
    (hclosed : e.grammar.Closed) (hproductive : e.grammar.Productive)
    (hacyclic : e.grammar.Acyclic) (hr : r.Total) (h : Abreast e.grammar r same P text c d)
    {xs : List Symbol} (hpath : e.grammar.Path (c.stack.slots.map Slot.state) xs)
    (hd : d.Errs e.attentive) : c.Stalls e r := by
  obtain ⟨x, rest, hslots⟩ : ∃ x rest, c.stack.slots = x :: rest :=
    List.exists_cons_of_ne_nil fun hnil ↦ hpath.ne_nil (by rw [hnil, List.map_nil])
  obtain ⟨x', rest', hslots', hx⟩ := h.exists_slots (n := 0) hslots
  have htop := hpath
  rw [hslots, List.map_cons] at htop
  obtain ⟨S, hS⟩ := htop.exists_state
  obtain ⟨row, hrow⟩ := Grammar.exists_row hS
  obtain ⟨full, hfull, -, hentry⟩ := Grammar.exists_fullRow hrow
  have hnone : e.grammar.fullAction? x.state c.upcoming = none := by
    rw [← hx] at hfull
    rwa [Config.errs_iff (e := e.attentive) hslots' hfull, hentry, h.upcoming] at hd
  have hcells : (xs.map fun X ↦ (⟨X, true⟩ : Cell)).map Cell.symbol = xs := by
    rw [List.map_map]
    exact List.map_id xs
  have hsinking : c.Sinking e c.stack.ceiling (xs.map fun X ↦ ⟨X, true⟩) := by
    refine ⟨h.bounded, rfl, hcells.symm ▸ hpath, Or.inl fun n hn ↦ ?_, fun z hz hsolid ↦ ?_⟩
    · rw [hslots, List.map_cons, List.head?_cons, Option.mem_some_iff] at hn
      rw [← hn, hnone]
    · -- everything on the stack is solid to begin with
      obtain ⟨X, -, rfl⟩ := List.mem_map.mp hz
      cases hsolid
  exact hsinking.stalls hg hclosed hproductive hacyclic hr

/-! ## The two machines -/

/-- No report has a part in the values. -/
def Reducer.Unmoved (r : Reducer α V σ) : Prop :=
  ∃ same : σ → σ → Prop, r.Steady same ∧ r.Deaf same

theorem Reducer.Heedless.unmoved {r : Reducer α V σ} {same : σ → σ → Prop}
    {said : σ → List Diagnostic} (h : r.Heedless same said) : r.Unmoved := by
  refine ⟨same, ⟨h.equivalence.refl, h.value, h.token, h.verdict, h.reduce⟩,
    fun d m m' hsame ↦ ⟨?_, ?_⟩⟩
  · exact h.equivalence.trans (h.report d m) hsame
  · exact h.equivalence.trans hsame (h.equivalence.symm (h.report d m'))

/-- It makes no difference to the values when a token is looked at for the first time: it is not
reported then, or it cannot be read, or the report has no part in the values. -/
def Grammar.Untimed (g : Grammar α) (r : Reducer α V σ) (input : List Token) : Prop :=
  (∀ t ∈ textOf input, t.kind ≠ .lexError) ∨ (∀ p ∈ g.rules, .terminal .lexError ∉ p.rhs) ∨
    r.Unmoved

/-- The steps lead on before the same tokens, or end in the same way, and the same tokens have been
shifted and the same rules completed in the same order. -/
def Step.Alike : Step V σ → Step V σ → Prop
  | .running c, .running d => c.pending = d.pending ∧ c.deeds = d.deeds
  | .accepted _ c, .accepted _ d => c.deeds = d.deeds
  | .aborted cause c, .aborted cause' d => cause = cause' ∧ c.deeds = d.deeds
  | _, _ => False

theorem Step.Abreast.alike {g : Grammar α} {r : Reducer α V σ} {same : σ → σ → Prop} {P : Prop}
    {text : List Token} {s s' : Step V σ} (h : s.Abreast g r same P text s') : s.Alike s' := by
  cases s with
  | running c =>
    cases s' with
    | running d => exact ⟨PlainLedger.Abreast.pending h, PlainLedger.Abreast.deeds h⟩
    | accepted w d => exact h.elim
    | aborted cause d => exact h.elim
  | accepted v c =>
    cases s' with
    | running d => exact h.elim
    | accepted w d => exact h.2.1
    | aborted cause d => exact h.elim
  | aborted cause c =>
    cases s' with
    | running d => exact h.elim
    | accepted w d => exact h.elim
    | aborted cause' d => exact h

/-- What a machine does in its first `n` steps, and then, where the attentive one meets no token out
of place in its first `n` steps. -/
structure Engine.KeepsUp (e : Engine α) (r : Reducer α V σ) (input : List Token) (m : σ)
    (n : Nat) : Prop where
  /-- Both shift the same tokens and complete the same rules. -/
  alike : e.Flawless r (e.start r input m) n ∧
    (e.steps r n (e.start r input m)).Alike
      (e.attentive.steps r n (e.attentive.start r input m))
  /-- Where the attentive machine accepts, so does the other one. -/
  accepts : ∀ v d, e.attentive.steps r n (e.attentive.start r input m) = .accepted v d →
    ∃ v' c, e.steps r n (e.start r input m) = .accepted v' c ∧
      (e.grammar.Untimed r input → v' = v)
  /-- Where the attentive machine finds a token out of place, the other one completes some more
  rules, and then finds the same token out of place, unless the stack overflows. -/
  errs : ∀ d, e.attentive.steps r n (e.attentive.start r input m) = .running d →
    d.Errs e.attentive →
    ∃ N, e.Flawless r (e.start r input m) (n + N) ∧
      (e.steps r (n + N) (e.start r input m)).Post
        (fun c ↦ c.Errs e ∧ c.pending = d.pending ∧
          ∃ ks : List Nat, c.deeds = d.deeds ++ ks.map .inr)
        (fun _ _ ↦ False)
        (fun cause c ↦ (∃ depth, cause = .stackOverflow depth) ∧
          ∃ ks : List Nat, c.deeds = d.deeds ++ ks.map .inr)

namespace Grammar

/-- Defaults do not change what is recognised. -/
theorem keeps_up (g : Grammar α) (hclosed : g.Closed) (hproductive : g.Productive)
    (hacyclic : g.Acyclic) (hend : ∀ p ∈ g.rules, .terminal .endOfInput ∉ p.rhs) (ctx : Context)
    (options : Options) {r : Reducer α V σ} (hr : r.Total) (input : List Token) (m : σ) (n : Nat)
    (hflawless : (g.engine ctx options).attentive.Flawless r
      ((g.engine ctx options).attentive.start r input m) n) :
    (g.engine ctx options).KeepsUp r input m n := by
  have hg : (g.engine ctx options).tables = (g.engine ctx options).grammar.tables := rfl
  have hnot := not_edge_of_not_mem hend
  obtain ⟨hflaw, habreast⟩ := Engine.abreast_steps hg hnot hr (Reducer.steady_eq r)
    (P := ∀ t ∈ textOf input, t.kind ≠ .lexError) Or.inr hflawless
  refine ⟨⟨hflaw, habreast.alike⟩, ?_, ?_⟩
  · intro v d hd
    rw [hd] at habreast
    cases hs : (g.engine ctx options).steps r n ((g.engine ctx options).start r input m) with
    | running c =>
      rw [hs] at habreast
      exact habreast.elim
    | aborted cause c =>
      rw [hs] at habreast
      exact habreast.elim
    | accepted v' c =>
      rw [hs] at habreast
      obtain ⟨hvalue, -, hreads⟩ := habreast
      refine ⟨v', c, rfl, ?_⟩
      rintro (hnone | hrules | ⟨same, hsteady, hdeaf⟩)
      · exact hvalue hnone
      · refine hvalue fun t ht hkind ↦ ?_
        obtain ⟨a, b, hedge⟩ := hreads t ht
        rw [hkind] at hedge
        exact not_edge_of_not_mem hrules a b hedge
      · obtain ⟨-, habreast'⟩ := Engine.abreast_steps hg hnot hr hsteady (P := True)
          (fun _ ↦ Or.inl hdeaf) hflawless
        rw [hd, hs] at habreast'
        exact habreast'.1 trivial
  · intro d hd herrs
    rw [hd] at habreast
    have htraced := Engine.continues_steps (r := r) hg n input m
    cases hs : (g.engine ctx options).steps r n ((g.engine ctx options).start r input m) with
    | running c =>
      rw [hs] at habreast htraced
      obtain ⟨xs, hxs⟩ := Trace.spelled htraced
      obtain ⟨N, hflaw', hpost⟩ := PlainLedger.Abreast.stalls hg hclosed hproductive hacyclic hr
        habreast hxs.path herrs
      rw [← hs] at hflaw' hpost
      refine ⟨N, hflaw.add hflaw', ?_⟩
      rw [Engine.steps_add, ← PlainLedger.Abreast.pending habreast,
        ← PlainLedger.Abreast.deeds habreast]
      exact hpost
    | accepted v c =>
      rw [hs] at habreast
      exact habreast.elim
    | aborted cause c =>
      rw [hs] at habreast
      exact habreast.elim

/-- A number with another one after it: the attentive machine does not get past the first one, and
the other one makes a value of it first. -/
theorem keeps_up_parenthesized :
    (parenthesized.Closed ∧ parenthesized.Productive ∧ parenthesized.Acyclic ∧
      (∀ p ∈ parenthesized.rules, .terminal .endOfInput ∉ p.rhs) ∧ (Reducer.term [] []).Total ∧
      (parenthesized.engine ⟨"main", 0⟩ {}).attentive.Flawless (.term [] [])
        ((parenthesized.engine ⟨"main", 0⟩ {}).attentive.start (.term [] [])
          [.ofText .number "1" .start, .ofText .number "2" .start] #[]) 1) ∧
    ((parenthesized.engine ⟨"main", 0⟩ {}).attentive.steps (.term [] []) 1
        ((parenthesized.engine ⟨"main", 0⟩ {}).attentive.start (.term [] [])
          [.ofText .number "1" .start, .ofText .number "2" .start] #[])).Post
      (fun d ↦ d.Errs (parenthesized.engine ⟨"main", 0⟩ {}).attentive) (fun _ _ ↦ False)
      (fun _ _ ↦ False) ∧
    (parenthesized.engine ⟨"main", 0⟩ {}).KeepsUp (.term [] [])
      [.ofText .number "1" .start, .ofText .number "2" .start] #[] 1 := by
  have hclosed : parenthesized.Closed := by decide
  have hproductive := productive_parenthesized
  have hend : ∀ p ∈ parenthesized.rules, .terminal .endOfInput ∉ p.rhs := by decide
  have hflawless : (parenthesized.engine ⟨"main", 0⟩ {}).attentive.Flawless (.term [] [])
      ((parenthesized.engine ⟨"main", 0⟩ {}).attentive.start (.term [] [])
        [.ofText .number "1" .start, .ofText .number "2" .start] #[]) 1 := by
    intro k hk
    obtain rfl : k = 0 := Nat.lt_one_iff.mp hk
    decide +kernel
  refine ⟨⟨hclosed, hproductive, acyclic_parenthesized, hend, total_term, hflawless⟩,
    by decide +kernel, ?_⟩
  exact keeps_up parenthesized hclosed hproductive acyclic_parenthesized hend ⟨"main", 0⟩ {}
    total_term _ #[] 1 hflawless

end Grammar

/-- Gives a number how many reports there have been when it is completed, and anything else the
value of its first symbol. -/
def Reducer.stamping : Reducer String Nat Nat where
  blank := 0
  ofToken _ m := (0, m)
  reduce a red m := (.value (if a = "number" then m else red.values.headD 0), m)
  report _ m := m + 1
  release _ m := m

namespace Grammar

/-- A number, followed by what is no token. -/
def spoiled : Grammar String where
  names := ["entry", "number"]
  levels := []
  rules := [⟨0, [.nonterminal 1, .terminal .lexError], "entry", none⟩,
    ⟨1, [.terminal .number], "number", none⟩]
  start := 0
  start_lt := by decide
  rank?_error := by decide
  defined := by decide

theorem acyclic_spoiled : spoiled.Acyclic := by
  refine acyclic_of_terminal fun p hp ↦ ?_
  simp only [spoiled, List.mem_cons, List.not_mem_nil, or_false] at hp
  rcases hp with rfl | rfl
  · exact ⟨.lexError, by simp⟩
  · exact ⟨.number, by simp⟩

theorem productive_spoiled : spoiled.Productive := by
  have hnumber : spoiled.Derives [.nonterminal 1] [.terminal .number] :=
    .single (produces_rhs (g := spoiled) (k := 1) rfl)
  have hentry : spoiled.Produces [.nonterminal 0] [.nonterminal 1, .terminal .lexError] :=
    produces_rhs (g := spoiled) (k := 0) rfl
  intro n hn
  obtain rfl | rfl : n = 0 ∨ n = 1 := by
    have hn' : n < 2 := hn
    omega
  · exact ⟨[.number, .lexError], .head hentry (hnumber.append [] [.terminal .lexError])⟩
  · exact ⟨[.number], hnumber⟩

/-- The attentive machine has read what is no token when it completes the number, and the other one
has not. So they accept with values that tell different numbers of reports. -/
theorem values_differ_spoiled :
    (spoiled.Closed ∧ spoiled.Productive ∧ spoiled.Acyclic ∧
      (∀ p ∈ spoiled.rules, .terminal .endOfInput ∉ p.rhs) ∧ Reducer.stamping.Total) ∧
    ((spoiled.engine ⟨"main", 0⟩ {}).attentive.run .stamping 5
      [.ofText .number "1" .start, .ofText .lexError "?" .start] 0).1 = .accepted 1 ∧
    ((spoiled.engine ⟨"main", 0⟩ {}).run .stamping 5
      [.ofText .number "1" .start, .ofText .lexError "?" .start] 0).1 = .accepted 0 :=
  ⟨⟨by decide, productive_spoiled, acyclic_spoiled, by decide, fun _ _ _ ↦ ⟨_, _, rfl⟩⟩, rfl, rfl⟩

end Grammar

end PlainLedger
