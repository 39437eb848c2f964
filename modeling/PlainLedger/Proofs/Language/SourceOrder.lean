import PlainLedger.Proofs.Language.Diagnostics
import PlainLedger.Proofs.Language.Entries
import PlainLedger.Proofs.Language.Layout

/-!
# Diagnostics in the order of the source

A parse says what it has to say about a text in the order of the source, with one exception. What an
interpretation refuses is a whole construct, which is complete only when its last line has been
read; the refusal names its first line, and may come after messages about lines within it.
-/

namespace PlainLedger

/-- The line of the one is not after that of the other, or the other is the refusal of a construct
that the one is about a part of. -/
def Diagnostic.Precedes (d d' : Diagnostic) : Prop :=
  d.line ≤ d'.line ∨ d'.kind = .semantic ∧ (d.kind = .lexical ∨ d.kind = .deprecated)

instance (d d' : Diagnostic) : Decidable (d.Precedes d') := by
  unfold Diagnostic.Precedes
  infer_instance

namespace Language

variable {H ε σ ω : Type}

/-! ## What has been said -/

section Said

/-- What has been said in a run. -/
def said (c : Config (Value H) (Session σ)) : List Diagnostic := c.memory.diagnostics.toList

/-- What has been said is in order, and about no line that has not been reached. -/
structure Spoken (ctx : Context) (c : Config (Value H) (Session σ)) : Prop where
  order : (said c).Pairwise Diagnostic.Precedes
  reached : ∀ d ∈ said c, d.line ≤ ctx.reported c.line

variable {i : Interpretation H ε σ ω} {ctx : Context} {options : Options}
  {c c' : Config (Value H) (Session σ)}

theorem Spoken.of_same (h : Spoken ctx c) (hsaid : said c' = said c)
    (hreached : ∀ d ∈ said c, d.line ≤ ctx.reported c'.line) : Spoken ctx c' := by
  refine ⟨?_, ?_⟩
  · rw [hsaid]
    exact h.order
  · rwa [hsaid]

/-- One more thing is said. -/
theorem Spoken.say (h : Spoken ctx c) {d : Diagnostic} (hsaid : said c' = said c ++ [d])
    (hreached : ∀ d ∈ said c, d.line ≤ ctx.reported c'.line) (hd : ∀ d' ∈ said c, d'.Precedes d)
    (hline : d.line ≤ ctx.reported c'.line) : Spoken ctx c' := by
  refine ⟨?_, ?_⟩
  · rw [hsaid]
    refine List.pairwise_append.mpr ⟨h.order, List.pairwise_singleton _ _, ?_⟩
    intro d' hd' d'' hd''
    rw [List.mem_singleton.mp hd'']
    exact hd d' hd'
  · rw [hsaid]
    intro d' hd'
    rcases List.mem_append.mp hd' with hd' | hd'
    · exact hreached d' hd'
    · rw [List.mem_singleton.mp hd']
      exact hline

/-- What is about the line that the machine is at can be said. -/
theorem Spoken.say_now (h : Spoken ctx c) {d : Diagnostic} (hsaid : said c' = said c ++ [d])
    (hreached : ∀ d ∈ said c, d.line ≤ ctx.reported c'.line)
    (hd : d.line = ctx.reported c'.line) : Spoken ctx c' := by
  refine h.say hsaid hreached (fun d' hd' ↦ Or.inl ?_) hd.le
  rw [hd]
  exact hreached d' hd'

theorem said_report (d : Diagnostic) (c : Config (Value H) (Session σ)) :
    said (c.report (reducer i ctx) d) = said c ++ [d] :=
  Array.toList_push

variable (ctx) in
/-- Nothing is said about slots that are taken off. -/
theorem said_popped (popped : List (Slot (Value H))) (c : Config (Value H) (Session σ)) :
    said (popped.foldl (fun c x ↦ (c.release (reducer i ctx) x.value).record (.pop x)) c) =
      said c := by
  induction popped generalizing c with
  | nil => rfl
  | cons x popped ih => exact ih _

theorem said_push (n : Nat) (v : Value H) (span : Span) (c : Config (Value H) (Session σ)) :
    said (c.push (reducer i ctx) n v span).config = said c := by
  unfold Config.push
  split <;> rfl

theorem said_recover (e : Engine Production) (start : Span) (c : Config (Value H) (Session σ)) :
    said (c.recover e (reducer i ctx) start).config = said c := by
  have hpopped := said_popped (i := i) ctx (Config.unwind e c.stack.slots).1
    { c with
      stack := { c.stack with slots := (Config.unwind e c.stack.slots).2 }
      quiet := e.options.recoveryShifts }
  unfold Config.recover
  dsimp only
  split
  · exact hpopped
  · split
    · exact hpopped
    · exact (said_push _ _ _ _).trans hpopped

/-- What completing a rule says: nothing, or a warning about the line on which it begins. -/
theorem diagnostics_reduce (i : Interpretation H ε σ ω) (ctx : Context) (p : Production)
    (red : Reduction (Value H)) (s : Session σ) :
    ∃ ds, ((reducer i ctx).reduce p red s).2.diagnostics.toList = s.diagnostics.toList ++ ds ∧
      (ds = [] ∨ (∃ v, ((reducer i ctx).reduce p red s).1 = .value v) ∧ p.warns = true ∧
        ∃ d, ds = [d] ∧ d.kind = .deprecated ∧ d.line = ctx.lineOf red.span) := by
  simp only [reducer]
  split
  · exact ⟨[], (List.append_nil _).symm, Or.inl rfl⟩
  · rename_i plan args hrun
    set s' := s.releaseAll i ((args.unused ++ args.pending).flatMap Value.handles) with hs'
    have hsilent : s'.diagnostics = s.diagnostics := rfl
    rw [← hsilent]
    cases plan with
    | warn message v =>
      refine ⟨_, Array.toList_push, Or.inr ⟨⟨v, rfl⟩, ?_, _, rfl, rfl, rfl⟩⟩
      by_contra hquiet
      exact returns_quiet (eq_false_of_ne_true hquiet) _ _ _ _ _ hrun
    | measure c tolerance? =>
      refine ⟨[], ?_, Or.inl rfl⟩
      cases hanswer : i.construct c s'.state with
      | mk answer state =>
        cases answer with
        | ok a => simp [perform_measure_ok i hanswer]
        | error reason => simp [perform_measure_error i hanswer, Session.releaseAll]
    | _ => exact ⟨[], (List.append_nil _).symm, Or.inl rfl⟩

end Said

/-! ## The invariant of a run -/

/-- The stack holds whole declarations only. -/
def Resting (xs : List Symbol) : Prop := ∀ X ∈ xs, X ∈ restingSymbols

instance (xs : List Symbol) : Decidable (Resting xs) := by
  unfold Resting
  infer_instance

/-- What has been said can be divided into what was said before the present declaration, the
warnings of the phrases on the stack, and a message about the token ahead. Nothing on the stack
reaches into what is still to come. Before the first token is read, nothing is said. -/
structure Timely (ctx : Context) (c : Config (Value H) (Session σ)) (xs : List Symbol) : Prop where
  spelled : Spelled grammar (fun _ _ ↦ True) c.stack.slots xs
  punctual : c.Punctual
  begun : c.Begun ∨ (c.ahead? = none ∧ c.exhausted = false) ∧ said c = [] ∧ Resting xs
  spoken : Spoken ctx c
  laid : ∃ old ds lex, said c = old ++ ds ++ lex ∧ Laid ctx c.line old c.stack.slots xs ds ∧
    (∀ d ∈ lex, d.kind = .lexical) ∧ (lex ≠ [] → ∃ t, c.ahead? = some t ∧ t.kind = .lexError)
  edge : Resting xs ∨ ∀ x ∈ c.stack.slots.head?, x.span.lastLine ≤ c.horizon

/-- Nothing has been read ahead where nothing need be. -/
def Unhurried (c : Config (Value H) (Session σ)) (xs : List Symbol) : Prop :=
  ∀ X ∈ xs.head?, Brisk X → c.ahead? = none

/-- What every step keeps. -/
def OnTime (ctx : Context) (c : Config (Value H) (Session σ)) : Prop :=
  ∃ xs, Timely ctx c xs ∧ Unhurried c xs

section Invariant

variable {i : Interpretation H ε σ ω} {ctx : Context} {options : Options}
  {c c' : Config (Value H) (Session σ)} {xs : List Symbol}

theorem Timely.of_resting (hs : Spelled grammar (fun _ _ ↦ True) c.stack.slots xs)
    (hpunctual : c.Punctual)
    (hbegun : c.Begun ∨ (c.ahead? = none ∧ c.exhausted = false) ∧ said c = [])
    (hspoken : Spoken ctx c) (hxs : Resting xs) : Timely ctx c xs := by
  refine ⟨hs, hpunctual, hbegun.imp id fun h ↦ ⟨h.1, h.2, hxs⟩, hspoken, ?_, Or.inl hxs⟩
  exact ⟨said c, [], [], by simp, .rest hxs, nofun, fun h ↦ (h rfl).elim⟩

variable (options) in
/-- Looking ahead moves on to the next token. -/
theorem Timely.peek (h : Timely ctx c xs) :
    Timely ctx (c.peek (engine ctx options) (reducer i ctx)).2 xs ∧
      (c.peek (engine ctx options) (reducer i ctx)).2.Begun := by
  have hbegun := Config.begun_peek (e := engine ctx options) (r := reducer i ctx) h.punctual
    (h.begun.imp id And.left)
  refine ⟨?_, hbegun⟩
  cases hahead : c.ahead? with
  | some t =>
    rw [Config.peek_of_ahead _ _ hahead]
    exact h
  | none =>
    have hpunctual := h.punctual.peek (e := engine ctx options) (r := reducer i ctx)
    have hahead' := c.ahead?_peek (engine ctx options) (reducer i ctx)
    have hmemory := Config.memory_peek (e := engine ctx options) (r := reducer i ctx) c
    have hstack := c.stack_peek (engine ctx options) (reducer i ctx)
    have hhorizon : c.Begun → c.horizon ≤
        (c.peek (engine ctx options) (reducer i ctx)).2.line := Config.horizon_le_peek
    generalize (c.peek (engine ctx options) (reducer i ctx)).2 = c' at *
    generalize (c.peek (engine ctx options) (reducer i ctx)).1 = t at *
    have hspelled := h.spelled
    rw [← hstack] at hspelled
    have hreached : ∀ d ∈ said c, d.line ≤ ctx.reported c'.line := by
      rcases h.begun with hb | ⟨-, hnil, -⟩
      · exact fun d hd ↦ (h.spoken.reached d hd).trans
          (ctx.reported_mono (h.punctual.line_le_horizon.trans (hhorizon hb)))
      · rw [hnil]
        exact nofun
    have hspoken : Spoken ctx c' := by
      rcases hmemory with hsame | ⟨-, d, -, hline, hmemory⟩
      · exact h.spoken.of_same (congrArg (·.diagnostics.toList) hsame) hreached
      · refine h.spoken.say_now (d := d) ?_ hreached hline
        rw [said, hmemory]
        exact Array.toList_push
    rcases h.begun with hb | ⟨-, -, hxs⟩
    · obtain ⟨old, ds, lex, hsaid, hlaid, -, hlex⟩ := h.laid
      obtain rfl : lex = [] := by
        by_contra hne
        obtain ⟨t, ht, -⟩ := hlex hne
        rw [hahead] at ht
        cases ht
      rw [List.append_nil] at hsaid
      have hlaid' := hlaid.mono (h.punctual.line_le_horizon.trans (hhorizon hb))
      rw [← hstack] at hlaid'
      refine ⟨hspelled, hpunctual, Or.inl hbegun, hspoken, ?_, ?_⟩
      · rcases hmemory with hsame | ⟨hkind, d, hd, -, hmemory⟩
        · refine ⟨old, ds, [], ?_, hlaid', nofun, fun h ↦ (h rfl).elim⟩
          rw [List.append_nil, ← hsaid]
          exact congrArg (·.diagnostics.toList) hsame
        · refine ⟨old, ds, [d], ?_, hlaid', ?_, fun _ ↦ ⟨t, hahead', hkind⟩⟩
          · rw [← hsaid, said, hmemory]
            exact Array.toList_push
          · intro d' hd'
            rw [List.mem_singleton.mp hd']
            exact hd
      · rw [hstack, Config.horizon_of_ahead hahead', ← Config.line_of_ahead hahead']
        exact h.edge.imp id fun hle x hx ↦ (hle x hx).trans (hhorizon hb)
    · exact .of_resting hspelled hpunctual (Or.inl hbegun) hspoken hxs

/-- How a step can come out. -/
abbrev KeepsTime (ctx : Context) (s : Step (Value H) (Session σ)) : Prop :=
  s.Post (OnTime ctx) (fun _ ↦ Spoken ctx) fun _ ↦ Spoken ctx

theorem Spoken.same (h : Spoken ctx c) (hsaid : said c' = said c)
    (hsame : Config.SameReading c c') : Spoken ctx c' := by
  refine h.of_same hsaid ?_
  rw [hsame.line_eq]
  exact h.reached

/-- Recovery leaves whole declarations. -/
theorem keepsTime_recover (start : Span) (hs : Spelled grammar (fun _ _ ↦ True) c.stack.slots xs)
    (hpunctual : c.Punctual) (hbegun : c.Begun) (hspoken : Spoken ctx c) :
    KeepsTime ctx (c.recover (engine ctx options) (reducer i ctx) start) := by
  have hsame := Config.sameReading_recover (e := engine ctx options) (r := reducer i ctx) start c
  have hspoken' := hspoken.same (said_recover (engine ctx options) start c) hsame
  have hpunctual' := hpunctual.of_same hsame
  have hbegun' := hbegun.of_same hsame
  have hrecovers := Config.recovers_recover (e := engine ctx options) (r := reducer i ctx) start
    (c := c) rfl hs.ne_nil rfl
  generalize c.recover (engine ctx options) (reducer i ctx) start = s at *
  cases s with
  | accepted v c' => exact hspoken'
  | aborted cause c' => exact hspoken'
  | running c' =>
    obtain ⟨above, ds, bottom, z, -, -, -, -, hslots, hedge, hbelow⟩ :=
      resume_above (T := fun _ _ ↦ True) hrecovers hs
    refine ⟨[.terminal .error, Category.declarations.symbol], ?_, ?_⟩
    · refine .of_resting ?_ hpunctual' (Or.inl hbegun') hspoken' (by decide)
      rw [hslots]
      exact .push hbelow hedge trivial
    · rintro _ ⟨⟩ herror
      exact (herror rfl).elim

/-- Only whole declarations are below one. -/
theorem resting_of_head {x : Slot (Value H)} {rest : List (Slot (Value H))} {X : Symbol}
    (hs : Spelled grammar (fun _ _ ↦ True) (x :: rest) (X :: xs)) (hX : X ∈ restingSymbols) :
    (x.state = closing ∨ x.state = between ∨ x.state = skipped) ∧ Resting (X :: xs) := by
  have hedge := hs
  cases hedge with
  | @push _ y slots _ _ _ he _ =>
    simp only [restingSymbols, List.map_cons, List.map_nil, List.mem_cons, List.not_mem_nil,
      or_false] at hX
    rcases hX with rfl | rfl | rfl
    · obtain ⟨-, hx⟩ := edge_error he
      obtain ⟨_, _, -, -, hxs⟩ := below_skipped hs hx
      rw [hxs]
      exact ⟨Or.inr (Or.inr hx), by decide⟩
    · obtain ⟨-, hx⟩ := edge_file he
      obtain ⟨_, -, hxs⟩ := below_closing hs hx
      rw [hxs]
      exact ⟨Or.inl hx, by decide⟩
    · obtain ⟨-, hx⟩ := edge_declarations he
      obtain ⟨_, -, hxs⟩ := below_between hs hx
      rw [hxs]
      exact ⟨Or.inr (Or.inl hx), by decide⟩

/-- Shifting the token ahead. -/
theorem keepsTime_shift {x : Slot (Value H)} {rest : List (Slot (Value H))} {t : Token} {n : Nat}
    (h : Timely ctx c xs) (hbegun : c.Begun) (hslots : c.stack.slots = x :: rest)
    (hahead : c.ahead? = some t) (hedge : grammar.Edge x.state (.terminal t.kind) n) :
    KeepsTime ctx (c.shift (reducer i ctx) n) := by
  have hspan : t.span = c.lastSpan := h.punctual.span_eq hahead fun hend ↦ by
    rw [hend] at hedge
    exact not_edge_end hedge
  have hline : c.line = t.span.firstLine := Config.line_of_ahead hahead
  have hlex : t.kind ≠ .lexError := by
    intro hkind
    rw [hkind] at hedge
    exact not_edge_lexError hedge
  rw [Config.shift_eq hahead (show (reducer i ctx).ofToken t c.memory = (.ofToken t, c.memory)
    from rfl)]
  set c₁ := c.taken t (.ofToken t) c.memory with hc₁
  have hline₁ : c₁.line = t.span.firstLine := by
    rw [Config.line_of_none rfl, hspan]
    rfl
  have hpunctual : c₁.Punctual := h.punctual.consume rfl rfl rfl
  have hspoken : Spoken ctx c₁ := by
    refine h.spoken.of_same rfl ?_
    rw [hline₁, ← hline]
    exact h.spoken.reached
  refine Config.push_cases (P := KeepsTime ctx) ?_ fun d ↦ hspoken.of_same rfl hspoken.reached
  intro stack hstack
  have hspelled := h.spelled
  rw [hslots] at hspelled
  have hspelled' : Spelled grammar (fun _ _ ↦ True) stack.slots (.terminal t.kind :: xs) := by
    rw [hstack, show c₁.stack.slots = x :: rest from hslots]
    exact .push hspelled hedge trivial
  have hspoken' : Spoken ctx { c₁ with stack } := hspoken.of_same rfl hspoken.reached
  refine ⟨.terminal t.kind :: xs, ?_, fun _ _ _ ↦ rfl⟩
  by_cases hkind : t.kind = .error
  · rw [hkind] at hedge hspelled' ⊢
    obtain ⟨hx, -⟩ := edge_error hedge
    obtain ⟨_, -, rfl⟩ := below_between hspelled hx
    exact .of_resting hspelled' ⟨hpunctual.1, hpunctual.2, hpunctual.3⟩ (Or.inl hbegun) hspoken'
      (by decide)
  · have hX : .terminal t.kind ∉ restingSymbols := by
      simpa [restingSymbols, Category.symbol] using hkind
    have hsolid : .terminal t.kind ∉ hollowSymbols := by
      simp [hollowSymbols, Category.symbol]
    have hproper : t.span.firstLine ≤ t.span.lastLine := by
      rw [hspan]
      exact h.punctual.proper
    refine ⟨hspelled', ⟨hpunctual.1, hpunctual.2, hpunctual.3⟩, Or.inl hbegun, hspoken', ?_,
      Or.inr ?_⟩
    · rw [hstack, show c₁.stack.slots = x :: rest from hslots]
      have hnow : t.span.firstLine ≤ ({ c₁ with stack } : Config _ _).line := hline₁.ge
      have hold : ∀ d ∈ said c, d.line ≤ ctx.lineOf t.span := by
        have hreached := h.spoken.reached
        rw [hline] at hreached
        exact hreached
      by_cases hxs : Resting xs
      · refine ⟨said c, [], [], ?_, ?_, nofun, fun h ↦ (h rfl).elim⟩
        · rw [List.append_nil, List.append_nil]
          rfl
        exact .push (.rest hxs) hX hproper (Or.inl hxs) hold (fun _ ↦ hnow) (marks_nil ctx _ _)
      · obtain ⟨old, ds, lex, hsaid, hlaid, -, hlast⟩ := h.laid
        obtain rfl : lex = [] := by
          by_contra hne
          obtain ⟨t', ht', hkind'⟩ := hlast hne
          cases hahead.symm.trans ht'
          exact hlex hkind'
        rw [List.append_nil] at hsaid
        have hends := h.edge.resolve_left hxs
        rw [Config.horizon_of_ahead hahead, hslots] at hends
        rw [hline, ← hline₁, hslots] at hlaid
        refine ⟨old, ds ++ [], [], ?_, ?_, nofun, fun h ↦ (h rfl).elim⟩
        · rw [List.append_nil, List.append_nil]
          exact hsaid
        · refine .push hlaid hX hproper (Or.inr (hends x rfl)) (fun d hd ↦ hold d ?_)
            (fun _ ↦ hnow) (marks_nil ctx _ _)
          rw [hsaid]
          exact List.mem_append_left _ hd
    · rw [hstack]
      rintro _ ⟨⟩
      rw [hspan]
      exact (Config.horizon_of_none (c := { c₁ with stack }) rfl).ge

/-! ### Completed rules -/

section Reduce

variable {x y z : Slot (Value H)} {rest below : List (Slot (Value H))} {ys : List Symbol} {k : Nat}
  {p : Rule Production}

/-- Declarations are put together. -/
theorem Timely.gather (h : Timely ctx c xs) (hsame : Config.SameReading c c')
    (hsaid : said c' = said c) (hrule : grammar.rules[k]? = some p)
    (hp : p.action.gathers = true) (hs : Spelled grammar (fun _ _ ↦ True) (y :: below) ys)
    (hslots : c'.stack.slots = z :: y :: below)
    (hedge : grammar.Edge y.state (.nonterminal p.lhs) z.state) : OnTime ctx c' := by
  have hspelled : Spelled grammar (fun _ _ ↦ True) c'.stack.slots (.nonterminal p.lhs :: ys) := by
    rw [hslots]
    exact .push hs hedge trivial
  obtain ⟨hy, hlhs, hbrisk⟩ : y.state = opening ∧ .nonterminal p.lhs ∈ restingSymbols ∧
      ¬Brisk (.nonterminal p.lhs) := by
    rcases resting_of_rule hrule hp with hlhs | hlhs
    · rw [hlhs] at hedge ⊢
      exact ⟨(edge_file hedge).1, by decide⟩
    · rw [hlhs] at hedge ⊢
      exact ⟨(edge_declarations hedge).1, by decide⟩
  obtain ⟨-, rfl⟩ := hs.eq_nil_of_start hy
  refine ⟨_, .of_resting hspelled (h.punctual.of_same hsame) ?_ (h.spoken.same hsaid hsame) ?_, ?_⟩
  · rw [hsame.ahead, hsame.exhausted, hsaid]
    exact h.begun.imp (Config.Begun.of_same · hsame) fun h ↦ ⟨h.1, h.2.1⟩
  · rintro X hX
    rwa [List.mem_singleton.mp hX]
  · rintro _ ⟨⟩ hX
    exact (hbrisk hX).elim

/-- A phrase comes up for which nothing is written. -/
theorem Timely.blank {X : Symbol} (h : Timely ctx c (X :: xs)) (hX : X ∉ restingSymbols)
    (hsame : Config.SameReading c c') (hsaid : said c' = said c)
    (hrule : grammar.rules[k]? = some p) (hp : p.action.gathers = false) (hrhs : p.rhs = [])
    (hslots : c.stack.slots = x :: rest) (hslots' : c'.stack.slots = z :: x :: rest)
    (hspan : z.span = x.span.endPoint)
    (hedge : grammar.Edge x.state (.nonterminal p.lhs) z.state) : OnTime ctx c' := by
  obtain ⟨hspelled, hpunctual, hbegun, hspoken, ⟨old, ds, lex, hsaid', hlaid, hlex, hlast⟩,
    hends⟩ := h
  have hnot : ¬Resting (X :: xs) := fun hxs ↦ hX (hxs X (List.mem_cons_self ..))
  have hhollow := ((hollow_of_rule hrule hp).1 hrhs).2
  rw [hslots] at hspelled hlaid hends
  refine ⟨.nonterminal p.lhs :: X :: xs, ⟨?_, hpunctual.of_same hsame, ?_, hspoken.same hsaid hsame,
    ⟨old, ds, lex, ?_, ?_, hlex, ?_⟩, Or.inr ?_⟩, ?_⟩
  · rw [hslots']
    exact .push hspelled hedge trivial
  · exact Or.inl ((hbegun.resolve_right fun h ↦ hnot h.2.2).of_same hsame)
  · rw [hsaid, hsaid']
  · rw [hslots', hsame.line_eq]
    obtain ⟨n, v, span⟩ := z
    cases hspan
    exact hlaid.blank hX (not_resting_of_rule hrule hp).1 hhollow n v
  · rwa [hsame.ahead]
  · rw [hslots', hsame.horizon_eq]
    rintro _ ⟨⟩
    rw [hspan]
    exact hends.resolve_left hnot x rfl
  · rintro _ ⟨⟩ hbrisk
    have hall : ∀ X ∈ hollowSymbols, ¬Brisk X := by decide
    exact (hall _ hhollow hbrisk).elim

/-- What belongs to a declaration is on top of the stack. -/
theorem not_resting_of_take (hrule : grammar.rules[k]? = some p) (hp : p.action.gathers = false)
    (hrhs : p.rhs ≠ []) (htake : (xs.take p.rhs.length).reverse = p.rhs) : ¬Resting xs := by
  intro hxs
  obtain ⟨X, hX⟩ := List.exists_mem_of_ne_nil _ hrhs
  have hmem : X ∈ xs.take p.rhs.length := by
    rw [List.reverse_eq_iff.mp htake]
    exact List.mem_reverse.mpr hX
  exact (not_resting_of_rule hrule hp).2 X hX (hxs X (List.mem_of_mem_take hmem))

/-- No message about the token ahead comes before a warning. -/
theorem eq_nil_of_warns {lex : List Diagnostic}
    (hquick : p.action.warns = true ∨ Brisk (.nonterminal p.lhs) → c.ahead? = none)
    (hlast : lex ≠ [] → ∃ t, c.ahead? = some t ∧ t.kind = .lexError)
    (hwarns : p.action.warns = true) : lex = [] := by
  by_contra hne
  obtain ⟨t, ht, -⟩ := hlast hne
  rw [hquick (Or.inl hwarns)] at ht
  cases ht

/-- What the completion of a rule says keeps to the order. -/
theorem Timely.warn {ds' : List Diagnostic} (h : Timely ctx c xs)
    (hsame : Config.SameReading c c') (hsaid : said c' = said c ++ ds')
    (hrule : grammar.rules[k]? = some p) (hslots : c.stack.slots = x :: rest)
    (hle : p.rhs.length ≤ xs.length) (htake : (xs.take p.rhs.length).reverse = p.rhs)
    (hbelow : (x :: rest).drop p.rhs.length = y :: below)
    (hds' : ds' = [] ∨ p.action.warns = true ∧ ∃ d, ds' = [d] ∧ d.kind = .deprecated ∧
      d.line = ctx.lineOf (Reduction.ofSlots k p.rhs.length (x :: rest)).span)
    (hquick : p.action.warns = true ∨ Brisk (.nonterminal p.lhs) → c.ahead? = none) :
    Spoken ctx c' := by
  rcases hds' with rfl | ⟨hwarns, d, rfl, -, hline⟩
  · exact h.spoken.same (hsaid.trans (List.append_nil _)) hsame
  · obtain ⟨hspelled, -, -, hspoken, ⟨old, ds, lex, hsaid', hlaid, -, hlast⟩, -⟩ := h
    obtain rfl : lex = [] := eq_nil_of_warns hquick hlast hwarns
    obtain ⟨hp, -, hrhs⟩ := list_of_warns hrule hwarns
    rw [hslots] at hspelled hlaid
    obtain ⟨hold, hnow, -, hwarnings, -⟩ := hlaid.complete hrule hp hrhs hspelled.length_eq hle
      htake hbelow
    rw [List.append_nil] at hsaid'
    refine hspoken.say hsaid ?_ (fun d' hd' ↦ Or.inl ?_) ?_
    · rw [hsame.line_eq]
      exact hspoken.reached
    · rw [hline]
      rw [hsaid'] at hd'
      rcases List.mem_append.mp hd' with hd' | hd'
      · exact hold d' hd'
      · exact hwarnings hwarns d' hd'
    · rw [hline, hsame.line_eq]
      exact ctx.reported_mono hnow

/-- A completed rule is refused: the refusal names the line on which it begins. -/
theorem Timely.refuse {d : Diagnostic} (h : Timely ctx c xs) (hsame : Config.SameReading c c')
    (hsaid : said c' = said c ++ [d]) (hkind : d.kind = .semantic)
    (hline : d.line = ctx.lineOf (Reduction.ofSlots k p.rhs.length (x :: rest)).span)
    (hrule : grammar.rules[k]? = some p) (hp : p.action.gathers = false) (hrhs : p.rhs ≠ [])
    (hslots : c.stack.slots = x :: rest) (hle : p.rhs.length ≤ xs.length)
    (htake : (xs.take p.rhs.length).reverse = p.rhs)
    (hbelow : (x :: rest).drop p.rhs.length = y :: below) : Spoken ctx c' := by
  obtain ⟨hspelled, -, -, hspoken, ⟨old, ds, lex, hsaid', hlaid, hlex, -⟩, -⟩ := h
  rw [hslots] at hspelled hlaid
  obtain ⟨hold, hnow, -⟩ := hlaid.complete hrule hp hrhs hspelled.length_eq hle htake hbelow
  refine hspoken.say hsaid ?_ (fun d' hd ↦ ?_) ?_
  · rw [hsame.line_eq]
    exact hspoken.reached
  · rw [hsaid', List.append_assoc, List.mem_append, List.mem_append] at hd
    rcases hd with hd | hd | hd
    · exact Or.inl (hline ▸ hold d' hd)
    · exact Or.inr ⟨hkind, Or.inr (hlaid.kind_eq d' hd)⟩
    · exact Or.inr ⟨hkind, Or.inl (hlex d' hd)⟩
  · rw [hline, hsame.line_eq]
    exact ctx.reported_mono hnow

/-- A rule is completed, some of whose parts are written, and the stack is laid out as before. -/
theorem Timely.complete {ds' : List Diagnostic} (h : Timely ctx c xs)
    (hsame : Config.SameReading c c') (hsaid : said c' = said c ++ ds')
    (hspoken' : Spoken ctx c') (hrule : grammar.rules[k]? = some p)
    (hp : p.action.gathers = false) (hrhs : p.rhs ≠ []) (hslots : c.stack.slots = x :: rest)
    (hle : p.rhs.length ≤ xs.length) (htake : (xs.take p.rhs.length).reverse = p.rhs)
    (hbelow : (x :: rest).drop p.rhs.length = y :: below)
    (hs : Spelled grammar (fun _ _ ↦ True) (y :: below) (xs.drop p.rhs.length))
    (hslots' : c'.stack.slots = z :: y :: below)
    (hspan : z.span = (Reduction.ofSlots k p.rhs.length (x :: rest)).span)
    (hedge : grammar.Edge y.state (.nonterminal p.lhs) z.state)
    (hds' : ds' = [] ∨ p.action.warns = true ∧ ∃ d, ds' = [d] ∧ d.kind = .deprecated ∧
      d.line = ctx.lineOf (Reduction.ofSlots k p.rhs.length (x :: rest)).span)
    (hquick : p.action.warns = true ∨ Brisk (.nonterminal p.lhs) → c.ahead? = none) :
    OnTime ctx c' := by
  obtain ⟨hspelled, hpunctual, hbegun, -, ⟨old, ds, lex, hsaid', hlaid, hlex, hlast⟩, hends⟩ := h
  rw [hslots] at hspelled hlaid hends
  obtain ⟨-, -, hlastLine, -, hlaid'⟩ := hlaid.complete hrule hp hrhs hspelled.length_eq hle htake
    hbelow
  have hnot := not_resting_of_take hrule hp hrhs htake
  refine ⟨.nonterminal p.lhs :: xs.drop p.rhs.length, ⟨?_, hpunctual.of_same hsame, ?_, hspoken',
    ⟨old, ds ++ ds', lex, ?_, ?_, hlex, ?_⟩, Or.inr ?_⟩, ?_⟩
  · rw [hslots']
    exact .push hs hedge trivial
  · exact Or.inl ((hbegun.resolve_right fun h ↦ hnot h.2.2).of_same hsame)
  · rw [hsaid, hsaid']
    rcases hds' with rfl | ⟨hwarns, -⟩
    · rw [List.append_nil, List.append_nil]
    · obtain rfl : lex = [] := eq_nil_of_warns hquick hlast hwarns
      rw [List.append_nil, List.append_nil, List.append_assoc]
  · rw [hslots', hsame.line_eq]
    obtain ⟨n, v, span⟩ := z
    cases hspan
    exact hlaid' n v ds' hds'
  · rwa [hsame.ahead]
  · rw [hslots', hsame.horizon_eq]
    rintro _ ⟨⟩
    rw [hspan, hlastLine x rfl]
    exact hends.resolve_left hnot x rfl
  · rintro _ ⟨⟩ hbrisk
    rw [hsame.ahead]
    exact hquick (Or.inr hbrisk)

/-- In a state of whole declarations, declarations are put together. -/
theorem gathers_of_resting {row : Row} {t : Terminal} {n : Nat}
    (hs : Spelled grammar (fun _ _ ↦ True) (x :: rest) xs) (hxs : Resting xs)
    (hrow : tables.row? x.state = some row) (hdecide : row.decide t = some (.reduce k))
    (hrule : grammar.rules[k]? = some p) (hbelow : (x :: rest).drop p.rhs.length = y :: below)
    (hedge : grammar.Edge y.state (.nonterminal p.lhs) n) : p.action.gathers = true := by
  have hgathers := (declarationRule hrule).gathers
  cases xs with
  | nil =>
    obtain ⟨hx, -⟩ : x.state = opening ∧ rest = [] := by
      cases hs with
      | bottom hx => exact ⟨hx, rfl⟩
    obtain ⟨k', p', hdecide', hrule', -, -, haction⟩ := decide_opening (hx ▸ hrow) t
    cases hdecide.symm.trans hdecide'
    cases Option.some.inj (hrule.symm.trans hrule')
    rw [haction]
    rfl
  | cons X xs =>
    obtain ⟨hx, -⟩ := resting_of_head hs (hxs X (List.mem_cons_self ..))
    rcases lhs_of_atDeclaration hs hx hrow hdecide hrule hbelow hedge with ⟨hlhs, -⟩ | ⟨hlhs, -⟩
    · exact hgathers (Or.inl hlhs)
    · exact hgathers (Or.inr hlhs)

/-- Completing a rule. -/
theorem keepsTime_reduce {row : Row} {t : Terminal} (h : Timely ctx c xs)
    (hslots : c.stack.slots = x :: rest) (hrow : tables.row? x.state = some row)
    (hdecide : row.decide t = some (.reduce k)) (hrule : grammar.rules[k]? = some p)
    (hquick : p.action.warns = true ∨ Brisk (.nonterminal p.lhs) → c.ahead? = none) :
    KeepsTime ctx (c.reduce (engine ctx options) (reducer i ctx) k) := by
  have hs := h.spelled
  rw [hslots] at hs
  obtain ⟨p', hrule', hhas⟩ := Grammar.allows_of_decide hrow hdecide
  cases Option.some.inj (hrule.symm.trans hrule')
  obtain ⟨hle, htake, -, y, below, hbelow, hpredicted, hs'⟩ := hs.reduce hrule hhas
  obtain ⟨n, S, hS, htarget⟩ := Grammar.exists_goto hpredicted hrule
  obtain ⟨row', hrow'⟩ := Grammar.exists_row hS
  have hgoto := (Grammar.goto?_eq_some_iff hrow').mpr ⟨S, hS, htarget⟩
  have hedge : grammar.Edge y.state (.nonterminal p.lhs) n := ⟨S, hS, htarget⟩
  obtain ⟨⟨verdict, m⟩, hverdict⟩ : ∃ out, (reducer i ctx).reduce p.action
      (.ofSlots k p.rhs.length (x :: rest)) c.memory = out := ⟨_, rfl⟩
  obtain ⟨ds', hds', hwarned⟩ := diagnostics_reduce i ctx p.action
    (.ofSlots k p.rhs.length (x :: rest)) c.memory
  rw [hverdict] at hds' hwarned
  have hdropped : (c.reduced k p (verdict, m)).stack.slots = y :: below := by
    rw [← hbelow, ← hslots]
    rfl
  have hsame : Config.SameReading c (c.reduced k p (verdict, m)) :=
    .event (.reduce _ verdict) rfl rfl rfl rfl rfl rfl rfl
  have hsaid : said (c.reduced k p (verdict, m)) = said c ++ ds' := hds'
  have hsilent : (∀ v, verdict ≠ .value v) → ds' = [] := fun hne ↦
    hwarned.resolve_right fun hwarns ↦ hwarns.1.elim hne
  replace hwarned := hwarned.imp id And.right
  have hspoken := h.warn hsame hsaid hrule hslots hle htake hbelow hwarned hquick
  -- the phrase is put on the stack, or there is no room for it
  have hgo : ∀ v (stack : Stack (Value H)), stack.slots =
      ⟨n, v, (Reduction.ofSlots k p.rhs.length (x :: rest)).span⟩ :: y :: below →
        OnTime ctx { c.reduced k p (verdict, m) with stack } := by
    intro v stack hstack
    have hsame' : Config.SameReading c { c.reduced k p (verdict, m) with stack } :=
      hsame.trans ⟨rfl, rfl, rfl, rfl, rfl, rfl⟩
    have hspoken' : Spoken ctx { c.reduced k p (verdict, m) with stack } :=
      hspoken.of_same rfl hspoken.reached
    by_cases hp : p.action.gathers = true
    · have hnil : ds' = [] := hwarned.resolve_right fun hwarns ↦ by
        rw [(list_of_warns hrule hwarns.1).1] at hp
        cases hp
      rw [hnil, List.append_nil] at hsaid
      exact h.gather hsame' hsaid hrule hp hs' hstack hedge
    · replace hp := eq_false_of_ne_true hp
      by_cases hrhs : p.rhs = []
      · have hnil : ds' = [] := hwarned.resolve_right fun hwarns ↦
          (list_of_warns hrule hwarns.1).2.2 hrhs
        rw [hnil, List.append_nil] at hsaid
        have hnot : ¬Resting xs := fun hxs ↦ by
          rw [gathers_of_resting hs hxs hrow hdecide hrule hbelow hedge] at hp
          cases hp
        rw [hrhs] at hbelow hstack
        cases hbelow
        obtain ⟨X, xs, rfl⟩ := List.exists_cons_of_ne_nil
          (show xs ≠ [] from fun hnil ↦ hnot (hnil ▸ nofun))
        have hX : X ∉ restingSymbols := fun hX ↦ hnot (resting_of_head hs hX).2
        exact h.blank hX hsame' hsaid hrule hp hrhs hslots hstack rfl hedge
      · exact h.complete hsame' hsaid hspoken' hrule hp hrhs hslots hle htake hbelow hs' hstack rfl
          hedge hwarned hquick
  rw [Config.reduce_eq hrule (by rw [hslots, hverdict]), hslots]
  cases verdict with
  | value v =>
    refine Config.post_goto (engine ctx options) (reducer i ctx) hdropped hrow' hgoto ?_
    refine Config.push_cases (P := KeepsTime ctx) ?_ fun _ ↦ hspoken.of_same rfl hspoken.reached
    intro stack hstack
    rw [hdropped] at hstack
    exact hgo v stack hstack
  | rejected message =>
    have hp : p.action.gathers = false := eq_false_of_ne_true fun hp ↦
      not_rejected_of_gathers i ctx hp _ _ message (congrArg Prod.fst hverdict)
    have hrhs : p.rhs ≠ [] := fun hrhs ↦
      not_rejected_of_isBlank i ctx ((hollow_of_rule hrule hp).1 hrhs).1 _ _ message
        (congrArg Prod.fst hverdict)
    rw [hsilent nofun, List.append_nil] at hsaid
    dsimp only
    set d := Config.diagnostic (engine ctx options) .semantic ((engine ctx options).context.lineOf
      (Reduction.ofSlots k p.rhs.length (x :: rest)).span) message with hd
    have hsame' := hsame.trans (Config.sameReading_report (r := reducer i ctx) d _)
    have hspelled : Spelled grammar (fun _ _ ↦ True)
        ((c.reduced k p (.rejected message, m)).report (reducer i ctx) d).stack.slots
        (xs.drop p.rhs.length) := by
      rw [Config.stack_report, hdropped]
      exact hs'
    have hbegun := h.begun.resolve_right fun h ↦ not_resting_of_take hrule hp hrhs htake h.2.2
    refine keepsTime_recover _ hspelled (h.punctual.of_same hsame') (hbegun.of_same hsame') ?_
    refine h.refuse (d := d) hsame' ?_ rfl rfl hrule hp hrhs hslots hle htake hbelow
    rw [said_report, hsaid]
  | fatal cause => exact hspoken

end Reduce

/-! ### Steps -/

variable (ctx) in
theorem said_complain (e : Engine Production) (n : Nat) (t : Token)
    (c : Config (Value H) (Session σ)) :
    said (c.complain e (reducer i ctx) n t) = said c ∨
      ∃ d : Diagnostic, d.line = e.context.lineOf t.span ∧
        said (c.complain e (reducer i ctx) n t) = said c ++ [d] := by
  unfold Config.complain
  split
  · exact Or.inr ⟨_, rfl, said_report _ _⟩
  · exact Or.inl rfl

/-- A token is unexpected. -/
theorem keepsTime_fail (h : Timely ctx c xs) (n : Nat) :
    KeepsTime ctx (c.fail (engine ctx options) (reducer i ctx) n) := by
  obtain ⟨hpeek, hbegun⟩ := h.peek (i := i) options
  have hahead := c.ahead?_peek (engine ctx options) (reducer i ctx)
  unfold Config.fail
  dsimp only
  generalize (c.peek (engine ctx options) (reducer i ctx)).2 = c₁ at *
  generalize (c.peek (engine ctx options) (reducer i ctx)).1 = t at *
  have hsame := Config.sameReading_complain (e := engine ctx options) (r := reducer i ctx) n t c₁
  have hcomplain := said_complain (i := i) ctx (engine ctx options) n t c₁
  have hstack := Config.stack_complain (e := engine ctx options) (r := reducer i ctx) c₁ n t
  generalize c₁.complain (engine ctx options) (reducer i ctx) n t = c₂ at *
  have hline : c₁.line = t.span.firstLine := Config.line_of_ahead hahead
  have hreached : ∀ d ∈ said c₁, d.line ≤ ctx.reported c₂.line := by
    rw [hsame.line_eq]
    exact hpeek.spoken.reached
  have hspoken : Spoken ctx c₂ := by
    rcases hcomplain with hsaid | ⟨d, hd, hsaid⟩
    · exact hpeek.spoken.of_same hsaid hreached
    · refine hpeek.spoken.say_now hsaid hreached ?_
      rw [hd, hsame.line_eq, hline]
      rfl
  have hspelled := hpeek.spelled
  rw [← hstack] at hspelled
  have hpunctual := hpeek.punctual.of_same hsame
  have hbegun₂ := hbegun.of_same hsame
  split
  · split
    · exact hspoken
    · rename_i hkind
      refine keepsTime_recover _ hspelled (hpunctual.consume rfl rfl rfl) hbegun₂ ?_
      have hline₂ : c₂.line = c₂.lastSpan.firstLine := by
        rw [hsame.line_eq, hline, hpeek.punctual.span_eq hahead hkind, hsame.lastSpan]
      have hreached₂ := hspoken.reached
      rw [hline₂] at hreached₂
      exact hspoken.of_same rfl hreached₂
  · exact keepsTime_recover _ hspelled hpunctual hbegun₂ hspoken

/-- A step keeps to the order. -/
theorem keepsTime_step (h : OnTime ctx c) :
    KeepsTime ctx (c.step (engine ctx options) (reducer i ctx)) := by
  obtain ⟨xs, htimely, hunhurried⟩ := h
  obtain ⟨x, rest, hslots⟩ := List.exists_cons_of_ne_nil htimely.spelled.ne_nil
  have hs := htimely.spelled
  rw [hslots] at hs
  obtain ⟨S, hS⟩ := hs.path.exists_state
  obtain ⟨row, hrow⟩ := Grammar.exists_row hS
  obtain ⟨hpeek, hbegun⟩ := htimely.peek (i := i) options
  have hconsult : Timely ctx (c.consult (engine ctx options) (reducer i ctx) row) xs := by
    unfold Config.consult
    split
    · exact hpeek
    · exact htimely
  have hslots' : (c.consult (engine ctx options) (reducer i ctx) row).stack.slots = x :: rest := by
    rw [Config.stack_consult, hslots]
  rw [Config.step_eq (engine ctx options) (reducer i ctx) hslots hrow]
  split
  · rename_i n hdecide
    rw [Config.consult_of_decide _ _ hdecide (by simp)] at hslots' ⊢
    exact keepsTime_shift hpeek hbegun hslots' (c.ahead?_peek _ _)
      (Grammar.allows_of_decide hrow hdecide)
  · rename_i k hdecide
    obtain ⟨p, hrule, hhas⟩ := Grammar.allows_of_decide hrow hdecide
    refine keepsTime_reduce hconsult hslots' hrow hdecide hrule fun hp ↦ ?_
    obtain ⟨X, hX, hbrisk⟩ := brisk_of_rule hrule hp
    obtain ⟨-, htake, -⟩ := hs.reduce hrule hhas
    rw [← htake, List.getLast?_reverse, List.head?_take] at hX
    rw [Config.consult, needsLookahead_of_decide hrow hdecide hrule hp]
    split at hX
    · cases hX
    · exact hunhurried X hX hbrisk
  · unfold Config.accept
    split <;> exact hconsult.spoken.of_same rfl hconsult.spoken.reached
  · exact keepsTime_fail hconsult x.state

/-- At first nothing has been said. -/
theorem keepsTime_start {tokens : List Token} (htokens : Token.Successive tokens) (state : σ) :
    KeepsTime ctx ((engine ctx options).start (reducer i ctx) tokens ⟨state, #[]⟩) := by
  have hnil : ∀ c : Config (Value H) (Session σ), said c = [] → Spoken ctx c := by
    intro c hsaid
    refine ⟨?_, ?_⟩ <;> rw [hsaid]
    · exact .nil
    · exact nofun
  have hpunctual := Config.punctual_start (e := engine ctx options) (r := reducer i ctx) tokens
    ⟨state, #[]⟩ htokens
  have hsaid :
      said ((engine ctx options).start (reducer i ctx) tokens ⟨state, #[]⟩).config = [] := by
    unfold Engine.start
    dsimp only
    split
    · rfl
    · exact said_push _ _ _ _
  have hstart : ((engine ctx options).start (reducer i ctx) tokens ⟨state, #[]⟩).Post
      (fun c ↦ c.stack.slots = [⟨0, (reducer i ctx).blank, .start⟩] ∧ c.ahead? = none ∧
        c.exhausted = false) (fun _ _ ↦ False) fun _ _ ↦ True :=
    Engine.post_start _ _ (fun c hslots hahead _ hexhausted _ _ ↦ ⟨hslots, hahead, hexhausted⟩)
      fun _ _ _ ↦ trivial
  generalize (engine ctx options).start (reducer i ctx) tokens ⟨state, #[]⟩ = s at *
  cases s with
  | accepted v c => exact hnil c hsaid
  | aborted cause c => exact hnil c hsaid
  | running c =>
    obtain ⟨hslots, hahead, hexhausted⟩ := hstart
    refine ⟨[], .of_resting ?_ hpunctual (Or.inr ⟨⟨hahead, hexhausted⟩, hsaid⟩)
      (hnil c hsaid) nofun,
      nofun⟩
    rw [hslots]
    exact .bottom rfl

/-- What a whole run has said is in order. -/
theorem keepsTime_steps {tokens : List Token} (htokens : Token.Successive tokens) (state : σ)
    (n : Nat) :
    KeepsTime ctx ((engine ctx options).steps (reducer i ctx) n
      ((engine ctx options).start (reducer i ctx) tokens ⟨state, #[]⟩)) :=
  (engine ctx options).post_steps (reducer i ctx) (fun _ h ↦ keepsTime_step h) n
    (keepsTime_start htokens state)

end Invariant

/-! ## Parses -/

section Parses

variable (i : Interpretation H ε σ ω) (ctx : Context) (options : Options) {tokens : List Token}
  (state : σ)

/-- Giving up is said last, about the line that has been reached. -/
theorem order_conclude {i : Interpretation H ε σ ω} {ctx : Context} {options : Options}
    {s : Step (Value H) (Session σ)} (h : KeepsTime ctx s)
    (hlist : ∀ v, ((engine ctx options).finish (reducer i ctx) s).1 = .accepted v →
      ∃ hs, v = .list hs)
    (hend : ((engine ctx options).finish (reducer i ctx) s).1 ≠ .unfinished) :
    (conclude i ctx ((engine ctx options).finish (reducer i ctx) s)).1.diagnostics.Pairwise
      Diagnostic.Precedes := by
  cases s with
  | running c => exact (hend rfl).elim
  | accepted v c =>
    obtain ⟨hs, rfl⟩ := hlist v rfl
    change (Engine.clear (reducer i ctx) c).memory.diagnostics.toList.Pairwise Diagnostic.Precedes
    rw [diagnostics_clear]
    exact h.order
  | aborted cause c =>
    have hsame := Config.sameReading_clear (r := reducer i ctx) c
    have hclear : Spoken ctx (Engine.clear (reducer i ctx) c) :=
      h.same (congrArg Array.toList (diagnostics_clear i ctx c)) hsame
    exact Spoken.order (c := (Engine.clear (reducer i ctx) c).report (reducer i ctx)
      (Config.diagnostic (engine ctx options) .fatal
        ((Engine.clear (reducer i ctx) c).currentLine (engine ctx options)) cause.message))
      (hclear.say_now (said_report _ _) hclear.reached rfl)

/-- What is accepted is a list of entries. -/
theorem exists_list_of_accepted {v : Value H}
    (h : (run i.watched ctx options tokens (state, [])).1 = .accepted v) : ∃ hs, v = .list hs := by
  have hends := ends_run i ctx options tokens state
  generalize run i.watched ctx options tokens (state, []) = out at h hends
  cases hends with
  | accepted hv =>
    obtain ⟨hs, hv, -⟩ := hv
    cases h
    exact ⟨hs, hv⟩
  | aborted => cases h
  | unfinished => cases h

/-- If the tokens stand one after the other, what an interpretation is told comes in the order of
the source, and so do the diagnostics that are returned. Only a refusal, which names the first line
of the construct that was refused, may come after a lexical message or a warning about a later
line. -/
theorem diagnostics_in_order (htokens : Token.Successive tokens) :
    ((parse i.watched ctx options tokens (state, [])).2.2.filterMap
        Exchange.reported?).Pairwise Diagnostic.Precedes ∧
      (parse i ctx options tokens state).1.diagnostics.Pairwise Diagnostic.Precedes := by
  suffices horder : (parse i.watched ctx options tokens (state, [])).1.diagnostics.Pairwise
      Diagnostic.Precedes by
    rw [told_parse i ctx options tokens state]
    rw [(parse_watched i ctx options tokens state []).1] at horder ⊢
    exact ⟨horder, horder⟩
  have hend := run_ne_unfinished i.watched ctx options tokens (state, [])
  have hlist : ∀ v, (run i.watched ctx options tokens (state, [])).1 = .accepted v →
      ∃ hs, v = .list hs := fun _ ↦ exists_list_of_accepted i ctx options state
  unfold parse run Engine.run at *
  generalize stepBudget tokens.length = budget at *
  exact order_conclude (keepsTime_steps htokens _ budget) hlist hend

end Parses

/-! ## Texts that are not in order -/

section Texts

/-- No token ends before it begins, and none begins on a line before those that come earlier. It may
begin before they have ended. -/
def InLineOrder (ts : List Token) : Prop :=
  (∀ t ∈ ts, t.span.firstLine ≤ t.span.lastLine) ∧
    ts.Pairwise fun t u ↦ t.span.firstLine ≤ u.span.firstLine

instance (ts : List Token) : Decidable (InLineOrder ts) := by
  unfold InLineOrder
  infer_instance

/-- The interpretation that makes everything but transactions. -/
def refusingTransactions : Interpretation Unit Unit Unit Unit where
  construct
    | .transaction .., s => (.error (), s)
    | _, s => (.ok (), s)
  declare _ s := (.ok (), s)
  report _ s := s
  release _ s := s
  finish _ s := ((), s)
  message _ := ""

def tokenOn (line : Nat) (kind : Terminal) : Token := .ofText kind "" (.point line 1)

/-- A transaction with a posting on its second line, whose cost is written with a slash. -/
def slashedLot : List Token :=
  tokenOn 1 .date :: .ofFlag '*' (.point 1 1) :: tokenOn 1 .eol ::
    [Terminal.indent, .account, .number, .currency, .leftBrace, .number, .currency, .slash, .date,
      .rightBrace, .eol].map (tokenOn 2)

/-- What comes after the flag begins before the flag has ended. -/
def overlappingFlag : List Token :=
  [tokenOn 1 .date, .ofFlag '*' ⟨1, 1, 9, 1⟩, tokenOn 2 .pipe, tokenOn 3 .account]

/-- What is found in a text, if all transactions are refused. -/
def findings (tokens : List Token) : List (Diagnostic.Kind × Line) :=
  (parse refusingTransactions ⟨"", 0⟩ {} tokens ()).1.diagnostics.map fun d ↦ (d.kind, d.line)

theorem diagnostics_in_order_slashedLot :
    Token.Successive slashedLot ∧
      ((parse refusingTransactions.watched ⟨"", 0⟩ {} slashedLot ((), [])).2.2.filterMap
        Exchange.reported?).Pairwise Diagnostic.Precedes ∧
      (parse refusingTransactions ⟨"", 0⟩ {} slashedLot ()).1.diagnostics.Pairwise
        Diagnostic.Precedes :=
  ⟨by decide, diagnostics_in_order refusingTransactions ⟨"", 0⟩ {} () (by decide)⟩

theorem findings_eq :
    findings slashedLot = [(.deprecated, 2), (.semantic, 1)] ∧
      findings overlappingFlag = [(.deprecated, 9), (.grammatical, 3)] := by
  unfold findings parse run engine
  rw [tables_eq]
  decide +kernel

/-- The lines of the diagnostics can decrease: a transaction is refused after a warning about a line
within it, and where tokens overlap, a warning may be about a line that is not yet reached. -/
theorem lines_decrease :
    (InLineOrder slashedLot ∧ ¬((findings slashedLot).map Prod.snd).Pairwise (· ≤ ·)) ∧
      InLineOrder overlappingFlag ∧
        ¬((findings overlappingFlag).map Prod.snd).Pairwise (· ≤ ·) := by
  obtain ⟨hslashed, hoverlapping⟩ := findings_eq
  rw [hslashed, hoverlapping]
  decide

end Texts

end Language

end PlainLedger
