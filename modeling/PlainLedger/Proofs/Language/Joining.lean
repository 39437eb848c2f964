import PlainLedger.Proofs.Grammar.Margins
import PlainLedger.Proofs.Language.Layout
import PlainLedger.Proofs.Language.Passages

/-!
# Texts one after the other

A text of whole lines adds to a ledger what it comes to alone, between what the texts before it and
those after it add. So a text in disorder costs nothing of the texts around it.
-/

namespace PlainLedger

open Transcript (Refusal)

namespace Engine

variable {α V σ : Type} {e : Engine α} {r : Reducer α V σ} {k n : Nat} {s : Step V σ}

theorem steps_comm (e : Engine α) (r : Reducer α V σ) (k n : Nat) (s : Step V σ) :
    e.steps r k (e.steps r n s) = e.steps r n (e.steps r k s) := by
  rw [← steps_add, ← steps_add, Nat.add_comm]

/-- What is accepted in the end is accepted from every point of the run. -/
theorem accepted_of_running {c c' : Config V σ} {v : V} (hk : e.steps r k s = .running c)
    (hn : e.steps r n s = .accepted v c') : e.steps r n (.running c) = .accepted v c' := by
  rw [← hk, steps_comm, hn, steps_accepted]

/-- What is accepted is not given up. -/
theorem not_aborted_of_accepted {c c' : Config V σ} {v : V} {cause : Abort}
    (hn : e.steps r n s = .accepted v c') : e.steps r k s ≠ .aborted cause c := by
  intro hk
  have hcomm := steps_comm e r k n s
  rw [hn, hk, steps_accepted, steps_aborted] at hcomm
  cases hcomm

/-- What is accepted is accepted once. -/
theorem accepted_unique {c c' : Config V σ} {v v' : V} (hk : e.steps r k s = .accepted v c)
    (hn : e.steps r n s = .accepted v' c') : v = v' ∧ c = c' := by
  have hcomm := steps_comm e r k n s
  rw [hk, hn, steps_accepted, steps_accepted] at hcomm
  cases hcomm
  exact ⟨rfl, rfl⟩

end Engine

namespace Language

variable {H ε σ ω : Type}

/-! ## Where texts end -/

theorem margin : grammar.Margin
    (Category.file.symbol :: Category.declarations.symbol :: hollowSymbols)
    (Category.file.symbol :: Category.declarations.symbol :: lineSymbols) where
  made := by decide +kernel
  among := by decide +kernel

/-- A text that is read without error begins with no indented line and ends where a line ends. -/
theorem whole_of_complete {i : Interpretation H ε σ ω} {ctx : Context} {options : Options}
    {tokens : List Token} {state : σ} {whole : ω} {ds : List Diagnostic}
    (hcomplete : (parse i ctx options tokens state).1 = .complete whole ds)
    (herrors : hasErrors ds = false) (hends : ∀ t ∈ tokens, t.kind ≠ .endOfInput) :
    (∀ t ∈ tokens.head?, t.kind ≠ .indent) ∧ ∀ t ∈ tokens.getLast?, EndsLine t := by
  obtain ⟨f, hleaves⟩ := exists_forest_of_complete hcomplete herrors
  have htext : textOf tokens = tokens :=
    List.takeWhile_eq_self_iff.mpr fun t ht ↦ decide_eq_true (hends t ht)
  rw [htext] at hleaves
  constructor
  · intro t ht hindent
    have hfirst := f.first_mem_apply closed (t := .endOfInput) (s := .singleton .endOfInput)
      (TerminalSet.mem_singleton.mpr rfl)
    have hhead : f.first .endOfInput = .indent := by
      unfold Forest.first
      rw [hleaves, List.head?_map, Option.mem_def.mp ht]
      exact hindent
    rw [hhead, flows_eq] at hfirst
    revert hfirst
    decide +kernel
  · intro t ht
    have hlast := f.getLast?_leaves_mem margin ⟨fun _ ↦ List.mem_cons_self .., trivial⟩
      (.token t) (by
      rw [hleaves, List.getLast?_map, Option.mem_def.mp ht]
      rfl)
    exact (List.mem_cons.mp ((List.mem_cons.mp hlast).resolve_left nofun)).resolve_left nofun

/-! ## From one text to the next -/

/-- From here on the machine comes to accept the list. -/
def Accepts (make : Construction H → H) (ctx : Context) (options : Options)
    (c : Config (Value H) (Granted H)) (hs : List H) : Prop :=
  ∃ k c', (engine ctx options).steps (granter make ctx) k (.running c) = .accepted (.list hs) c' ∧
    c'.memory = c.memory

/-- The machine has come to a point between declarations, and some text is left. -/
structure Reached (ctx : Context) (options : Options) (s₀ : Stack (Value H)) (hs : List H)
    (xs : List (Exchange H Refusal)) (ds : List Diagnostic) (more : List Token)
    (d : Config (Value H) (Granted H)) : Prop where
  slots : ∃ y b, d.stack.slots = [y, b] ∧ y.state = between ∧ y.value = .list hs ∧
    s₀.slots.getLast? = some b
  grown : s₀.Grown d.stack
  requests : d.memory.requests = xs
  ahead : ∃ ws, AtHead (engine ctx options) more ws d ∧ d.memory.diagnostics.toList = ds ++ ws

/-- The machine has looked at the first token of the text. -/
structure Looked (ctx : Context) (options : Options) (t : Token) (ts : List Token)
    (ds : List Diagnostic) (d d' : Config (Value H) (Granted H)) : Prop where
  ahead : d'.ahead? = some t
  input : d'.input = ts
  exhausted : d'.exhausted = false
  lastSpan : d'.lastSpan = t.span
  stack : d'.stack = d.stack
  quiet : d'.quiet = d.quiet
  requests : d'.memory.requests = d.memory.requests
  diagnostics : d'.memory.diagnostics.toList = ds ++ lexical (engine ctx options) t

section Texts

variable {make : Construction H → H} {ctx : Context} {options : Options} {s₀ : Stack (Value H)}
  {log : Array (Event (Value H))} {hs es : List H} {xs : List (Exchange H Refusal)}
  {ds ws : List Diagnostic} {t : Token} {ts more : List Token} {P : Prop} {n : Nat}
  {c d : Config (Value H) (Granted H)}

theorem AtHead.looked (make : Construction H → H)
    (h : AtHead (engine ctx options) (t :: ts) ws d)
    (hds : d.memory.diagnostics.toList = ds ++ ws) :
    Looked ctx options t ts ds d (d.peek (engine ctx options) (granter make ctx)).2 := by
  cases h with
  | unread hahead hinput hexhausted =>
    rw [List.append_nil] at hds
    rw [Config.peek_of_none _ _ hahead, Config.read_of_cons _ hexhausted hinput]
    by_cases hlex : t.kind = .lexError
    · rw [if_pos hlex]
      refine ⟨rfl, rfl, hexhausted, rfl, rfl, rfl, requests_report make _ _, ?_⟩
      unfold lexical
      rw [if_pos hlex, ← hds]
      exact Array.toList_push
    · rw [if_neg hlex]
      refine ⟨rfl, rfl, hexhausted, rfl, rfl, rfl, rfl, ?_⟩
      unfold lexical
      rw [if_neg hlex, List.append_nil]
      exact hds
  | read hmore hahead hinput hexhausted hlast =>
    cases hmore
    rw [Config.peek_of_ahead _ _ hahead]
    exact ⟨hahead, hinput, hexhausted, hlast, rfl, rfl, rfl, hds⟩
  | ended hmore hpending => cases hmore

/-- A step where the row looks at the next token is one after that look. -/
theorem step_peek {α V σ : Type} {e : Engine α} {r : Reducer α V σ} {c : Config V σ} {x : Slot V}
    {rest : List (Slot V)} {row : Row} (hslots : c.stack.slots = x :: rest)
    (hrow : e.row? x.state = some row) (hlook : row.needsLookahead = true) :
    (c.peek e r).2.step e r = c.step e r := by
  have hpeek : (c.peek e r).2.peek e r = c.peek e r := Config.peek_of_ahead e r (c.ahead?_peek e r)
  have hconsult : ∀ c : Config V σ, c.consult e r row = (c.peek e r).2 := fun c ↦ by
    unfold Config.consult
    rw [if_pos hlook]
  rw [Config.step_eq e r hslots hrow,
    Config.step_eq e r ((congrArg Stack.slots (c.stack_peek e r)).trans hslots) hrow, hconsult,
    hconsult, hpeek]

/-- Between declarations the machine looks at the next token. -/
theorem step_peek_between {r : Reducer Production (Value H) (Granted H)} {x b : Slot (Value H)}
    (hslots : c.stack.slots = [x, b]) (hx : x.state = between) :
    (c.peek (engine ctx options) r).2.step (engine ctx options) r =
      c.step (engine ctx options) r := by
  obtain ⟨row, hrow, -⟩ := exists_row_between
  refine step_peek (e := engine ctx options) hslots (hx ▸ hrow) (eq_true_of_ne_false fun hlook ↦ ?_)
  -- the rule that is completed at the end of the text would be completed before a line as well
  obtain ⟨k, hk⟩ := decide_between_end hrow
  obtain ⟨p, hrule, -⟩ :=
    Grammar.allows_of_decide (show grammar.tables.row? between = some row from hrow) hk
  have hdecide : row.decide .eol = some (.reduce k) := by
    rwa [Row.decide_of_not_needsLookahead hlook] at hk ⊢
  cases (decide_between hrow hdecide hrule).1

/-- From a point between declarations on, it does not matter whether the next token has been looked
at. -/
theorem steps_peek_between {x b : Slot (Value H)} (hslots : c.stack.slots = [x, b])
    (hx : x.state = between) (k : Nat) :
    (engine ctx options).steps (granter make ctx) (k + 1)
        (.running (c.peek (engine ctx options) (granter make ctx)).2) =
      (engine ctx options).steps (granter make ctx) (k + 1) (.running c) := by
  rw [Engine.steps_succ_running, Engine.steps_succ_running, step_peek_between hslots hx]

theorem Opens.reached (ctx : Context) (options : Options) (h : Opens s₀)
    (log : Array (Event (Value H))) (text : List Token) :
    Reached ctx options s₀ [] [] [] text (opened s₀ log text) := by
  obtain ⟨x, b, hslots, hx, hvalue, -⟩ := h.slots
  exact ⟨⟨x, b, hslots, hx, hvalue, by rw [hslots]; rfl⟩, .refl s₀, rfl, [],
    .unread rfl rfl rfl, rfl⟩

theorem Opens.lineal (h : Opens s₀) (log : Array (Event (Value H)))
    (hends : ∀ t ∈ ts, t.kind ≠ .endOfInput)
    (hlines : ∀ t ∈ ts.getLast?, EndsLine t) : Lineal (opened s₀ log ts) := by
  obtain ⟨x, b, hslots, hx, -, hb⟩ := h.slots
  have hhead : ∀ z ∈ (opened s₀ log ts).stack.slots.head?, z = x := by
    intro z hz
    rw [show (opened s₀ log ts).stack.slots = [x, b] from hslots] at hz
    exact (Option.some.inj hz).symm
  refine ⟨⟨[Category.declarations.symbol], ?_⟩, ?_, fun _ z hz ↦ ?_, fun z hz hclosing ↦ ?_⟩
  · rw [show (opened s₀ log ts).stack.slots = [x, b] from hslots]
    exact .push (.bottom hb) (hb ▸ hx ▸ edges_opening.2) trivial
  · rwa [pending_opened s₀ log hends]
  · exact Or.inr (Or.inl (hhead z hz ▸ hx))
  · rw [hhead z hz, hx] at hclosing
    cases hclosing

theorem Reached.room (h : Reached ctx options s₀ es xs ds more d) (hopens : Opens s₀) :
    s₀.Under d.stack ∧ 2 ≤ d.stack.capacity := by
  obtain ⟨x, b, hslots, -⟩ := hopens.slots
  obtain ⟨y, b', hslots', -⟩ := h.slots
  have hle := h.grown.widens.le
  have hlength := hopens.bounded.length
  rw [hslots] at hlength
  refine ⟨⟨hopens.bounded, ?_, h.grown⟩, hlength.trans hle⟩
  unfold Stack.length
  rw [hslots, hslots']
  rfl

/-- Two machines between declarations attend to a text that both have before them. -/
theorem Reached.attends (make : Construction H → H) (log : Array (Event (Value H)))
    (hopens : Opens s₀)
    (h : Reached ctx options s₀ es xs ds (t :: ts ++ more) d) (hquiet : P → d.quiet = 0)
    (hends : ∀ u ∈ t :: ts, u.kind ≠ .endOfInput) :
    Attends (Extends es) (Session.Follows xs ds []) P s₀ more
      ((opened s₀ log (t :: ts)).peek (engine ctx options) (granter make ctx)).2
      (d.peek (engine ctx options) (granter make ctx)).2 := by
  obtain ⟨x, b, hslots, hx, hvalue, -⟩ := hopens.slots
  obtain ⟨y, b', hslots', hy, hvalue', hlast⟩ := h.slots
  obtain ⟨ws, hhead, hds⟩ := h.ahead
  have hd : Looked ctx options t (ts ++ more) ds d _ := AtHead.looked make hhead hds
  have hc : Looked ctx options t ts [] (opened s₀ log (t :: ts)) _ :=
    AtHead.looked make (.unread rfl rfl rfl) rfl
  obtain rfl : b = b' := by
    rw [hslots] at hlast
    exact Option.some.inj hlast
  refine ⟨⟨⟨[], x, y, b, ?_, ?_, hx, hy, [], hvalue, ?_⟩, ?_, ?_, ?_, ⟨?_, ?_⟩, fun hP ↦ ?_⟩,
    ⟨?_, ?_, ⟨hc.exhausted, hd.exhausted⟩, ?_, fun u hu ↦ hends u ?_⟩⟩
  · rw [hc.stack]
    exact hslots
  · rw [hd.stack]
    exact hslots'
  · rwa [List.append_nil]
  · rw [hc.stack, hd.stack]
    exact (h.room hopens).1
  · rw [hd.stack]
    exact h.grown
  · rw [hd.stack, hslots', hlast]
    rfl
  · rw [hc.requests, hd.requests, h.requests]
    exact (List.append_nil _).symm
  · rw [hc.diagnostics, hd.diagnostics, List.nil_append, List.append_nil]
  · rw [hc.quiet, hd.quiet, hquiet hP]
    rfl
  · rw [hc.ahead, hd.ahead]
  · rw [hc.input, hd.input]
  · rw [hc.lastSpan, hd.lastSpan]
  · rwa [hc.ahead, hc.input] at hu

/-- Where both machines have come to the end of the text, the first one accepts what it has read,
and the second one goes on with that. -/
theorem Arrives.reached (h : Arrives make ctx options es hs xs ds P s₀ more c d) :
    Accepts make ctx options c hs ∧
      Reached ctx options s₀ (es ++ hs) (xs ++ c.memory.requests)
        (ds ++ c.memory.diagnostics.toList) more d ∧ (P → d.quiet = c.quiet) := by
  obtain ⟨husedUp, x, y, b, hc, hd, hx, hy, hvalue, hvalue', hb⟩ := h
  obtain ⟨ws, hhead, hbeside⟩ := husedUp.beside
  have hroom : 2 ≤ c.stack.capacity := by
    have hlength := hbeside.room.bounded.length
    rwa [hc] at hlength
  obtain ⟨c', haccepted, hmemory⟩ := exists_accepted make ctx options hc hx hvalue hb hroom
    husedUp.pending
  refine ⟨⟨2, c', haccepted, hmemory⟩, ⟨⟨y, b, hd, hy, hvalue', ?_⟩, hbeside.grown,
    hbeside.told.requests, ws, hhead, hbeside.told.diagnostics⟩, hbeside.quiet⟩
  rw [← hbeside.bottom, hd]
  rfl

/-- Between declarations, a text is read to its end as it is read alone. -/
theorem exists_reached (hopens : Opens s₀)
    (h : Reached ctx options s₀ es xs ds (ts ++ more) d) (hquiet : P → d.quiet = 0)
    (hends : ∀ t ∈ ts ++ more, t.kind ≠ .endOfInput) (hlines : ∀ t ∈ ts.getLast?, EndsLine t)
    (hindent : ∀ t ∈ more.head?, t.kind ≠ .indent)
    (hn : Finishes (engine ctx options) (granter make ctx) n (opened s₀ log ts)) :
    (engine ctx options).Together (granter make ctx) (fun c' d' ↦ ∃ hs,
      Accepts make ctx options c' hs ∧
        Reached ctx options s₀ (es ++ hs) (xs ++ c'.memory.requests)
          (ds ++ c'.memory.diagnostics.toList) more d' ∧ (P → d'.quiet = c'.quiet)) P
      (.running (opened s₀ log ts)) (.running d) := by
  obtain ⟨x, b, hslots, hx, hvalue, hb⟩ := hopens.slots
  have hmore : ∀ t ∈ more, t.kind ≠ .endOfInput := fun t ht ↦
    hends t (List.mem_append_right _ ht)
  have hends : ∀ t ∈ ts, t.kind ≠ .endOfInput := fun t ht ↦ hends t (List.mem_append_left _ ht)
  have hlineal := hopens.lineal log hends hlines
  cases ts with
  | nil =>
    obtain ⟨c', haccepted, hmemory⟩ :=
      exists_accepted make ctx options (c := opened s₀ log []) hslots
      hx hvalue hb ((hopens.reached ctx options log []).room hopens).2 rfl
    refine .arrive 0 rfl rfl ⟨[], ⟨2, c', haccepted, hmemory⟩, ?_, hquiet⟩
    rw [List.append_nil, show (opened s₀ log []).memory.requests = [] from rfl, List.append_nil,
      show (opened s₀ log []).memory.diagnostics.toList = [] from rfl, List.append_nil]
    exact h
  | cons t ts =>
    obtain ⟨y, b', hslots', hy, -⟩ := h.slots
    obtain ⟨ys, hs⟩ := hlineal.spelled
    have hstep := Attends.step make ctx options
      (h.attends make log hopens hquiet hends) (by rwa [Config.stack_peek]) (by
        rw [Config.pending_peek, pending_opened s₀ log hends]
        exact List.cons_ne_nil t ts)
    rw [step_peek_between hslots hx, step_peek_between hslots' hy] at hstep
    refine .step hstep fun c' d' hc' h' ↦ ?_
    obtain ⟨n, rfl⟩ : ∃ m, n = m + 1 := Nat.exists_eq_succ_of_ne_zero fun hzero ↦ by
      subst hzero
      exact hn _ rfl
    have hn' : Finishes (engine ctx options) (granter make ctx) n c' := by
      intro c'' hc''
      refine hn c'' ?_
      rw [Engine.steps_succ_running, hc', hc'']
    refine (exists_usedUp (hlineal.step hc') h' hn').trans fun c d h ↦
      (h.exists_arrives hmore hindent).trans fun c d h ↦ ?_
    obtain ⟨hs, h⟩ := h
    exact .arrive 0 rfl rfl ⟨hs, h.reached⟩

end Texts

end Language

end PlainLedger
