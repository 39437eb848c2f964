import PlainLedger.Proofs.Language.Outline
import PlainLedger.Proofs.Machine.Anchors
import PlainLedger.Proofs.Machine.Quiet
import PlainLedger.Transcript

/-!
# Where constructs stand

The constructs that the interpretation is told the place of begin with a token each, and skipped
text is never part of them. So the line that comes with such a call is that of the first token of
its construct, and so is the line of the report if the call is refused, whatever has been skipped
before.
-/

namespace PlainLedger

variable {V : Type}

namespace Piece

/-- The token that the pieces begin with. -/
def leading? : List Piece → Option Token
  | token t :: _ => some t
  | _ => none

theorem leading?_eq_some_iff {ps : List Piece} {t : Token} :
    leading? ps = some t ↔ ∃ rest, ps = token t :: rest := by
  constructor
  · intro h
    unfold leading? at h
    split at h
    · cases h
      exact ⟨_, rfl⟩
    · cases h
  · rintro ⟨rest, rfl⟩
    rfl

end Piece

namespace Language

variable {H ε σ ω : Type}

/-! ## Phrases that begin with a token -/

/-- Phrases for numbers with or without a currency, which begin with a token. -/
def ledSymbols : List Symbol := [Category.numberExpr, .amount].map Category.symbol

/-- What begins with a token, skipped text and phrases that may be written as nothing apart. -/
def Led : Symbol → Prop
  | .terminal k => k ≠ .error
  | .nonterminal n => .nonterminal n ∈ ledSymbols

instance : DecidablePred Led
  | .terminal k => inferInstanceAs (Decidable (k ≠ .error))
  | .nonterminal n => inferInstanceAs (Decidable (.nonterminal n ∈ ledSymbols))

/-- The request of a production, if it comes with a place. -/
def Production.placed? (origin : Provenance) (granted : Bool) (p : Production) : Option Call :=
  match p.request? origin with
  | some (name, some origin) => some (.asked name (some origin) granted)
  | _ => none

/-- A production whose request comes with a place. -/
def Production.isPlaced (p : Production) : Bool := (p.placed? ⟨"", ⟨0, by decide⟩⟩ true).isSome

/-- Nothing is asked for where declarations are put together. -/
theorem Production.placed?_of_gathers {p : Production} (h : p.gathers = true)
    (origin : Provenance) (granted : Bool) : p.placed? origin granted = none := by
  cases p <;> first | rfl | cases h

theorem Production.not_gathers_of_isPlaced {p : Production} (h : p.isPlaced = true) :
    p.gathers = false := by
  refine eq_false_of_ne_true fun hgathers ↦ ?_
  rw [isPlaced, placed?_of_gathers hgathers] at h
  cases h

section Rules

variable {k : Nat} {p : Rule Production} (h : grammar.rules[k]? = some p)

include h

theorem led_of_rule (hp : Led (.nonterminal p.lhs) ∨ p.action.isPlaced = true) :
    ∃ X ∈ p.rhs.head?, Led X := by
  have hall : ∀ p ∈ grammar.rules, Led (.nonterminal p.lhs) ∨ p.action.isPlaced = true →
      ∃ X ∈ p.rhs.head?, Led X := by decide +kernel
  exact hall p (List.mem_of_getElem? h) hp

theorem not_gathers_of_not_resting (hp : .nonterminal p.lhs ∉ restingSymbols) :
    p.action.gathers = false := by
  refine eq_false_of_ne_true fun hgathers ↦ hp ?_
  rcases resting_of_rule h hgathers with hlhs | hlhs
  · rw [hlhs]
    decide
  · rw [hlhs]
    decide

end Rules

/-- Skipped text is part of lists of declarations only, and some phrases begin with a token. -/
structure Tidy (X : Symbol) (ps : List Piece) : Prop where
  whole : X ∉ restingSymbols → ∀ p ∈ ps, p.isSkipped = false
  led : Led X → ∃ t rest, ps = .token t :: rest

theorem tidy_token (t : Token) : Tidy (.terminal t.kind) [.token t] where
  whole _ p hp := by
    cases List.mem_singleton.mp hp
    rfl
  led _ := ⟨t, [], rfl⟩

theorem tidy_skipped (span : Span) : Tidy (.terminal .error) [.skipped span] where
  whole h := (h (List.mem_cons_self ..)).elim
  led h := (h rfl).elim

section Stacks

variable {x : Slot V} {rest : List (Slot V)} {xs : List Symbol} {pss : List (List Piece)} {k : Nat}
  {p : Rule Production}

/-- The pieces of a completed rule are those of its symbols. -/
theorem pieces_of_rule
    (hs : Pieced grammar (fun X _ _ ps ↦ Tidy X ps) (x :: rest) xs pss)
    (hrule : grammar.rules[k]? = some p) (hhas : grammar.Has x.state ⟨k, p.rhs.length⟩) :
    ∃ parts, List.Forall₂ Tidy p.rhs parts ∧
      (Reduction.ofSlots k p.rhs.length (x :: rest)).pieces pss =
        if p.rhs = [] then [.nothing] else parts.flatten := by
  obtain ⟨hle, htake, -⟩ := hs.spelled.reduce hrule hhas
  have hlen := hs.spelled.length_eq
  have hvalues := length_values_ofSlots k (show p.rhs.length ≤ (x :: rest).length by omega)
  have hparts := hs.forall₂_take (fun _ _ _ _ h ↦ h) hle
  refine ⟨(pss.take p.rhs.length).reverse, ?_, ?_⟩
  · have hreverse := List.rel_reverse hparts
    rwa [htake] at hreverse
  · rw [Reduction.pieces, hvalues]
    cases hrhs : p.rhs with
    | nil => rfl
    | cons X Xs => rfl

/-- What is part of no list of declarations has no skipped text in it. -/
theorem whole_of_rule (hs : Pieced grammar (fun X _ _ ps ↦ Tidy X ps) (x :: rest) xs pss)
    (hrule : grammar.rules[k]? = some p) (hhas : grammar.Has x.state ⟨k, p.rhs.length⟩)
    (hp : p.action.gathers = false) :
    ∀ q ∈ (Reduction.ofSlots k p.rhs.length (x :: rest)).pieces pss, q.isSkipped = false := by
  obtain ⟨parts, hparts, hpieces⟩ := pieces_of_rule hs hrule hhas
  obtain ⟨-, hrhs⟩ := not_resting_of_rule hrule hp
  rw [hpieces]
  split
  · rintro q hq
    cases List.mem_singleton.mp hq
    rfl
  · intro q hq
    obtain ⟨ps, hps, hq⟩ := List.mem_flatten.mp hq
    obtain ⟨n, hn, rfl⟩ := List.mem_iff_getElem.mp hps
    have hn' : n < p.rhs.length := hparts.length_eq.symm ▸ hn
    exact (hparts.get hn' hn).whole (hrhs _ (List.get_mem ..)) q hq

/-- What begins with such a phrase begins with a token. -/
theorem leads_of_rule (hs : Pieced grammar (fun X _ _ ps ↦ Tidy X ps) (x :: rest) xs pss)
    (hrule : grammar.rules[k]? = some p) (hhas : grammar.Has x.state ⟨k, p.rhs.length⟩)
    (hp : Led (.nonterminal p.lhs) ∨ p.action.isPlaced = true) :
    ∃ t ts, (Reduction.ofSlots k p.rhs.length (x :: rest)).pieces pss = .token t :: ts := by
  obtain ⟨parts, hparts, hpieces⟩ := pieces_of_rule hs hrule hhas
  obtain ⟨X, hX, hled⟩ := led_of_rule hrule hp
  obtain ⟨Xs, hrhs⟩ := List.head?_eq_some_iff.mp hX
  rw [hrhs] at hparts
  cases hparts with
  | @cons _ ps _ parts hps _ =>
    obtain ⟨t, ts, rfl⟩ := hps.led hled
    refine ⟨t, ts ++ parts.flatten, ?_⟩
    rw [hpieces, if_neg (by simp [hrhs])]
    rfl

/-- A completed rule keeps the pieces tidy. -/
theorem tidy_of_rule (hs : Pieced grammar (fun X _ _ ps ↦ Tidy X ps) (x :: rest) xs pss)
    (hrule : grammar.rules[k]? = some p) (hhas : grammar.Has x.state ⟨k, p.rhs.length⟩) :
    Tidy (.nonterminal p.lhs) ((Reduction.ofSlots k p.rhs.length (x :: rest)).pieces pss) where
  whole h := whole_of_rule hs hrule hhas (not_gathers_of_not_resting hrule h)
  led h := leads_of_rule hs hrule hhas (Or.inl h)

end Stacks

section Runs

variable {i : Interpretation H ε σ ω} {ctx : Context} {options : Options} {s₀ s : Session σ}
  {evs before : List (Event (Value H))} {slots : List (Slot (Value H))}
  {red : Reduction (Value H)} {verdict : Verdict (Value H)} {p : Rule Production}

/-- The pieces on the stack are tidy at every moment. -/
theorem tidy_of_trace (h : Trace (engine ctx options) (reducer i ctx) s₀ evs slots s) :
    ∃ xs, Pieced grammar (fun X _ _ ps ↦ Tidy X ps) slots xs (pieces evs) := by
  refine h.keeps (P := fun evs slots _ ↦
    ∃ xs, Pieced grammar (fun X _ _ ps ↦ Tidy X ps) slots xs (pieces evs)) ⟨[], .bottom rfl⟩ ?_
  rintro evs slots slots' s s' ev - ⟨xs, hs⟩ hev
  rw [pieces_concat]
  refine hev.pieced hs (fun t _ _ _ _ ↦ tidy_token t) (fun _ span _ ↦ tidy_skipped span) ?_
  rintro x rest k p y below n v rfl hrule hhas - - -
  exact tidy_of_rule hs hrule hhas

/-- The line of the first token of a completed rule, or its own if something else comes first. -/
def firstLine (ctx : Context) (red : Reduction V) (ps : List Piece) : Line :=
  match Piece.leading? ps with
  | some t => ctx.lineOf t.span
  | none => ctx.lineOf red.span

theorem firstLine_eq (ctx : Context) {red : Reduction V} {ps : List Piece} (h : red.Placed ps)
    (hwhole : ∀ p ∈ ps, p.isSkipped = false) : firstLine ctx red ps = ctx.lineOf red.span := by
  unfold firstLine
  split
  · rename_i t ht
    obtain ⟨rest, rfl⟩ := Piece.leading?_eq_some_iff.mp ht
    have hline := congrArg Span.firstLine (h.begins hwhole t rest rfl)
    exact congrArg ctx.reported hline.symm
  · rfl

section Completed

variable (h : Completed (engine ctx options) (reducer i ctx) s₀ before red verdict)
  (hrule : grammar.rules[red.rule]? = some p)

include h hrule

theorem firstLine_completed (hp : p.action.gathers = false) :
    firstLine ctx red (red.pieces (pieces before)) = ctx.lineOf red.span := by
  have hplaced := h.placed
  obtain ⟨x, rest, m, m', k, q, htrace, hq, hhas, rfl, -⟩ := h
  cases Option.some.inj (hrule.symm.trans hq)
  obtain ⟨xs, hs⟩ := tidy_of_trace htrace
  exact firstLine_eq ctx hplaced (whole_of_rule hs hq hhas hp)

theorem leads_completed (hp : p.action.isPlaced = true) :
    (∃ t ts, red.pieces (pieces before) = .token t :: ts) ∧
      ∀ q ∈ red.pieces (pieces before), q.isSkipped = false := by
  obtain ⟨x, rest, m, m', k, q, htrace, hq, hhas, rfl, -⟩ := h
  cases Option.some.inj (hrule.symm.trans hq)
  obtain ⟨xs, hs⟩ := tidy_of_trace htrace
  exact ⟨leads_of_rule hs hq hhas (Or.inr hp),
    whole_of_rule hs hq hhas (Production.not_gathers_of_isPlaced hp)⟩

end Completed

end Runs

/-! ## Calls with a place -/

/-- A request that comes with a place. -/
def Call.isPlaced : Call → Bool
  | asked _ (some _) _ => true
  | _ => false

theorem filter_isPlaced_calls (p : Production) (origin : Provenance) (granted : Bool) :
    (p.calls origin granted).filter Call.isPlaced = (p.placed? origin granted).toList := by
  cases p <;> rfl

/-- The request that comes with a place, made when a rule is completed that is said to begin on the
line. Where its values do not fit there is none. -/
def request? (ctx : Context) (line : Reduction V → Line) : Event V → Option Call
  | .reduce _ (.fatal _) => none
  | .reduce red verdict =>
    (grammar.rules[red.rule]?).bind fun p ↦ p.action.placed? ⟨ctx.file, line red⟩ verdict.isValue
  | _ => none

/-- The report that a completed rule is refused, which is said to begin on the line. -/
def refusalOn? (ctx : Context) (line : Reduction V → Line) : Event V → Option Diagnostic
  | .reduce red (.rejected message) => some ⟨ctx.file, line red, .semantic, message⟩
  | _ => none

/-- The line of its span. -/
def spanLine (ctx : Context) (red : Reduction V) : Line := ctx.lineOf red.span

section Calls

variable {i : Interpretation H ε σ ω} {ctx : Context} {options : Options} {state : σ}
  {s s' : Session (σ × List (Exchange H ε))} {evs : List (Event (Value H))}
  {slots : List (Slot (Value H))}

theorem Tells.requests (h : Tells ctx evs s) :
    (s.record.map Exchange.outline).filter Call.isPlaced =
      evs.filterMap (request? ctx (spanLine ctx)) := by
  rw [h.calls, List.filter_flatMap, List.filterMap_eq_flatMap_toList]
  refine List.flatMap_congr fun ev hev ↦ ?_
  cases ev with
  | reduce red verdict =>
    obtain ⟨p, hp, hverdict⟩ := h.settled red verdict hev
    have hcalls := filter_isPlaced_calls p.action ⟨ctx.file, spanLine ctx red⟩ verdict.isValue
    cases verdict with
    | fatal cause =>
      rcases hverdict with hvalue | ⟨⟨message, hmessage⟩, -⟩
      · cases hvalue
      · cases hmessage
    | _ => simpa [callsAt, request?, hp, Context.provenance, spanLine] using hcalls
  | _ => rfl

/-- Where the values do not fit, nothing is asked for. -/
theorem record_of_fatal {p : Production} {red : Reduction (Value H)} {cause : Abort}
    (h : (reducer i.watched ctx).reduce p red s = (.fatal cause, s')) : s'.record = s.record := by
  simp only [reducer] at h
  split at h
  · cases h
    exact record_releaseAll i _ s
  · rename_i plan args hrun
    obtain ⟨-, hvalue | ⟨⟨message, hmessage⟩, -⟩⟩ :=
      outline_perform (returns_shows _ _ _ _ _ _ hrun) h
    · cases hvalue
    · cases hmessage

theorem requests_of_stopped {cause : Abort}
    (h : Stopped (engine ctx options) (reducer i.watched ctx) ⟨(state, []), #[]⟩ cause evs slots
      s) :
    (s.record.map Exchange.outline).filter Call.isPlaced =
      evs.filterMap (request? ctx (spanLine ctx)) := by
  cases h with
  | start d hm => rcases hm with rfl | rfl <;> rfl
  | unrecoverable file line h => exact (tells_of_trace h).requests
  | fatal h _ _ hverdict =>
    rw [record_of_fatal hverdict, (tells_of_trace h).requests, List.filterMap_append]
    exact (List.append_nil _).symm
  | @overflow _ _ _ x _ m' _ d h hev _ =>
    rw [← ((tells_of_trace h).does hev).requests, ← record_releaseAll i x.value.handles m']
    rfl

/-- What is reported is no request. -/
theorem filter_isPlaced_report (s : Session (σ × List (Exchange H ε))) (d : Diagnostic) :
    ((s.report i.watched d).record.map Exchange.outline).filter Call.isPlaced =
      (s.record.map Exchange.outline).filter Call.isPlaced := by
  rw [show (s.report i.watched d).record = s.record ++ [.report d] from rfl, List.map_append,
    List.filter_append]
  exact List.append_nil _

/-- The requests of a run that come with a place. -/
theorem requests_run (i : Interpretation H ε σ ω) (ctx : Context) (options : Options)
    (tokens : List Token) (state : σ) :
    ((run i.watched ctx options tokens (state, [])).2.memory.record.map Exchange.outline).filter
        Call.isPlaced =
      (run i.watched ctx options tokens (state, [])).2.log.toList.filterMap
        (request? ctx (spanLine ctx)) := by
  unfold run Engine.run
  have hends := (engine ctx options).continues_steps (r := reducer i.watched ctx) tables_engine
    (stepBudget tokens.length) tokens ⟨(state, []), #[]⟩
  generalize (engine ctx options).steps _ (stepBudget tokens.length) _ = st at hends
  cases st with
  | running c => exact (tells_of_trace hends).requests
  | accepted v c =>
    obtain ⟨x, y, htrace, -⟩ := hends
    exact (tells_of_trace htrace).clear.requests
  | aborted cause c =>
    have hrequests := requests_of_stopped hends
    rw [← record_clear i ctx c, ← Engine.log_clear (r := reducer i.watched ctx) c] at hrequests
    change (((Engine.clear (reducer i.watched ctx) c).memory.report i.watched _).record.map
      Exchange.outline).filter Call.isPlaced =
        ((Engine.clear (reducer i.watched ctx) c).log.push _).toList.filterMap _
    rw [filter_isPlaced_report, hrequests, Array.toList_push, List.filterMap_append]
    exact (List.append_nil _).symm

/-- How a parse ends is no request. -/
theorem filter_isPlaced_conclude
    (out : Outcome (Value H) × Config (Value H) (Session (σ × List (Exchange H ε)))) :
    ((conclude i.watched ctx out).2.2.map Exchange.outline).filter Call.isPlaced =
      (out.2.memory.record.map Exchange.outline).filter Call.isPlaced := by
  obtain ⟨out, c⟩ := out
  cases out with
  | aborted cause => rfl
  | unfinished => rfl
  | accepted v =>
    by_cases hlist : ∃ entries, v = .list entries
    · obtain ⟨entries, rfl⟩ := hlist
      rw [show (conclude i.watched ctx (.accepted (.list entries), c)).2.2 =
        c.memory.record ++ [.finish entries] from rfl, List.map_append, List.filter_append]
      exact List.append_nil _
    · rw [conclude_of_ne_list i.watched ctx fun entries h ↦ hlist ⟨entries, h⟩,
        ← record_releaseAll i v.handles c.memory]
      exact filter_isPlaced_report _ _

end Calls

/-! ## Refusals -/

section Refusals

variable {i : Interpretation H ε σ ω} {ctx : Context} {options : Options} {state : σ}
  {s s' : Session σ} {evs : List (Event (Value H))} {slots : List (Slot (Value H))}

/-- The reports of refusals. -/
def refusals (ds : List Diagnostic) : List Diagnostic := ds.filter (·.kind = .semantic)

theorem refusals_append_of_ne {ds ds' : List Diagnostic} (h : ∀ d ∈ ds', d.kind ≠ .semantic) :
    refusals (ds ++ ds') = refusals ds := by
  have hnil : refusals ds' = [] := List.filter_eq_nil_iff.mpr fun d hd ↦ by simpa using h d hd
  have happend : refusals (ds ++ ds') = refusals ds ++ refusals ds' := List.filter_append ..
  rw [happend, hnil, List.append_nil]

theorem refusals_of_warns (h : Warns s s') :
    refusals s'.diagnostics.toList = refusals s.diagnostics.toList := by
  obtain ⟨ds, hds, hkind⟩ := h
  rw [hds]
  refine refusals_append_of_ne fun d hd ↦ ?_
  rw [hkind d hd]
  exact nofun

/-- The reports of refusals are events. -/
theorem refusals_of_does {slots' : List (Slot (Value H))} {ev : Event (Value H)}
    (hev : Does (engine ctx options) (reducer i ctx) slots s ev slots' s')
    (h : refusals s.diagnostics.toList = evs.filterMap (Event.said? .semantic)) :
    refusals s'.diagnostics.toList = (evs ++ [ev]).filterMap (Event.said? .semantic) := by
  obtain ⟨ds, hds, hkind⟩ := Does.diagnostics hev
  have hmild : ∀ d ∈ ds, d.kind ≠ .semantic := fun d hd ↦ by
    rw [hkind d hd]
    exact nofun
  rw [hds, ← List.append_assoc, refusals_append_of_ne hmild, refusals, List.filter_append,
    List.filterMap_append, ← h]
  congr 1
  cases ev with
  | report d => by_cases hd : d.kind = .semantic <;> simp [Event.report?, Event.said?, hd]
  | _ => rfl

theorem refusals_of_trace
    (h : Trace (engine ctx options) (reducer i ctx) ⟨state, #[]⟩ evs slots s) :
    refusals s.diagnostics.toList = evs.filterMap (Event.said? .semantic) :=
  h.keeps (P := fun evs _ s ↦ refusals s.diagnostics.toList = evs.filterMap (Event.said? .semantic))
    rfl fun _ h hev ↦ refusals_of_does hev h

theorem refusals_of_stopped {cause : Abort}
    (h : Stopped (engine ctx options) (reducer i ctx) ⟨state, #[]⟩ cause evs slots s) :
    refusals s.diagnostics.toList = evs.filterMap (Event.said? .semantic) := by
  cases h with
  | start d hm => rcases hm with rfl | rfl <;> rfl
  | unrecoverable file line h => exact refusals_of_trace h
  | @fatal _ x rest m _ k p _ h _ _ hverdict =>
    have hwarns := (kept_warns (i := i) m).reduce (Warns.refl m) ctx p.action
      (.ofSlots k p.rhs.length (x :: rest))
    rw [hverdict] at hwarns
    rw [refusals_of_warns hwarns, refusals_of_trace h, List.filterMap_append]
    exact (List.append_nil _).symm
  | overflow d h hev _ =>
    have hrefusals := refusals_of_does hev (refusals_of_trace h)
    exact hrefusals

/-- A fatal report is none of a refusal. -/
theorem refusals_report (s : Session σ) {d : Diagnostic} (hd : d.kind = .fatal) :
    refusals (s.report i d).diagnostics.toList = refusals s.diagnostics.toList := by
  rw [Session.report, Array.toList_push]
  refine refusals_append_of_ne fun d' hd' ↦ ?_
  rw [List.mem_singleton.mp hd', hd]
  decide

/-- The refusals that a run reports. -/
theorem refusals_run (i : Interpretation H ε σ ω) (ctx : Context) (options : Options)
    (tokens : List Token) (state : σ) :
    refusals (run i ctx options tokens state).2.memory.diagnostics.toList =
      (run i ctx options tokens state).2.log.toList.filterMap (Event.said? .semantic) := by
  unfold run Engine.run
  have hends := (engine ctx options).continues_steps (r := reducer i ctx) tables_engine
    (stepBudget tokens.length) tokens ⟨state, #[]⟩
  generalize (engine ctx options).steps _ (stepBudget tokens.length) _ = st at hends
  cases st with
  | running c => exact refusals_of_trace hends
  | accepted v c =>
    obtain ⟨x, y, htrace, -⟩ := hends
    have hrefusals := refusals_of_trace htrace
    rwa [← diagnostics_clear i ctx c, ← Engine.log_clear (r := reducer i ctx) c] at hrefusals
  | aborted cause c =>
    have hrefusals := refusals_of_stopped hends
    rw [← diagnostics_clear i ctx c, ← Engine.log_clear (r := reducer i ctx) c] at hrefusals
    change refusals ((Engine.clear (reducer i ctx) c).memory.report i _).diagnostics.toList =
      ((Engine.clear (reducer i ctx) c).log.push _).toList.filterMap _
    rw [refusals_report _ rfl, hrefusals, Array.toList_push, List.filterMap_append]
    exact (List.append_nil _).symm

theorem refusals_conclude {out : Outcome (Value H) × Config (Value H) (Session σ)}
    (hend : out.1 ≠ .unfinished) :
    refusals (conclude i ctx out).1.diagnostics =
      refusals out.2.memory.diagnostics.toList := by
  obtain ⟨out, c⟩ := out
  cases out with
  | aborted cause => rfl
  | unfinished => exact (hend rfl).elim
  | accepted v =>
    by_cases hlist : ∃ entries, v = .list entries
    · obtain ⟨entries, rfl⟩ := hlist
      rfl
    · rw [conclude_of_ne_list i ctx fun entries h ↦ hlist ⟨entries, h⟩]
      exact refusals_report (c.memory.releaseAll i v.handles) rfl

end Refusals

/-! ## Parses -/

/-- The constructs with a place, among those that a parse completes, begin with a token each, and
are free of skipped text. The requests that come with a place are made for them, one after the
other, and name the lines that these tokens begin on; the reports of refusals do so, too. -/
structure InPlace (ctx : Context) (evs : List (Event V)) (calls : List (Exchange H ε))
    (ds : List Diagnostic) : Prop where
  leads : ∀ pss red verdict p, (pss, .reduce red verdict) ∈ history evs →
    grammar.rules[red.rule]? = some p → p.action.isPlaced = true →
      (∃ t ts, red.pieces pss = .token t :: ts) ∧ ∀ q ∈ red.pieces pss, q.isSkipped = false
  requests : (calls.map Exchange.outline).filter Call.isPlaced =
    (history evs).filterMap fun x ↦ request? ctx (fun red ↦ firstLine ctx red (red.pieces x.1)) x.2
  refusals : refusals ds =
    (history evs).filterMap fun x ↦
      refusalOn? ctx (fun red ↦ firstLine ctx red (red.pieces x.1)) x.2

section Runs

variable {i : Interpretation H ε σ ω} {ctx : Context} {options : Options} {s₀ : Session σ}
  {before : List (Event (Value H))} {red : Reduction (Value H)} {verdict : Verdict (Value H)}

/-- A request names the line that the first token of its construct begins on. -/
theorem request?_completed
    (h : Completed (engine ctx options) (reducer i ctx) s₀ before red verdict) :
    request? ctx (fun red ↦ firstLine ctx red (red.pieces (pieces before))) (.reduce red verdict) =
      request? ctx (spanLine ctx) (.reduce red verdict) := by
  obtain ⟨p, hrule⟩ : ∃ p, grammar.rules[red.rule]? = some p := by
    obtain ⟨-, -, -, -, k, p, -, hrule, -, rfl, -⟩ := h
    exact ⟨p, hrule⟩
  cases verdict with
  | fatal cause => rfl
  | _ =>
    simp only [request?, hrule, Option.bind_some]
    cases hp : p.action.gathers with
    | true => rw [Production.placed?_of_gathers hp, Production.placed?_of_gathers hp]
    | false =>
      rw [firstLine_completed h hrule hp]
      rfl

theorem refusalOn?_completed
    (h : Completed (engine ctx options) (reducer i ctx) s₀ before red verdict) :
    refusalOn? ctx (fun red ↦ firstLine ctx red (red.pieces (pieces before)))
        (.reduce red verdict) =
      Event.refusal? (engine ctx options) (.reduce red verdict) := by
  cases verdict with
  | value v => rfl
  | fatal cause => rfl
  | rejected message =>
    have hcompleted := h
    obtain ⟨x, rest, m, m', k, p, -, hrule, -, rfl, hverdict⟩ := hcompleted
    have hp : p.action.gathers = false := eq_false_of_ne_true fun hp ↦
      not_rejected_of_gathers i ctx hp _ _ message (congrArg Prod.fst hverdict)
    simp only [refusalOn?, firstLine_completed h hrule hp]
    rfl

end Runs

section Parses

variable (i : Interpretation H ε σ ω) (ctx : Context) (options : Options) (tokens : List Token)
  (state : σ)

/-- Each rule that a run completes was completed after the events before it. -/
theorem exists_completed_run {pss : List (List Piece)} {red : Reduction (Value H)}
    {verdict : Verdict (Value H)}
    (h : (pss, .reduce red verdict) ∈ history (run i ctx options tokens state).2.log.toList) :
    ∃ before, pss = pieces before ∧
      Completed (engine ctx options) (reducer i ctx) ⟨state, #[]⟩ before red verdict := by
  obtain ⟨before, after, hlog, rfl⟩ := mem_history.mp h
  unfold run at hlog
  exact ⟨before, rfl, Engine.completed_run tables_engine hlog⟩

theorem refusals_parse :
    refusals (parse i ctx options tokens state).1.diagnostics =
      (run i ctx options tokens state).2.log.toList.filterMap
        (Event.refusal? (engine ctx options)) := by
  have hend := run_ne_unfinished i ctx options tokens state
  have hrefusals := refusals_run i ctx options tokens state
  obtain ⟨said, owed, htold⟩ := (engine ctx options).exists_told_run (reducer i ctx) tokens
    ⟨state, #[]⟩ (stepBudget tokens.length)
  have hsaid := htold.refusal_eq
  unfold parse
  rw [refusals_conclude hend, hrefusals]
  unfold run
  exact hsaid

theorem inPlace_parse :
    InPlace ctx (run i.watched ctx options tokens (state, [])).2.log.toList
      (parse i.watched ctx options tokens (state, [])).2.2
      (parse i.watched ctx options tokens (state, [])).1.diagnostics := by
  refine ⟨?_, ?_, ?_⟩
  · intro pss red verdict p hmem hrule hp
    obtain ⟨before, rfl, h⟩ := exists_completed_run i.watched ctx options tokens (state, []) hmem
    exact leads_completed h hrule hp
  · have hrequests := requests_run i ctx options tokens state
    unfold parse
    rw [filter_isPlaced_conclude, hrequests]
    refine (filterMap_history fun pss ev hmem ↦ ?_).symm
    cases ev with
    | reduce red verdict =>
      obtain ⟨before, rfl, h⟩ :=
        exists_completed_run i.watched ctx options tokens (state, []) hmem
      exact request?_completed h
    | _ => rfl
  · rw [refusals_parse]
    refine (filterMap_history fun pss ev hmem ↦ ?_).symm
    cases ev with
    | reduce red verdict =>
      obtain ⟨before, rfl, h⟩ :=
        exists_completed_run i.watched ctx options tokens (state, []) hmem
      exact refusalOn?_completed h
    | _ => rfl

end Parses

/-- Constructs are reported where they stand. With any grammar, whatever the text and the reducer,
each completed rule stands where its pieces do: one without symbols at the end of what is below it,
and others from their first token to their last one. So with the grammar of the language, whatever
the interpretation and whatever goes wrong in the text, the requests that come with a place, and the
reports of refusals, name the line that the first token of their construct begins on. -/
theorem placed_parse :
    (∀ (α V σ : Type) (g : Grammar α) (ctx : Context) (options : Options) (r : Reducer α V σ)
      (budget : Nat) (input : List Token) (m : σ) (pss : List (List Piece)) (red : Reduction V)
      (verdict : Verdict V),
        (pss, .reduce red verdict) ∈
            history ((g.engine ctx options).run r budget input m).2.log.toList →
          red.Placed (red.pieces pss)) ∧
      ∀ (H ε σ ω : Type) (i : Interpretation H ε σ ω) (ctx : Context) (options : Options)
        (tokens : List Token) (state : σ),
          (parse i.watched ctx options tokens (state, [])).1 =
              (parse i ctx options tokens state).1 ∧
            InPlace ctx (run i.watched ctx options tokens (state, [])).2.log.toList
              (parse i.watched ctx options tokens (state, [])).2.2
              (parse i ctx options tokens state).1.diagnostics := by
  constructor
  · intro α V σ g ctx options r budget input m pss red verdict hmem
    exact Engine.placed_run (e := g.engine ctx options) rfl hmem
  · intro H ε σ ω i ctx options tokens state
    obtain ⟨hparsed, -⟩ := parse_watched i ctx options tokens state []
    have hplaces := inPlace_parse i ctx options tokens state
    rw [hparsed] at hplaces
    exact ⟨hparsed, hplaces⟩

/-- A word that is no line, and then a head line with a posting under it. -/
example : ((parse Transcript.interpretation.watched ⟨"main", 0⟩ {}
      ([tokenOn 1 .string, tokenOn 1 .eol] ++ ([Terminal.date, .txn, .eol].map (tokenOn 2) ++
        [Terminal.indent, .account, .eol].map (tokenOn 3))) ({}, [])).2.2.map
        Exchange.outline).filter Call.isPlaced =
    [.asked "posting" (some ⟨"main", 3⟩) true, .asked "transaction" (some ⟨"main", 2⟩) true] := by
  unfold parse run engine
  rw [tables_eq]
  decide +kernel

end Language

end PlainLedger
