import PlainLedger.Proofs.Machine.Decision

/-!
# Images of runs

A machine does not look at values, nor at what its reducer remembers, nor at what tokens carry. If a
reducer does what another one does, with other values and remembering other things, then a machine
takes the same steps with either of them, and tokens that carry other texts make no difference but
in the wording of reports.
-/

namespace PlainLedger

variable {α V W σ τ : Type}

/-! ## Values under a map -/

def Slot.map (g : V → W) (x : Slot V) : Slot W := ⟨x.state, g x.value, x.span⟩

def Stack.map (g : V → W) (s : Stack V) : Stack W :=
  ⟨s.slots.map (Slot.map g), s.capacity, s.ceiling⟩

def Reduction.map (g : V → W) (red : Reduction V) : Reduction W :=
  ⟨red.rule, red.span, red.values.map g, red.spans, red.below.map (Slot.map g)⟩

def Verdict.map (g : V → W) : Verdict V → Verdict W
  | value v => .value (g v)
  | rejected message => .rejected message
  | fatal cause => .fatal cause

def Event.map (g : V → W) : Event V → Event W
  | pull token? => .pull token?
  | report d => .report d
  | shift t v => .shift t (g v)
  | reduce red verdict => .reduce (red.map g) (verdict.map g)
  | discard t => .discard t
  | pop x => .pop (x.map g)
  | resume n span => .resume n span

def Outcome.map (g : V → W) : Outcome V → Outcome W
  | accepted v => .accepted (g v)
  | aborted cause => .aborted cause
  | unfinished => .unfinished

def Config.map (g : V → W) (f : σ → τ) (c : Config V σ) : Config W τ :=
  ⟨c.stack.map g, c.ahead?, c.input, c.exhausted, c.lastSpan, c.quiet, f c.memory,
    c.log.map (Event.map g)⟩

/-- `r'` answers as `r` does, up to the values and to what is remembered. -/
structure Reducer.Maps (r : Reducer α V σ) (r' : Reducer α W τ) (g : V → W) (f : σ → τ) : Prop where
  blank : r'.blank = g r.blank
  ofToken : ∀ t m, r'.ofToken t (f m) = (g (r.ofToken t m).1, f (r.ofToken t m).2)
  reduce : ∀ a red m,
    r'.reduce a (red.map g) (f m) = ((r.reduce a red m).1.map g, f (r.reduce a red m).2)
  report : ∀ d m, r'.report d (f m) = f (r.report d m)
  release : ∀ v m, r'.release (g v) (f m) = f (r.release v m)

namespace Stack

variable (g : V → W)

theorem reserve_map (s : Stack V) (n : Nat) :
    (s.map g).reserve n = (s.reserve n).map (Stack.map g) := by
  unfold reserve
  split <;> rfl

theorem grow_map (s : Stack V) : (s.map g).grow = s.grow.map (Stack.map g) := by
  unfold grow
  rw [show (s.map g).ceiling = s.ceiling from rfl, show (s.map g).capacity = s.capacity from rfl]
  split
  · rfl
  · exact s.reserve_map g _

theorem push_map (s : Stack V) (x : Slot V) :
    (s.map g).push (x.map g) = (s.push x).map (Stack.map g) := by
  have hlength : (s.map g).length = s.length := List.length_map ..
  unfold push
  rw [hlength, show (s.map g).capacity = s.capacity from rfl, grow_map]
  split
  · cases s.grow <;> rfl
  · rfl

theorem top?_map (s : Stack V) : (s.map g).top? = s.top?.map (Slot.map g) := by
  unfold top? map
  rw [List.head?_map]

end Stack

namespace Reduction

theorem ofSlots_map (g : V → W) (k n : Nat) (slots : List (Slot V)) :
    ofSlots k n (slots.map (Slot.map g)) = (ofSlots k n slots).map g := by
  have hspan : ∀ (spans : List Span) (below : List (Slot V)),
      Config.reductionSpan spans (below.map (Slot.map g)) = Config.reductionSpan spans below := by
    intro spans below
    unfold Config.reductionSpan
    rw [List.head?_map]
    cases below.head? <;> rfl
  have hspans : ((slots.map (Slot.map g)).take n).reverse.map Slot.span =
      (slots.take n).reverse.map Slot.span := by
    rw [← List.map_take, ← List.map_reverse, List.map_map]
    rfl
  have hvalues : ((slots.map (Slot.map g)).take n).reverse.map Slot.value =
      ((slots.take n).reverse.map Slot.value).map g := by
    rw [← List.map_take, ← List.map_reverse, List.map_map, List.map_map]
    rfl
  unfold ofSlots map
  dsimp only
  rw [hspans, hvalues, ← List.map_drop, hspan]

end Reduction

/-! ## Other wordings -/

/-- Other contents for tokens, and other words for what tokens and reducers say in reports. -/
structure Wording where
  token : Token → Token
  lexical : String → String
  semantic : String → String
  kind_token : ∀ t, (token t).kind = t.kind
  span_token : ∀ t, (token t).span = t.span
  token_endOfInput : ∀ span, token (.endOfInput span) = .endOfInput span
  lexicalMessage_token : ∀ t, Config.lexicalMessage (token t) = lexical (Config.lexicalMessage t)

namespace Wording

def same : Wording := ⟨id, id, id, fun _ ↦ rfl, fun _ ↦ rfl, fun _ ↦ rfl, fun _ ↦ rfl⟩

/-- Only messages about tokens that are none, and those of the reducer, are worded by others. -/
def diagnostic (w : Wording) (d : Diagnostic) : Diagnostic :=
  { d with
    message :=
      match d.kind with
      | .lexical => w.lexical d.message
      | .semantic => w.semantic d.message
      | _ => d.message }

end Wording

def Verdict.recast (w : Wording) (g : V → W) : Verdict V → Verdict W
  | value v => .value (g v)
  | rejected message => .rejected (w.semantic message)
  | fatal cause => .fatal cause

def Event.recast (w : Wording) (g : V → W) : Event V → Event W
  | pull token? => .pull (token?.map w.token)
  | report d => .report (w.diagnostic d)
  | shift t v => .shift (w.token t) (g v)
  | reduce red verdict => .reduce (red.map g) (verdict.recast w g)
  | discard t => .discard (w.token t)
  | pop x => .pop (x.map g)
  | resume n span => .resume n span

def Config.recast (w : Wording) (g : V → W) (f : σ → τ) (c : Config V σ) : Config W τ :=
  ⟨c.stack.map g, c.ahead?.map w.token, c.input.map w.token, c.exhausted, c.lastSpan, c.quiet,
    f c.memory, c.log.map (Event.recast w g)⟩

def Step.recast (w : Wording) (g : V → W) (f : σ → τ) : Step V σ → Step W τ
  | .running c => .running (c.recast w g f)
  | .accepted v c => .accepted (g v) (c.recast w g f)
  | .aborted cause c => .aborted cause (c.recast w g f)

/-- `r'` answers as `r` does, up to the values and to what is remembered, and in other words. -/
structure Reducer.Recasts (r : Reducer α V σ) (r' : Reducer α W τ) (w : Wording) (g : V → W)
    (f : σ → τ) : Prop where
  blank : r'.blank = g r.blank
  ofToken : ∀ t m,
    r'.ofToken (w.token t) (f m) = (g (r.ofToken t m).1, f (r.ofToken t m).2)
  reduce : ∀ a red m,
    r'.reduce a (red.map g) (f m) = ((r.reduce a red m).1.recast w g, f (r.reduce a red m).2)
  report : ∀ d m, r'.report (w.diagnostic d) (f m) = f (r.report d m)
  release : ∀ v m, r'.release (g v) (f m) = f (r.release v m)

namespace Config

section Recast

variable (w : Wording) (g : V → W) (f : σ → τ)

theorem recast_record (ev : Event V) (c : Config V σ) :
    (c.record ev).recast w g f = (c.recast w g f).record (ev.recast w g) := by
  unfold record recast
  rw [Array.map_push]

@[simp] theorem currentSpan_recast (c : Config V σ) :
    (c.recast w g f).currentSpan = c.currentSpan := by
  unfold currentSpan
  rw [show (c.recast w g f).ahead? = c.ahead?.map w.token from rfl, Option.map_map,
    show Token.span ∘ w.token = Token.span from funext w.span_token]
  rfl

theorem unwind_map (e : Engine α) (slots : List (Slot V)) :
    unwind e (slots.map (Slot.map g)) =
      ((unwind e slots).1.map (Slot.map g), (unwind e slots).2.map (Slot.map g)) := by
  induction slots with
  | nil => rfl
  | cons x slots ih =>
    cases slots with
    | nil => rfl
    | cons y slots =>
      rw [List.map_cons, List.map_cons]
      unfold unwind
      rw [← List.map_cons, ih]
      rw [show (x.map g).state = x.state from rfl]
      split <;> rfl

theorem accept_recast (c : Config V σ) : (c.recast w g f).accept = c.accept.recast w g f := by
  have hpop : (c.recast w g f).stack.pop? =
      c.stack.pop?.map fun out ↦ (out.1.map g, out.2.map g) := by
    unfold Stack.pop?
    rw [show (c.recast w g f).stack.slots = c.stack.slots.map (Slot.map g) from rfl]
    cases c.stack.slots <;> rfl
  unfold accept
  rw [hpop]
  cases c.stack.pop? with
  | none => rfl
  | some out => rfl

end Recast

variable {r : Reducer α V σ} {r' : Reducer α W τ} {w : Wording} {g : V → W} {f : σ → τ}
  (h : r.Recasts r' w g f) (e : Engine α)

include h

theorem report_recast (d : Diagnostic) (c : Config V σ) :
    (c.recast w g f).report r' (w.diagnostic d) = (c.report r d).recast w g f := by
  unfold report recast
  rw [Array.map_push, h.report]
  rfl

theorem release_recast (v : V) (c : Config V σ) :
    (c.recast w g f).release r' (g v) = (c.release r v).recast w g f := by
  unfold release recast
  rw [h.release]

omit h in
/-- What is read where there is a token to read. -/
theorem read_of_cons {c : Config V σ} {t : Token} {rest : List Token}
    (hexhausted : c.exhausted = false)
    (hinput : c.input = t :: rest) :
    c.read e r = (t, { (if t.kind = .lexError then
      ({ c with input := rest }.record (.pull (some t))).report r
        (diagnostic e .lexical (e.context.lineOf t.span) (lexicalMessage t))
      else { c with input := rest }.record (.pull (some t))) with lastSpan := t.span }) := by
  unfold read
  rw [hexhausted, hinput]
  rfl

theorem read_recast (c : Config V σ) :
    (c.recast w g f).read e r' = (w.token (c.read e r).1, (c.read e r).2.recast w g f) := by
  cases hexhausted : c.exhausted with
  | true =>
    rw [read_of_exhausted e r hexhausted, read_of_exhausted e r' hexhausted, w.token_endOfInput]
    rfl
  | false =>
    cases hinput : c.input with
    | nil =>
      have hinput' : (c.recast w g f).input = [] := congrArg (List.map w.token) hinput
      rw [read_of_nil e r hexhausted hinput, read_of_nil e r' hexhausted hinput',
        w.token_endOfInput, recast_record]
      rfl
    | cons t rest =>
      have hinput' : (c.recast w g f).input = w.token t :: rest.map w.token :=
        congrArg (List.map w.token) hinput
      have hpull := recast_record w g f (.pull (some t)) { c with input := rest }
      have hexhausted' : (c.recast w g f).exhausted = false := hexhausted
      rw [read_of_cons e hexhausted hinput, read_of_cons e hexhausted' hinput', w.kind_token,
        w.span_token]
      split
      · have hreport := report_recast h (diagnostic e .lexical (e.context.lineOf t.span)
          (lexicalMessage t)) ({ c with input := rest }.record (.pull (some t)))
        rw [hpull, diagnostic, Wording.diagnostic, ← w.lexicalMessage_token] at hreport
        exact congrArg (fun c' : Config W τ ↦ (w.token t, { c' with lastSpan := t.span })) hreport
      · exact congrArg (fun c' : Config W τ ↦
          (w.token t, { c' with lastSpan := t.span })) hpull.symm

theorem peek_recast (c : Config V σ) :
    (c.recast w g f).peek e r' = (w.token (c.peek e r).1, (c.peek e r).2.recast w g f) := by
  have hread := read_recast h e c
  unfold peek
  rw [show (c.recast w g f).ahead? = c.ahead?.map w.token from rfl]
  cases hahead : c.ahead? with
  | some t => rfl
  | none =>
    dsimp only [Option.map_none]
    rw [hread]
    rfl

theorem push_recast (n : Nat) (v : V) (span : Span) (c : Config V σ) :
    (c.recast w g f).push r' n (g v) span = (c.push r n v span).recast w g f := by
  have hpush := Stack.push_map g c.stack ⟨n, v, span⟩
  unfold push
  rw [show (c.recast w g f).stack = c.stack.map g from rfl]
  rw [Slot.map] at hpush
  rw [hpush]
  cases c.stack.push ⟨n, v, span⟩ with
  | ok stack => rfl
  | error overflow => exact congrArg _ (release_recast h v c)

theorem shift_recast (n : Nat) (c : Config V σ) :
    (c.recast w g f).shift r' n = (c.shift r n).recast w g f := by
  unfold shift
  rw [show (c.recast w g f).ahead? = c.ahead?.map w.token from rfl]
  cases c.ahead? with
  | none => rfl
  | some t =>
    dsimp only [Option.map_some]
    have hshift := push_recast h n (r.ofToken t c.memory).1 t.span
      (c.taken t (r.ofToken t c.memory).1 (r.ofToken t c.memory).2)
    have htaken := recast_record w g f (.shift t (r.ofToken t c.memory).1)
      { c with ahead? := none, quiet := c.quiet - 1, memory := (r.ofToken t c.memory).2 }
    rw [show (c.recast w g f).memory = f c.memory from rfl, h.ofToken, w.span_token]
    rw [taken] at hshift
    exact (congrArg _ htaken).symm.trans hshift

theorem popped_recast (popped : List (Slot V)) (c : Config V σ) :
    (popped.map (Slot.map g)).foldl (fun c x ↦ (c.release r' x.value).record (.pop x))
        (c.recast w g f) =
      (popped.foldl (fun c x ↦ (c.release r x.value).record (.pop x)) c).recast w g f := by
  induction popped generalizing c with
  | nil => rfl
  | cons x popped ih =>
    rw [List.map_cons, List.foldl_cons, List.foldl_cons, ← ih, recast_record, ← release_recast h]
    rfl

theorem recover_recast (start : Span) (c : Config V σ) :
    (c.recast w g f).recover e r' start = (c.recover e r start).recast w g f := by
  unfold recover
  rw [show (c.recast w g f).stack.slots = c.stack.slots.map (Slot.map g) from rfl, unwind_map]
  cases unwind e c.stack.slots with
  | mk popped left =>
    have hpopped := popped_recast h popped
      { c with
        stack := { c.stack with slots := left }
        quiet := e.options.recoveryShifts }
    have hfirst : ((popped.map (Slot.map g)).getLast?.map Slot.span) =
        popped.getLast?.map Slot.span := by
      rw [List.getLast?_map, Option.map_map]
      rfl
    dsimp only
    rw [hfirst]
    simp only [recast, Stack.map] at hpopped ⊢
    rw [hpopped]
    cases left with
    | nil => rfl
    | cons x rest =>
      rw [List.map_cons]
      dsimp only
      rw [show (x.map g).state = x.state from rfl]
      generalize (popped.foldl (fun c x ↦ (c.release r x.value).record (.pop x))
        { c with
          stack := { c.stack with slots := x :: rest }
          quiet := e.options.recoveryShifts }) = c'
      have hspan := currentSpan_recast w g f c'
      cases e.errorShift? x.state with
      | none => exact congrArg (fun span ↦ Step.aborted (.unrecoverable e.context.file
          (e.context.lineOf span)) (c'.recast w g f)) hspan
      | some n =>
        dsimp only
        simp only [recast, Stack.map] at hspan
        rw [hspan]
        have hpush := push_recast h n r.blank
          (Span.cover ((popped.getLast?.map Slot.span).getD start) c'.currentSpan)
          (c'.record (.resume n
            (Span.cover ((popped.getLast?.map Slot.span).getD start) c'.currentSpan)))
        rw [recast_record, ← h.blank] at hpush
        exact hpush

theorem goto_recast (lhs rule : Nat) (v : V) (span : Span) (c : Config V σ) :
    (c.recast w g f).goto e r' lhs rule (g v) span =
      (c.goto e r lhs rule v span).recast w g f := by
  unfold goto
  rw [show (c.recast w g f).stack = c.stack.map g from rfl, Stack.top?_map]
  cases c.stack.top? with
  | none => exact congrArg _ (release_recast h v c)
  | some x =>
    rw [Option.map_some]
    dsimp only
    rw [show (x.map g).state = x.state from rfl]
    cases (e.row? x.state).bind fun row ↦ row.goto? lhs with
    | none => exact congrArg _ (release_recast h v c)
    | some n => exact push_recast h n v span c

omit h in
theorem reduced_recast (k : Nat) (p : Rule α) (verdict : Verdict V) (m : σ) (c : Config V σ) :
    (c.recast w g f).reduced k p (verdict.recast w g, f m) =
      (c.reduced k p (verdict, m)).recast w g f := by
  unfold reduced recast
  rw [Array.map_push, Stack.map, Stack.map, Reduction.ofSlots_map, List.map_drop]
  rfl

theorem reduce_recast (k : Nat) (c : Config V σ) :
    (c.recast w g f).reduce e r' k = (c.reduce e r k).recast w g f := by
  cases hrule : e.grammar.rules[k]? with
  | none =>
    unfold reduce
    rw [hrule]
    rfl
  | some p =>
    obtain ⟨⟨verdict, m⟩, hout⟩ : ∃ out, r.reduce p.action
        (.ofSlots k p.rhs.length c.stack.slots) c.memory = out := ⟨_, rfl⟩
    have hslots : Reduction.ofSlots k p.rhs.length (c.recast w g f).stack.slots =
        (Reduction.ofSlots k p.rhs.length c.stack.slots).map g := Reduction.ofSlots_map ..
    have hout' : r'.reduce p.action (.ofSlots k p.rhs.length (c.recast w g f).stack.slots)
        (c.recast w g f).memory = (verdict.recast w g, f m) := by
      rw [hslots, show (c.recast w g f).memory = f c.memory from rfl, h.reduce, hout]
    rw [reduce_eq hrule hout, reduce_eq hrule hout', hslots, reduced_recast]
    cases verdict with
    | value v => exact goto_recast h e p.lhs k v _ (c.reduced k p (.value v, m))
    | rejected message =>
      have hreport := report_recast h (diagnostic e .semantic (e.context.lineOf
        (Reduction.ofSlots k p.rhs.length c.stack.slots).span) message)
        (c.reduced k p (.rejected message, m))
      dsimp only [Verdict.recast]
      rw [← recover_recast h, ← hreport]
      rfl
    | fatal cause => rfl

theorem complain_recast (n : Nat) (t : Token) (c : Config V σ) :
    (c.recast w g f).complain e r' n (w.token t) = (c.complain e r n t).recast w g f := by
  unfold complain
  rw [show (c.recast w g f).quiet = c.quiet from rfl, w.kind_token, w.span_token]
  split
  · exact report_recast h (diagnostic e .grammatical _ _) c
  · rfl

theorem fail_recast (n : Nat) (c : Config V σ) :
    (c.recast w g f).fail e r' n = (c.fail e r n).recast w g f := by
  unfold fail
  rw [peek_recast h e]
  dsimp only
  rw [complain_recast h e]
  generalize (c.peek e r).2.complain e r n (c.peek e r).1 = c'
  rw [show (c'.recast w g f).quiet = c'.quiet from rfl, w.kind_token, w.span_token]
  split
  · split
    · have hspan := currentSpan_recast w g f c'
      exact congrArg (fun span ↦ Step.aborted (.unrecoverable e.context.file
        (e.context.lineOf span)) (c'.recast w g f)) hspan
    · have hrecover := recover_recast h e (c.peek e r).1.span
        ({ c' with ahead? := none }.record (.discard (c.peek e r).1))
      rw [recast_record] at hrecover
      exact hrecover
  · exact recover_recast h e _ c'

theorem carryOut_recast (n : Nat) (a? : Option Action) (c : Config V σ) :
    (c.recast w g f).carryOut e r' n a? = (c.carryOut e r n a?).recast w g f := by
  unfold carryOut
  split
  · exact shift_recast h _ c
  · exact reduce_recast h e _ c
  · exact accept_recast w g f c
  · exact fail_recast h e _ c

theorem consult_recast (row : Row) (c : Config V σ) :
    (c.recast w g f).consult e r' row = (c.consult e r row).recast w g f := by
  unfold consult
  split
  · rw [peek_recast h e]
  · rfl

/-- A step does not look at values. -/
theorem step_recast (c : Config V σ) :
    (c.recast w g f).step e r' = (c.step e r).recast w g f := by
  cases hslots : c.stack.slots with
  | nil =>
    have hslots' : (c.recast w g f).stack.slots = [] := congrArg (List.map (Slot.map g)) hslots
    rw [step_of_nil hslots, step_of_nil hslots']
    rfl
  | cons x rest =>
    have hslots' : (c.recast w g f).stack.slots = x.map g :: rest.map (Slot.map g) :=
      congrArg (List.map (Slot.map g)) hslots
    rw [step_of_cons hslots, step_of_cons hslots', peek_recast h e, w.kind_token,
      consult_recast h e]
    exact carryOut_recast h e _ _ _

end Config

namespace Engine

section Recast

variable {r : Reducer α V σ} {r' : Reducer α W τ} {w : Wording} {g : V → W} {f : σ → τ}
  (h : r.Recasts r' w g f) (e : Engine α)

include h

theorem steps_recast (n : Nat) (s : Step V σ) :
    e.steps r' n (s.recast w g f) = (e.steps r n s).recast w g f := by
  induction n generalizing s with
  | zero => simp
  | succ n ih =>
    cases s with
    | running c =>
      change e.steps r' n ((c.recast w g f).step e r') = _
      rw [Config.step_recast h, ih]
      rfl
    | accepted v c => rw [steps_accepted]; exact steps_accepted e r' _ _ _
    | aborted cause c => rw [steps_aborted]; exact steps_aborted e r' _ cause _

theorem start_recast (input : List Token) (m : σ) :
    e.start r' (input.map w.token) (f m) = (e.start r input m).recast w g f := by
  unfold start
  dsimp only
  have hcreate : Stack.create (V := W) e.options.initialStackDepth e.options.maxStackDepth =
      (Stack.create e.options.initialStackDepth e.options.maxStackDepth).map (Stack.map g) :=
    Stack.reserve_map g (Stack.none _) _
  have hempty : (#[] : Array (Event V)).map (Event.recast w g) = #[] := Array.map_empty
  rw [hcreate]
  cases Stack.create (V := V) e.options.initialStackDepth e.options.maxStackDepth with
  | error overflow =>
    dsimp only [Except.map, Step.recast, Config.recast]
    rw [hempty]
    rfl
  | ok stack =>
    have hpush := Config.push_recast h 0 r.blank .start
      ⟨stack, none, input, false, .start, 0, m, #[]⟩
    rw [← h.blank, Config.recast, hempty] at hpush
    exact hpush

theorem clear_recast (c : Config V σ) :
    clear r' (c.recast w g f) = (clear r c).recast w g f := by
  have hslots : ∀ (slots : List (Slot V)) (c : Config V σ),
      (slots.map (Slot.map g)).foldl (fun c x ↦ c.release r' x.value) (c.recast w g f) =
        (slots.foldl (fun c x ↦ c.release r x.value) c).recast w g f := by
    intro slots
    induction slots with
    | nil => exact fun c ↦ rfl
    | cons x slots ih =>
      intro c
      rw [List.map_cons, List.foldl_cons, List.foldl_cons, ← ih, ← Config.release_recast h]
      rfl
  exact hslots c.stack.slots { c with stack := { c.stack with slots := [] } }

/-- What a run ends with does not depend on values. -/
theorem finish_recast (s : Step V σ) :
    e.finish r' (s.recast w g f) =
      ((e.finish r s).1.map g, (e.finish r s).2.recast w g f) := by
  cases s with
  | running c => rfl
  | accepted v c => exact congrArg _ (clear_recast h c)
  | aborted cause c =>
    have hspan := Config.currentSpan_recast w g f (clear r c)
    have hreport := Config.report_recast h (Config.diagnostic e .fatal ((clear r c).currentLine e)
      cause.message) (clear r c)
    unfold finish Step.recast
    dsimp only
    rw [clear_recast h, Config.currentLine, hspan]
    exact congrArg _ hreport

end Recast

/-! ## Other values for the same tokens -/

variable {r : Reducer α V σ} {r' : Reducer α W τ} {g : V → W} {f : σ → τ}

theorem recasts_of_maps (h : r.Maps r' g f) : r.Recasts r' .same g f where
  blank := h.blank
  ofToken := h.ofToken
  reduce a red m := by
    rw [h.reduce]
    cases (r.reduce a red m).1 <;> rfl
  report d m := by
    rw [← h.report]
    obtain ⟨file, line, kind, message⟩ := d
    cases kind <;> rfl
  release := h.release

theorem recast_same (g : V → W) (f : σ → τ) (c : Config V σ) : c.recast .same g f = c.map g f := by
  have hevent : (Event.recast .same g : Event V → Event W) = Event.map g := by
    funext ev
    cases ev with
    | pull token? => cases token? <;> rfl
    | report d =>
      obtain ⟨file, line, kind, message⟩ := d
      cases kind <;> rfl
    | reduce red verdict => cases verdict <;> rfl
    | _ => rfl
  unfold Config.recast Config.map
  rw [hevent, show Wording.same.token = id from rfl, List.map_id, Option.map_id]
  rfl

/-- A run does not look at values. -/
theorem run_map (h : r.Maps r' g f) (e : Engine α) (budget : Nat) (input : List Token) (m : σ) :
    e.run r' budget input (f m) =
      ((e.run r budget input m).1.map g, (e.run r budget input m).2.map g f) := by
  have hrecasts := recasts_of_maps h
  have hstart := start_recast hrecasts e input m
  rw [show Wording.same.token = id from rfl, List.map_id] at hstart
  unfold run
  rw [hstart, steps_recast hrecasts, finish_recast hrecasts, recast_same]

end Engine

end PlainLedger
