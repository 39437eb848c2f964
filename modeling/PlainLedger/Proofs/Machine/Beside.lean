import PlainLedger.Proofs.Machine.Faults
import PlainLedger.Proofs.Machine.Growth

/-!
# Machines side by side

Two machines whose stacks differ in one slot, right above the bottom, do the same with a text that
both have before them, although the one may have been running for long and may have more text before
it: both look at the same tokens, find room for the same slots, and recover from the same errors.
-/

namespace PlainLedger

variable {α V σ : Type}

/-- Steps that lead on to related configurations, or end in the same way. Unless `P`, the first one
may also go its own way, by going on after an error. -/
inductive Step.Along (R : Config V σ → Config V σ → Prop) (P : Prop) :
    Step V σ → Step V σ → Prop where
  | running {c d : Config V σ} (h : R c d) : Along R P (.running c) (.running d)
  | aborted (cause : Abort) (c d : Config V σ) : Along R P (.aborted cause c) (.aborted cause d)
  | apart {s s' : Step V σ} (hP : ¬P)
      (h : s.Post (fun c ↦ 0 < c.recoveries) (fun _ _ ↦ False) fun _ _ ↦ True) : Along R P s s'

/-- The stacks differ in one slot, and in the room that the second one has had before, since it
began as `s₀`. What is remembered is related, and if `P` then both machines are quiet for as many
tokens. -/
structure Beside (like : Slot V → Slot V → Prop) (told : σ → σ → Prop) (P : Prop) (s₀ : Stack V)
    (c d : Config V σ) : Prop where
  slots : ∃ above x y b, c.stack.slots = above ++ [x, b] ∧ d.stack.slots = above ++ [y, b] ∧
    like x y
  room : c.stack.Under d.stack
  grown : s₀.Grown d.stack
  bottom : d.stack.slots.getLast? = s₀.slots.getLast?
  told : told c.memory d.memory
  quiet : P → d.quiet = c.quiet

/-- The first machine has a text before it, and the second one has the text and more. -/
structure Before (more : List Token) (c d : Config V σ) : Prop where
  ahead : d.ahead? = c.ahead?
  input : d.input = c.input ++ more
  exhausted : c.exhausted = false ∧ d.exhausted = false
  lastSpan : d.lastSpan = c.lastSpan
  unended : ∀ t ∈ c.ahead?.toList ++ c.input, t.kind ≠ .endOfInput

/-- What is related stays so when the same is reported to both, when values are taken back and when
a token is read, which has the same value for both. -/
structure Reducer.Echoes (r : Reducer α V σ) (told : σ → σ → Prop) : Prop where
  report {m m' : σ} (d : Diagnostic) (h : told m m') : told (r.report d m) (r.report d m')
  release {m m' : σ} (v w : V) (h : told m m') : told (r.release v m) (r.release w m')
  value {m m' : σ} (t : Token) (h : told m m') : (r.ofToken t m).1 = (r.ofToken t m').1
  token {m m' : σ} (t : Token) (h : told m m') : told (r.ofToken t m).2 (r.ofToken t m').2

namespace Step.Along

variable {R R' : Config V σ → Config V σ → Prop} {P : Prop} {r : Reducer α V σ} {c d : Config V σ}

theorem imp {s s' : Step V σ} (h : Along R P s s') (hR : ∀ c d, R c d → R' c d) :
    Along R' P s s' := by
  cases h with
  | running h => exact .running (hR _ _ h)
  | aborted cause c d => exact .aborted cause c d
  | apart hP h => exact .apart hP h

/-- A slot is put on both stacks, or there is room on neither. -/
theorem push {n : Nat} {v w : V} {span span' : Span} (hroom : c.stack.Under d.stack)
    (h : ∀ s s' : Stack V, s.slots = ⟨n, v, span⟩ :: c.stack.slots →
      s'.slots = ⟨n, w, span'⟩ :: d.stack.slots → s.Under s' → d.stack.Grown s' →
      R { c with stack := s } { d with stack := s' }) :
    Along R P (c.push r n v span) (d.push r n w span') := by
  unfold Config.push
  rcases hroom.push ⟨n, v, span⟩ ⟨n, w, span'⟩ with ⟨s, s', hs, hs', hunder⟩ | ⟨_, hs, hs'⟩
  · rw [hs, hs']
    exact .running (h s s' (Stack.slots_push hs) (Stack.slots_push hs') hunder
      (Stack.grown_push hs'))
  · rw [hs, hs']
    exact .aborted _ _ _

/-- A rule is completed on both stacks, and has a value on both. -/
theorem reduce {e : Engine α} {k n : Nat} {p : Rule α} {row : Row} {y y' : Slot V}
    {below below' : List (Slot V)} {v w : V} {m m' : σ} (hroom : c.stack.Under d.stack)
    (hrule : e.grammar.rules[k]? = some p) (hc : c.stack.slots.drop p.rhs.length = y :: below)
    (hd : d.stack.slots.drop p.rhs.length = y' :: below') (hstate : y'.state = y.state)
    (hrow : e.row? y.state = some row) (hgoto : row.goto? p.lhs = some n)
    (hm : r.reduce p.action (.ofSlots k p.rhs.length c.stack.slots) c.memory = (.value v, m))
    (hm' : r.reduce p.action (.ofSlots k p.rhs.length d.stack.slots) d.memory = (.value w, m'))
    (h : ∀ (s s' : Stack V) (log log' : Array (Event V)),
      s.slots = ⟨n, v, (Reduction.ofSlots k p.rhs.length c.stack.slots).span⟩ :: y :: below →
      s'.slots = ⟨n, w, (Reduction.ofSlots k p.rhs.length d.stack.slots).span⟩ :: y' :: below' →
      s.Under s' → d.stack.Grown s' →
      R { c with stack := s, memory := m, log } { d with stack := s', memory := m', log := log' }) :
    Along R P (c.reduce e r k) (d.reduce e r k) := by
  have hcons : ∀ {s : Stack V} {z : Slot V} {zs : List (Slot V)},
    s.slots.drop p.rhs.length = z :: zs →
      ∃ x rest, s.slots = x :: rest := fun hz ↦
    List.exists_cons_of_ne_nil fun hnil ↦ by
      rw [hnil, List.drop_nil] at hz
      cases hz
  obtain ⟨x, rest, hx⟩ := hcons hc
  obtain ⟨x', rest', hx'⟩ := hcons hd
  rw [Config.reduce_eq_push hx hrule (hx ▸ hc) hrow hgoto hm,
    Config.reduce_eq_push hx' hrule (hx' ▸ hd) (hstate ▸ hrow) hgoto hm']
  refine push (hroom.drop _) fun s s' hs hs' hunder hgrown ↦ ?_
  refine h s s' _ _ (hs.trans (congrArg _ hc)) (hs'.trans (congrArg _ hd)) hunder ?_
  exact ⟨hgrown.ceiling, hgrown.widens⟩

end Step.Along

namespace Beside

variable {like : Slot V → Slot V → Prop} {told : σ → σ → Prop} {P : Prop} {s₀ : Stack V}
  {more : List Token} {e : Engine α} {r : Reducer α V σ} {c d c' d' : Config V σ}

/-- Neither the stack nor the number of tokens to be quiet for is changed. -/
theorem remember {told' : σ → σ → Prop} (h : Beside like told P s₀ c d)
    (hstack : c'.stack = c.stack) (hstack' : d'.stack = d.stack) (hquiet : c'.quiet = c.quiet)
    (hquiet' : d'.quiet = d.quiet) (htold : told' c'.memory d'.memory) :
    Beside like told' P s₀ c' d' where
  slots := by
    rw [hstack, hstack']
    exact h.slots
  room := by
    rw [hstack, hstack']
    exact h.room
  grown := by
    rw [hstack']
    exact h.grown
  bottom := by
    rw [hstack']
    exact h.bottom
  told := htold
  quiet hP := by rw [hquiet, hquiet', h.quiet hP]

/-- The states of the one stack are those of the other. -/
theorem states (h : Beside like told P s₀ c d) (hlike : ∀ x y, like x y → x.state = y.state) :
    d.stack.slots.map Slot.state = c.stack.slots.map Slot.state := by
  obtain ⟨above, x, y, b, hc, hd, hxy⟩ := h.slots
  rw [hc, hd]
  simp [hlike x y hxy]

end Beside

namespace Before

variable {like : Slot V → Slot V → Prop} {told : σ → σ → Prop} {P : Prop} {s₀ : Stack V}
  {more : List Token} {e : Engine α} {r : Reducer α V σ} {c d c' d' : Config V σ}

theorem pending_eq (h : Before more c d) : c.pending = c.ahead?.toList ++ c.input := by
  unfold Config.pending
  rw [h.exhausted.1]
  exact List.takeWhile_eq_self_iff.mpr fun t ht ↦ decide_eq_true (h.unended t ht)

/-- Where the second machine has no more, both have the same before them. -/
theorem pending_of_nil (h : Before [] c d) : d.pending = c.pending := by
  have hinput := h.input
  rw [List.append_nil] at hinput
  unfold Config.pending
  rw [h.ahead, hinput, h.exhausted.1, h.exhausted.2]

/-- Neither reads a token nor uses one up. -/
theorem same (h : Before more c d) (hahead : c'.ahead? = c.ahead?) (hahead' : d'.ahead? = d.ahead?)
    (hinput : c'.input = c.input) (hinput' : d'.input = d.input)
    (hexhausted : c'.exhausted = c.exhausted) (hexhausted' : d'.exhausted = d.exhausted)
    (hlast : c'.lastSpan = c.lastSpan) (hlast' : d'.lastSpan = d.lastSpan) : Before more c' d' where
  ahead := by rw [hahead, hahead', h.ahead]
  input := by rw [hinput, hinput', h.input]
  exhausted := by
    rw [hexhausted, hexhausted']
    exact h.exhausted
  lastSpan := by rw [hlast, hlast', h.lastSpan]
  unended := by
    rw [hahead, hinput]
    exact h.unended

/-- As long as there is text before the first machine, both look at the same token. -/
theorem peek (h : Before more c d) (hbeside : Beside like told P s₀ c d) (hr : r.Echoes told)
    (hpending : c.pending ≠ []) :
    (d.peek e r).1 = (c.peek e r).1 ∧ Before more (c.peek e r).2 (d.peek e r).2 ∧
      Beside like told P s₀ (c.peek e r).2 (d.peek e r).2 := by
  cases hahead : c.ahead? with
  | some t =>
    rw [Config.peek_of_ahead e r hahead, Config.peek_of_ahead e r (h.ahead.trans hahead)]
    exact ⟨rfl, h, hbeside⟩
  | none =>
    rw [Config.peek_of_none e r hahead, Config.peek_of_none e r (h.ahead.trans hahead)]
    rw [h.pending_eq, hahead] at hpending
    obtain ⟨t, ts, hinput⟩ : ∃ t ts, c.input = t :: ts := List.exists_cons_of_ne_nil hpending
    have hinput' : d.input = t :: (ts ++ more) := by rw [h.input, hinput, List.cons_append]
    have hunended := h.unended
    rw [hahead, hinput] at hunended
    rw [Config.read_of_cons e h.exhausted.1 hinput, Config.read_of_cons e h.exhausted.2 hinput']
    split
    · exact ⟨rfl, ⟨rfl, rfl, h.exhausted, rfl, hunended⟩,
        hbeside.remember rfl rfl rfl rfl (hr.report _ hbeside.told)⟩
    · exact ⟨rfl, ⟨rfl, rfl, h.exhausted, rfl, hunended⟩,
        hbeside.remember rfl rfl rfl rfl hbeside.told⟩

theorem consult (h : Before more c d) (hbeside : Beside like told P s₀ c d) (hr : r.Echoes told)
    (hpending : c.pending ≠ []) (row : Row) :
    Before more (c.consult e r row) (d.consult e r row) ∧
      Beside like told P s₀ (c.consult e r row) (d.consult e r row) := by
  unfold Config.consult
  split
  · exact (h.peek hbeside hr hpending).2
  · exact ⟨h, hbeside⟩

end Before

/-! ## The parts of a step -/

section Steps

variable {like : Slot V → Slot V → Prop} {told : σ → σ → Prop} {P : Prop} {s₀ : Stack V}
  {more : List Token} {e : Engine α} {r : Reducer α V σ} {c d : Config V σ}

/-- Two machines side by side, the second one with more text after that of the first. -/
def Attends (like : Slot V → Slot V → Prop) (told : σ → σ → Prop) (P : Prop) (s₀ : Stack V)
    (more : List Token) (c d : Config V σ) : Prop :=
  Beside like told P s₀ c d ∧ Before more c d

/-- Both machines have put the same slot on their stacks. -/
theorem Attends.push {Q : Prop} (h : Attends like told P s₀ more c d) (n : Nat) (v : V)
    (span : Span) :
    Step.Along (Attends like told P s₀ more) Q (c.push r n v span) (d.push r n v span) := by
  obtain ⟨hbeside, hbefore⟩ := h
  refine .push hbeside.room fun s s' hs hs' hunder hgrown ↦ ?_
  obtain ⟨above, x, y, b, hc, hd, hxy⟩ := hbeside.slots
  refine ⟨⟨⟨⟨n, v, span⟩ :: above, x, y, b, ?_, ?_, hxy⟩, hunder, hbeside.grown.trans hgrown, ?_,
    hbeside.told, hbeside.quiet⟩, hbefore.same rfl rfl rfl rfl rfl rfl rfl rfl⟩
  · rw [List.cons_append, ← hc]
    exact hs
  · rw [List.cons_append, ← hd]
    exact hs'
  · rw [← hbeside.bottom]
    refine (congrArg List.getLast? hs').trans ?_
    rw [hd, ← List.cons_append, List.getLast?_append, List.getLast?_append]
    rfl

theorem Attends.shift {Q : Prop} (h : Attends like told P s₀ more c d) (hr : r.Echoes told)
    {t : Token} (hahead : c.ahead? = some t) (n : Nat) :
    Step.Along (Attends like told P s₀ more) Q (c.shift r n) (d.shift r n) := by
  obtain ⟨hbeside, hbefore⟩ := h
  obtain ⟨v, m, hvalue⟩ : ∃ v m, r.ofToken t c.memory = (v, m) := ⟨_, _, rfl⟩
  obtain ⟨v', m', hvalue'⟩ : ∃ v' m', r.ofToken t d.memory = (v', m') := ⟨_, _, rfl⟩
  have hv := hr.value t hbeside.told
  have hm := hr.token t hbeside.told
  rw [hvalue, hvalue'] at hv hm
  cases hv
  rw [Config.shift_eq hahead hvalue, Config.shift_eq (hbefore.ahead.trans hahead) hvalue']
  have hread : Attends like told P s₀ more (c.taken t v m) (d.taken t v m') := by
    refine ⟨⟨hbeside.slots, hbeside.room, hbeside.grown, hbeside.bottom, hm, fun hP ↦ ?_⟩,
      ⟨rfl, hbefore.input, hbefore.exhausted, hbefore.lastSpan, fun u hu ↦ ?_⟩⟩
    · exact congrArg (· - 1) (hbeside.quiet hP)
    · exact hbefore.unended u (List.mem_append_right _ hu)
  exact hread.push n _ t.span

theorem unwind_append {above : List (Slot V)} {x : Slot V} (rest : List (Slot V))
    (habove : ∀ z ∈ above, e.errorShift? z.state = none)
    (hx : (e.errorShift? x.state).isSome = true) :
    Config.unwind e (above ++ x :: rest) = (above, x :: rest) := by
  induction above with
  | nil =>
    cases rest with
    | nil => rfl
    | cons y rest => simp [Config.unwind, hx]
  | cons z above ih =>
    have hz := habove z (List.mem_cons_self ..)
    have hih := ih fun w hw ↦ habove w (List.mem_cons_of_mem _ hw)
    obtain ⟨w, ws, hws⟩ := List.exists_cons_of_ne_nil
      (List.append_ne_nil_of_right_ne_nil above (List.cons_ne_nil x rest))
    rw [List.cons_append]
    rw [hws] at hih ⊢
    simp [Config.unwind, hz, hih]

/-- Values are taken back from both stacks. -/
theorem exists_popped (hr : r.Echoes told) (popped : List (Slot V)) (c d : Config V σ)
    (htold : told c.memory d.memory) :
    ∃ m m' log log',
      popped.foldl (fun c x ↦ (c.release r x.value).record (.pop x)) c =
        { c with memory := m, log } ∧
      popped.foldl (fun c x ↦ (c.release r x.value).record (.pop x)) d =
        { d with memory := m', log := log' } ∧ told m m' := by
  induction popped generalizing c d with
  | nil => exact ⟨c.memory, d.memory, c.log, d.log, rfl, rfl, htold⟩
  | cons x popped ih =>
    obtain ⟨m, m', log, log', hc, hd, hm⟩ := ih ((c.release r x.value).record (.pop x))
      ((d.release r x.value).record (.pop x)) (hr.release _ _ htold)
    exact ⟨m, m', log, log', hc, hd, hm⟩

/-- Both machines go on after an error, above the slots that they differ in. -/
theorem Attends.recover (h : Attends like told P s₀ more c d) (hr : r.Echoes told)
    {above : List (Slot V)} {x y b : Slot V} {n : Nat} (hc : c.stack.slots = above ++ [x, b])
    (hd : d.stack.slots = above ++ [y, b]) (hxy : like x y) (hstate : y.state = x.state)
    (habove : ∀ z ∈ above, e.errorShift? z.state = none) (hshift : e.errorShift? x.state = some n)
    (start : Span) :
    Step.Along (Attends like told P s₀ more) P (c.recover e r start) (d.recover e r start) := by
  obtain ⟨hbeside, hbefore⟩ := h
  have hunwind := unwind_append [b] habove (Option.isSome_iff_exists.mpr ⟨n, hshift⟩)
  have hunwind' := unwind_append (x := y) [b] habove
    (Option.isSome_iff_exists.mpr ⟨n, hstate ▸ hshift⟩)
  rw [← hc] at hunwind
  rw [← hd] at hunwind'
  have hspan : d.currentSpan = c.currentSpan := by
    unfold Config.currentSpan
    rw [hbefore.ahead, hbefore.lastSpan]
  obtain ⟨m, m', log, log', hfold, hfold', hm⟩ := exists_popped hr above
    { c with stack := { c.stack with slots := [x, b] }, quiet := e.options.recoveryShifts }
    { d with stack := { d.stack with slots := [y, b] }, quiet := e.options.recoveryShifts }
    hbeside.told
  rw [Config.recover_eq, Config.recover_eq]
  unfold Config.unwound Config.skippedSpan
  rw [hunwind, hunwind', hspan]
  dsimp only
  rw [hfold, hfold', hstate, hshift]
  have hroom := hbeside.room.drop above.length
  rw [hc, hd, List.drop_left, List.drop_left] at hroom
  have hbottom : [y, b].getLast? = s₀.slots.getLast? := by
    rw [← hbeside.bottom, hd]
    simp
  generalize Span.cover _ _ = span
  have hleft : Attends like told P s₀ more
      ({ c with
        stack := { c.stack with slots := [x, b] }
        quiet := e.options.recoveryShifts
        memory := m
        log }.record (.resume n span))
      ({ d with
        stack := { d.stack with slots := [y, b] }
        quiet := e.options.recoveryShifts
        memory := m'
        log := log' }.record (.resume n span)) :=
    ⟨⟨⟨[], x, y, b, rfl, rfl, hxy⟩, hroom, ⟨hbeside.grown.ceiling, hbeside.grown.widens⟩, hbottom,
      hm, fun _ ↦ rfl⟩, hbefore.same rfl rfl rfl rfl rfl rfl rfl rfl⟩
  exact hleft.push n r.blank span

/-- Both machines report the same token, or neither does. -/
theorem Attends.complain (h : Attends like told P s₀ more c d) (hr : r.Echoes told) (hP : P)
    (n : Nat) (t : Token) :
    Attends like told P s₀ more (c.complain e r n t) (d.complain e r n t) := by
  obtain ⟨hbeside, hbefore⟩ := h
  unfold Config.complain
  rw [hbeside.quiet hP]
  split
  · exact ⟨hbeside.remember rfl rfl rfl rfl (hr.report _ hbeside.told),
      hbefore.same rfl rfl rfl rfl rfl rfl rfl rfl⟩
  · exact ⟨hbeside, hbefore⟩

/-- If the machines are quiet for as many tokens, they go on after an error in the same way. -/
theorem Attends.fail (h : Attends like told P s₀ more c d) (hr : r.Echoes told)
    (hpending : c.pending ≠ []) {above : List (Slot V)} {x y b : Slot V} {n : Nat}
    (hc : c.stack.slots = above ++ [x, b]) (hd : d.stack.slots = above ++ [y, b]) (hxy : like x y)
    (hstate : y.state = x.state) (habove : ∀ z ∈ above, e.errorShift? z.state = none)
    (hshift : e.errorShift? x.state = some n) (k : Nat) :
    Step.Along (Attends like told P s₀ more) P (c.fail e r k) (d.fail e r k) := by
  by_cases hP : P
  · obtain ⟨htoken, hbefore, hbeside⟩ := h.2.peek (e := e) h.1 hr hpending
    have hend : (c.peek e r).1.kind ≠ .endOfInput := by
      rw [Config.kind_peek]
      exact fun hup ↦ hpending (Config.upcoming_eq_endOfInput_iff.mp hup)
    have hboth := Attends.complain (e := e) ⟨hbeside, hbefore⟩ hr hP k (c.peek e r).1
    have hslots : ∀ c : Config V σ,
      ((c.peek e r).2.complain e r k (c.peek e r).1).stack = c.stack :=
      fun c ↦ (Config.stack_complain _ _ _).trans (c.stack_peek e r)
    have hc' := congrArg Stack.slots (hslots c)
    have hd' := congrArg Stack.slots (hslots d)
    rw [hc] at hc'
    rw [hd, htoken] at hd'
    unfold Config.fail
    dsimp only
    rw [htoken]
    by_cases hquiet :
      ((c.peek e r).2.complain e r k (c.peek e r).1).quiet = e.options.recoveryShifts
    · rw [if_pos hquiet, if_pos ((hboth.1.quiet hP).trans hquiet), if_neg hend, if_neg hend]
      have hdropped : Attends like told P s₀ more
          ({ (c.peek e r).2.complain e r k (c.peek e r).1 with ahead? := none }.record
            (.discard (c.peek e r).1))
          ({ (d.peek e r).2.complain e r k (c.peek e r).1 with ahead? := none }.record
            (.discard (c.peek e r).1)) :=
        ⟨hboth.1.remember rfl rfl rfl rfl hboth.1.told, rfl, hboth.2.input, hboth.2.exhausted,
          hboth.2.lastSpan, fun u hu ↦ hboth.2.unended u (List.mem_append_right _ hu)⟩
      exact hdropped.recover hr hc' hd' hxy hstate habove hshift _
    · rw [if_neg hquiet, if_neg fun h ↦ hquiet ((hboth.1.quiet hP).symm.trans h)]
      exact hboth.recover hr hc' hd' hxy hstate habove hshift _
  · exact .apart hP (Config.post_fail_recoveries _ _)

end Steps

/-! ## Runs -/

theorem Engine.steps_one (e : Engine α) (r : Reducer α V σ) (c : Config V σ) :
    e.steps r 1 (.running c) = c.step e r :=
  e.steps_zero r (c.step e r)

/-- Two runs come to related configurations in as many steps, or are given up after as many. Unless
`P`, the first one may go on after an error before it does. -/
inductive Engine.Together (e : Engine α) (r : Reducer α V σ) (R : Config V σ → Config V σ → Prop)
    (P : Prop) (s s' : Step V σ) : Prop where
  | arrive (k : Nat) {c d : Config V σ} (hc : e.steps r k s = .running c)
      (hd : e.steps r k s' = .running d) (h : R c d)
  | aborted (k : Nat) {cause : Abort} {c d : Config V σ} (hc : e.steps r k s = .aborted cause c)
      (hd : e.steps r k s' = .aborted cause d)
  | apart (k : Nat) (hP : ¬P)
      (h : (e.steps r k s).Post (fun c ↦ 0 < c.recoveries) (fun _ _ ↦ False) fun _ _ ↦ True)

namespace Engine.Together

variable {e : Engine α} {r : Reducer α V σ} {R R' : Config V σ → Config V σ → Prop} {P : Prop}
  {s s' : Step V σ} {c d : Config V σ}

theorem trans (h : e.Together r R P s s')
    (hnext : ∀ c d, R c d → e.Together r R' P (.running c) (.running d)) :
    e.Together r R' P s s' := by
  cases h with
  | @arrive k c d hc hd hR =>
    cases hnext c d hR with
    | arrive j hc' hd' h =>
      exact .arrive (k + j) (by rw [e.steps_add, hc, hc']) (by rw [e.steps_add, hd, hd']) h
    | aborted j hc' hd' =>
      exact .aborted (k + j) (by rw [e.steps_add, hc, hc']) (by rw [e.steps_add, hd, hd'])
    | apart j hP h => exact .apart (k + j) hP (by rwa [e.steps_add, hc])
  | aborted k hc hd => exact .aborted k hc hd
  | apart k hP h => exact .apart k hP h

/-- What one step leads to, and what comes after it. -/
theorem step (h : Step.Along R P (c.step e r) (d.step e r))
    (hnext : ∀ c' d', c.step e r = .running c' → R c' d' →
      e.Together r R' P (.running c') (.running d')) :
    e.Together r R' P (.running c) (.running d) := by
  generalize hs : c.step e r = s at h
  generalize hs' : d.step e r = s' at h
  cases h with
  | running h =>
    refine trans (.arrive 1 ((steps_one e r c).trans hs) ((steps_one e r d).trans hs')
      (R := fun c' d' ↦
      c.step e r = .running c' ∧ R c' d') ⟨hs, h⟩) fun c' d' h ↦ hnext c' d' h.1 h.2
  | aborted cause c' d' =>
    exact .aborted 1 ((steps_one e r c).trans hs) ((steps_one e r d).trans hs')
  | apart hP h => exact .apart 1 hP (by rwa [steps_one, hs])

end Engine.Together

end PlainLedger
