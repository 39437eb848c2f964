import PlainLedger.Proofs.Machine.Outline
import PlainLedger.Proofs.Machine.Tokens

/-!
# Lines that are counted from elsewhere

A text may begin on any line of its file, and reports count their lines from there. Nothing else
depends on it. Of two machines that are given the same tokens, one of which counts from `k` lines
further down, each does what the other does, as long as their reducers give the same verdicts; what
the one reports, the other reports `k` lines further down, or on the nearest line that there is.
-/

namespace PlainLedger

variable {α P V W σ τ : Type}

/-! ## Places -/

namespace Line

/-- The line that is `k` lines further down, or the nearest one. -/
def offset (k : Int) (l : Line) : Line := clamp (l.val + k)

end Line

namespace Span

/-- The lines of the span have numbers that reports can give. -/
structure LinesFit (s : Span) : Prop where
  first : s.firstLine < 0x100000000
  last : s.lastLine < 0x100000000

theorem linesFit_start : start.LinesFit := ⟨by decide, by decide⟩

theorem LinesFit.cover {s t : Span} (hs : s.LinesFit) (ht : t.LinesFit) : (cover s t).LinesFit :=
  ⟨hs.first, ht.last⟩

theorem LinesFit.endPoint {s : Span} (h : s.LinesFit) : s.endPoint.LinesFit := ⟨h.last, h.last⟩

end Span

theorem Context.lineOf_offset (file : String) (k : LineOffset) {span : Span} (h : span.LinesFit) :
    (⟨file, k⟩ : Context).lineOf span = ((⟨file, 0⟩ : Context).lineOf span).offset k := by
  unfold lineOf reported Line.offset
  rw [LineOffset.val_zero, Int.add_zero, Line.clamp_of_mem h.first]

theorem Config.linesFit_reductionSpan {spans : List Span} {below : List (Slot V)}
    (hspans : ∀ s ∈ spans, s.LinesFit) (hbelow : ∀ x ∈ below, x.span.LinesFit) :
    (reductionSpan spans below).LinesFit := by
  unfold reductionSpan
  split
  · rename_i first last hfirst hlast
    exact (hspans first (List.mem_of_mem_head? hfirst)).cover
      (hspans last (List.mem_of_mem_getLast? hlast))
  · cases below with
    | nil => exact Span.linesFit_start.endPoint
    | cons x below => exact (hbelow x (List.mem_cons_self ..)).endPoint

/-- Recovery takes slots off the top of the stack and leaves the others. -/
theorem Config.unwind_append_unwind (e : Engine α) (slots : List (Slot V)) :
    (unwind e slots).1 ++ (unwind e slots).2 = slots := by
  by_cases hnil : slots = []
  · rw [hnil]
    rfl
  · obtain ⟨popped, x, rest, hunwind, heq, -⟩ := unwind_spec (e := e) hnil
    rw [hunwind, heq]

theorem Config.linesFit_skippedSpan (e : Engine α) {start : Span} {c : Config V σ}
    (hslots : ∀ x ∈ c.stack.slots, x.span.LinesFit) (hstart : start.LinesFit)
    (hcurrent : c.currentSpan.LinesFit) : (c.skippedSpan e start).LinesFit := by
  refine Span.LinesFit.cover ?_ hcurrent
  cases hlast : (unwind e c.stack.slots).1.getLast? with
  | none => exact hstart
  | some x =>
    apply hslots
    rw [← unwind_append_unwind e c.stack.slots]
    exact List.mem_append_left _ (List.mem_of_mem_getLast? hlast)

/-! ## Reports -/

/-- Why a text is given up that begins `k` lines further down. -/
def Abort.offset (k : Int) : Abort → Abort
  | unrecoverable file line => .unrecoverable file (line.offset k)
  | cause => cause

/-- The diagnostics are the same but for the line, which is `k` lines further down in the second.
The words for refusals are those of reducers, and are related by `said`; where a text is given up,
the words can name the line as well. -/
inductive Diagnostic.Offset (k : Int) (said : String → String → Prop) :
    Diagnostic → Diagnostic → Prop where
  | plain (file : String) (line : Line) (kind : Diagnostic.Kind) (message : String)
      (h : kind ≠ .semantic ∧ kind ≠ .fatal) :
      Offset k said ⟨file, line, kind, message⟩ ⟨file, line.offset k, kind, message⟩
  | semantic (file : String) (line : Line) {message message' : String} (h : said message message') :
      Offset k said ⟨file, line, .semantic, message⟩ ⟨file, line.offset k, .semantic, message'⟩
  | fatal (file : String) (line : Line) (cause : Abort) :
      Offset k said ⟨file, line, .fatal, cause.message⟩
        ⟨file, line.offset k, .fatal, (cause.offset k).message⟩

/-- Both accept, both refuse, or both give up. -/
inductive Verdict.Offset (k : Int) (said : String → String → Prop) :
    Verdict V → Verdict W → Prop where
  | value (v : V) (w : W) : Offset k said (.value v) (.value w)
  | rejected {message message' : String} (h : said message message') :
      Offset k said (.rejected message) (.rejected message')
  | fatal (cause : Abort) : Offset k said (.fatal cause) (.fatal (cause.offset k))

/-- The same is done, up to values and to the lines of reports. -/
inductive Event.Offset (k : Int) (said : String → String → Prop) : Event V → Event W → Prop where
  | pull (token? : Option Token) : Offset k said (.pull token?) (.pull token?)
  | report {d d' : Diagnostic} (h : d.Offset k said d') : Offset k said (.report d) (.report d')
  | shift (t : Token) (v : V) (w : W) : Offset k said (.shift t v) (.shift t w)
  | reduce {red : Reduction V} {red' : Reduction W} {verdict : Verdict V} {verdict' : Verdict W}
      (h : red.outline = red'.outline) (hverdict : verdict.Offset k said verdict') :
      Offset k said (.reduce red verdict) (.reduce red' verdict')
  | discard (t : Token) : Offset k said (.discard t) (.discard t)
  | pop {x : Slot V} {y : Slot W} (hstate : x.state = y.state) (hspan : x.span = y.span) :
      Offset k said (.pop x) (.pop y)
  | resume (n : Nat) (span : Span) : Offset k said (.resume n span) (.resume n span)

@[simp] theorem Stack.slots_map (f : P → V) (s : Stack P) :
    (s.map f).slots = s.slots.map (Slot.map f) := rfl

theorem Reduction.outline_map (f : P → V) (red : Reduction P) :
    (red.map f).outline = red.outline := by
  have hslot : Slot.map (fun _ : V ↦ ()) ∘ Slot.map f = Slot.map fun _ ↦ () := rfl
  unfold outline map
  simp only [List.map_map, hslot]

/-- A completed rule takes its values off the stack. -/
theorem Reduction.perm_ofSlots (k n : Nat) (slots : List (Slot V)) :
    (slots.map Slot.value).Perm
      ((ofSlots k n slots).values ++ (ofSlots k n slots).below.map Slot.value) := by
  have htaken := (slots.take n).reverse_perm.symm.append_right (slots.drop n)
  rw [List.take_append_drop] at htaken
  have hvalues := htaken.map Slot.value
  rw [List.map_append] at hvalues
  exact hvalues

/-! ## Reducers in step -/

/-- What comes of a completed rule for two reducers that remember `m` and `m'` afterwards: values
that form a pair, or a refusal by both. The pairs in `below` are left on the stacks. -/
inductive Verdict.Paired (f : P → V) (g : P → W) (k : Int) (said : String → String → Prop)
    (K : List P → σ → τ → Prop) (below : List P) : Verdict V × σ → Verdict W × τ → Prop where
  | value {m : σ} {m' : τ} (z : P) (h : K (z :: below) m m') :
      Paired f g k said K below (.value (f z), m) (.value (g z), m')
  | rejected {m : σ} {m' : τ} {message message' : String} (hsaid : said message message')
      (h : K below m m') : Paired f g k said K below (.rejected message, m) (.rejected message', m')
  | fatal {m : σ} {m' : τ} (cause : Abort) (h : K below m m') :
      Paired f g k said K below (.fatal cause, m) (.fatal (cause.offset k), m')

/-- Two reducers give the same verdicts on pairs of values, of which `f` and `g` are the parts. What
holds of what they remember and of the pairs that are in use is `K`. -/
structure Reducer.Paired (r : Reducer α V σ) (q : Reducer α W τ) (f : P → V) (g : P → W) (k : Int)
    (said : String → String → Prop) (K : List P → σ → τ → Prop) : Prop where
  perm {zs zs' : List P} {m : σ} {m' : τ} (hperm : zs.Perm zs') (h : K zs m m') : K zs' m m'
  blank : ∃ z, f z = r.blank ∧ g z = q.blank ∧
    ∀ (zs : List P) (m : σ) (m' : τ), K zs m m' → K (z :: zs) m m'
  ofToken (t : Token) {zs : List P} {m : σ} {m' : τ} (h : K zs m m') :
    ∃ z, f z = (r.ofToken t m).1 ∧ g z = (q.ofToken t m').1 ∧
      K (z :: zs) (r.ofToken t m).2 (q.ofToken t m').2
  report {zs : List P} {m : σ} {m' : τ} {d d' : Diagnostic} (hd : d.Offset k said d')
    (h : K zs m m') : K zs (r.report d m) (q.report d' m')
  release {z : P} {zs : List P} {m : σ} {m' : τ} (h : K (z :: zs) m m') :
    K zs (r.release (f z) m) (q.release (g z) m')
  reduce (a : α) (red : Reduction P) {m : σ} {m' : τ} (hspan : red.span.LinesFit)
    (h : K (red.values ++ red.below.map Slot.value) m m') :
    Verdict.Paired f g k said K (red.below.map Slot.value) (r.reduce a (red.map f) m)
      (q.reduce a (red.map g) m')

/-! ## Machines in step -/

/-- The machine that counts lines from `k` lines further down. -/
def Engine.withOffset (e : Engine α) (k : LineOffset) : Engine α :=
  { e with context := { e.context with lineOffset := k } }

@[simp] theorem unwind_withOffset (e : Engine α) (k : LineOffset) (slots : List (Slot V)) :
    Config.unwind (e.withOffset k) slots = Config.unwind e slots := by
  induction slots with
  | nil => rfl
  | cons x rest ih =>
    cases rest with
    | nil => rfl
    | cons y rest =>
      unfold Config.unwind
      rw [ih]
      rfl

theorem lineOf_withOffset (e : Engine α) (k : LineOffset) {span : Span} (h : span.LinesFit) :
    (e.withOffset k).context.lineOf span = ((e.withOffset 0).context.lineOf span).offset k :=
  Context.lineOf_offset e.context.file k h

/-- The two have done the same and hold the same, up to values and to the lines of reports. On the
stacks are the parts of the pairs on `s`, and the pairs in `held` have been taken off. -/
structure Config.Paired (f : P → V) (g : P → W) (k : Int) (said : String → String → Prop)
    (K : List P → σ → τ → Prop) (held : List P) (s : Stack P) (c : Config V σ) (d : Config W τ) :
    Prop where
  left : c.stack = s.map f
  right : d.stack = s.map g
  ahead : d.ahead? = c.ahead?
  input : d.input = c.input
  exhausted : d.exhausted = c.exhausted
  lastSpan : d.lastSpan = c.lastSpan
  quiet : d.quiet = c.quiet
  memory : K (held ++ s.slots.map Slot.value) c.memory d.memory
  log : List.Forall₂ (Event.Offset k said) c.log.toList d.log.toList
  slots_fit : ∀ x ∈ s.slots, x.span.LinesFit
  ahead_fits : ∀ t ∈ c.ahead?, t.span.LinesFit
  input_fits : ∀ t ∈ c.input, t.span.LinesFit
  last_fits : c.lastSpan.LinesFit

/-- The steps lead on to machines that are in step, or end alike. -/
def Step.Paired (f : P → V) (g : P → W) (k : Int) (said : String → String → Prop)
    (K : List P → σ → τ → Prop) : Step V σ → Step W τ → Prop
  | .running c, .running d => ∃ s, c.Paired f g k said K [] s d
  | .accepted v c, .accepted w d => ∃ z s, v = f z ∧ w = g z ∧ c.Paired f g k said K [z] s d
  | .aborted cause c, .aborted cause' d =>
    cause' = cause.offset k ∧ ∃ s, c.Paired f g k said K [] s d
  | _, _ => False

section

variable {e : Engine α} {r : Reducer α V σ} {q : Reducer α W τ} {f : P → V} {g : P → W}
  {k : LineOffset}
  {said : String → String → Prop} {K : List P → σ → τ → Prop} {held : List P} {s : Stack P}
  {c : Config V σ} {d : Config W τ}

namespace Config.Paired

theorem record (h : c.Paired f g k said K held s d) {ev : Event V} {ev' : Event W}
    (hev : ev.Offset k said ev') : (c.record ev).Paired f g k said K held s (d.record ev') := by
  refine { h with log := ?_ }
  simp only [Config.record, Array.toList_push]
  exact List.rel_append h.log (.cons hev .nil)

theorem report (hr : r.Paired q f g k said K) (h : c.Paired f g k said K held s d)
    {x x' : Diagnostic} (hx : x.Offset k said x') :
    (c.report r x).Paired f g k said K held s (d.report q x') := by
  refine { h with memory := hr.report hx h.memory, log := ?_ }
  simp only [Config.report, Array.toList_push]
  exact List.rel_append h.log (.cons (.report hx) .nil)

theorem release (hr : r.Paired q f g k said K) {z : P} (h : c.Paired f g k said K (z :: held) s d) :
    (c.release r (f z)).Paired f g k said K held s (d.release q (g z)) :=
  { h with memory := hr.release h.memory }

theorem linesFit_currentSpan (h : c.Paired f g k said K held s d) : c.currentSpan.LinesFit := by
  unfold Config.currentSpan
  cases hahead : c.ahead? with
  | none => exact h.last_fits
  | some t => exact h.ahead_fits t hahead

theorem currentSpan_eq (h : c.Paired f g k said K held s d) : d.currentSpan = c.currentSpan := by
  unfold Config.currentSpan
  rw [h.ahead, h.lastSpan]

theorem currentLine_eq (h : c.Paired f g k said K held s d) :
    d.currentLine (e.withOffset k) = (c.currentLine (e.withOffset 0)).offset k := by
  unfold Config.currentLine
  rw [h.currentSpan_eq, lineOf_withOffset e k h.linesFit_currentSpan]

theorem left_fits (h : c.Paired f g k said K held s d) : ∀ x ∈ c.stack.slots, x.span.LinesFit := by
  rw [h.left, Stack.slots_map]
  exact List.forall_mem_map.mpr h.slots_fit

/-! ## Reading -/

theorem read (hr : r.Paired q f g k said K) (h : c.Paired f g k said K held s d) :
    (d.read (e.withOffset k) q).1 = (c.read (e.withOffset 0) r).1 ∧
      (c.read (e.withOffset 0) r).1.span.LinesFit ∧
      (c.read (e.withOffset 0) r).2.Paired f g k said K held s (d.read (e.withOffset k) q).2 := by
  cases hended : c.exhausted with
  | true =>
    rw [Config.read_of_exhausted _ _ hended,
      Config.read_of_exhausted _ _ (h.exhausted.trans hended), h.lastSpan]
    exact ⟨rfl, h.last_fits.endPoint, h⟩
  | false =>
    have hended' := h.exhausted.trans hended
    cases hinput : c.input with
    | nil =>
      rw [Config.read_of_nil _ _ hended hinput,
        Config.read_of_nil _ _ hended' (h.input.trans hinput)]
      refine ⟨?_, h.last_fits.endPoint, { h.record (.pull none) with exhausted := rfl }⟩
      rw [h.lastSpan]
    | cons t rest =>
      have hfits := h.input_fits
      rw [hinput] at hfits
      have ht := hfits t (List.mem_cons_self ..)
      have hrest : ∀ u ∈ rest, u.span.LinesFit := fun u hu ↦ hfits u (List.mem_cons_of_mem _ hu)
      have hpull : ({ c with input := rest }.record (.pull (some t))).Paired f g k said K held s
          ({ d with input := rest }.record (.pull (some t))) := by
        apply Config.Paired.record
        · exact { h with input := rfl, input_fits := hrest }
        · exact .pull (some t)
      rw [Config.read_of_cons _ hended hinput, Config.read_of_cons _ hended' (h.input.trans hinput)]
      refine ⟨rfl, ht, ?_⟩
      dsimp only
      split
      · have hreport : Diagnostic.Offset k said
            (Config.diagnostic (e.withOffset 0) .lexical ((e.withOffset 0).context.lineOf t.span)
              (Config.lexicalMessage t))
            (Config.diagnostic (e.withOffset k) .lexical ((e.withOffset k).context.lineOf t.span)
              (Config.lexicalMessage t)) := by
          rw [lineOf_withOffset e k ht]
          exact .plain _ _ _ _ ⟨by decide, by decide⟩
        exact { hpull.report hr hreport with lastSpan := rfl, last_fits := ht }
      · exact { hpull with lastSpan := rfl, last_fits := ht }

theorem peek (hr : r.Paired q f g k said K) (h : c.Paired f g k said K held s d) :
    (d.peek (e.withOffset k) q).1 = (c.peek (e.withOffset 0) r).1 ∧
      (c.peek (e.withOffset 0) r).1.span.LinesFit ∧
      (c.peek (e.withOffset 0) r).2.Paired f g k said K held s (d.peek (e.withOffset k) q).2 := by
  cases hahead : c.ahead? with
  | some t =>
    rw [Config.peek_of_ahead _ _ hahead, Config.peek_of_ahead _ _ (h.ahead.trans hahead)]
    exact ⟨rfl, h.ahead_fits t hahead, h⟩
  | none =>
    obtain ⟨htoken, hfits, hread⟩ := h.read (e := e) hr
    rw [Config.peek_of_none _ _ hahead, Config.peek_of_none _ _ (h.ahead.trans hahead)]
    refine ⟨htoken, hfits, { hread with ahead := congrArg some htoken, ahead_fits := ?_ }⟩
    rintro t ⟨⟩
    exact hfits

theorem consult (hr : r.Paired q f g k said K) (h : c.Paired f g k said K held s d) (row : Row) :
    (c.consult (e.withOffset 0) r row).Paired f g k said K held s
      (d.consult (e.withOffset k) q row) := by
  unfold Config.consult
  split
  · exact (h.peek hr).2.2
  · exact h

theorem complain (hr : r.Paired q f g k said K) (h : c.Paired f g k said K held s d) (n : Nat)
    {t : Token} (ht : t.span.LinesFit) :
    (c.complain (e.withOffset 0) r n t).Paired f g k said K held s
      (d.complain (e.withOffset k) q n t) := by
  unfold Config.complain
  rw [h.quiet]
  split
  · apply h.report hr
    rw [lineOf_withOffset e k ht]
    exact .plain _ _ _ _ ⟨by decide, by decide⟩
  · exact h

/-! ## Steps -/

theorem push (hr : r.Paired q f g k said K) {z : P} (h : c.Paired f g k said K [z] s d) (n : Nat)
    {span : Span} (hspan : span.LinesFit) :
    Step.Paired f g k said K (c.push r n (f z) span) (d.push q n (g z) span) := by
  have hleft := Stack.push_map f s ⟨n, z, span⟩
  have hright := Stack.push_map g s ⟨n, z, span⟩
  rw [Slot.map] at hleft hright
  unfold Config.push
  rw [h.left, h.right, hleft, hright]
  cases hpush : s.push ⟨n, z, span⟩ with
  | error overflow => exact ⟨rfl, s, { h.release hr with left := h.left, right := h.right }⟩
  | ok s' =>
    have hslots := Stack.slots_push hpush
    refine ⟨s', { h with left := rfl, right := rfl, memory := ?_, slots_fit := ?_ }⟩
    · rw [hslots]
      exact h.memory
    · rw [hslots]
      exact List.forall_mem_cons.mpr ⟨hspan, h.slots_fit⟩

theorem shift (hr : r.Paired q f g k said K) (h : c.Paired f g k said K [] s d) (n : Nat) :
    Step.Paired f g k said K (c.shift r n) (d.shift q n) := by
  have hfits := h.ahead_fits
  unfold Config.shift
  rw [h.ahead, h.quiet]
  cases hahead : c.ahead? with
  | none => exact ⟨rfl, s, h⟩
  | some t =>
    obtain ⟨z, hz, hz', hK⟩ := hr.ofToken t h.memory
    dsimp only
    rw [← hz, ← hz']
    refine Config.Paired.push hr (s := s) ?_ n (hfits t hahead)
    apply Config.Paired.record
    · exact { h with
        ahead := rfl
        quiet := rfl
        memory := hK
        ahead_fits := fun t ht ↦ by cases ht }
    · exact .shift t _ _

theorem popped (hr : r.Paired q f g k said K) (xs : List (Slot P)) {c : Config V σ} {d : Config W τ}
    (h : c.Paired f g k said K (xs.map Slot.value) s d) :
    ((xs.map (Slot.map f)).foldl (fun c x ↦ (c.release r x.value).record (.pop x)) c).Paired
      f g k said K [] s
      ((xs.map (Slot.map g)).foldl (fun d x ↦ (d.release q x.value).record (.pop x)) d) := by
  induction xs generalizing c d with
  | nil => exact h
  | cons x xs ih => exact ih ((Config.Paired.release hr h).record (.pop rfl rfl))

theorem unwound (hr : r.Paired q f g k said K) (h : c.Paired f g k said K [] s d) :
    (c.unwound (e.withOffset 0) r).Paired f g k said K []
      { s with slots := (Config.unwind e s.slots).2 } (d.unwound (e.withOffset k) q) := by
  have hslots := Config.unwind_append_unwind e s.slots
  have hmemory := h.memory
  have hfits := h.slots_fit
  rw [← hslots] at hmemory hfits
  unfold Config.unwound
  rw [unwind_withOffset, unwind_withOffset, h.left, h.right,
    Stack.slots_map, Stack.slots_map, Config.unwind_map, Config.unwind_map]
  apply Config.Paired.popped hr
  refine { h with left := rfl, right := rfl, quiet := rfl, memory := ?_, slots_fit := ?_ }
  · rwa [List.map_append] at hmemory
  · exact fun x hx ↦ hfits x (List.mem_append_right _ hx)

theorem recover (hr : r.Paired q f g k said K) (h : c.Paired f g k said K [] s d) {start : Span}
    (hstart : start.LinesFit) :
    Step.Paired f g k said K (c.recover (e.withOffset 0) r start)
      (d.recover (e.withOffset k) q start) := by
  have hunwound := h.unwound (e := e) hr
  have hspan : d.skippedSpan (e.withOffset k) start = c.skippedSpan (e.withOffset 0) start := by
    unfold Config.skippedSpan
    rw [unwind_withOffset, unwind_withOffset, h.left, h.right, h.currentSpan_eq, Stack.slots_map,
      Stack.slots_map, Config.unwind_map, Config.unwind_map, List.getLast?_map, List.getLast?_map,
      Option.map_map, Option.map_map]
    rfl
  have hfits : (c.skippedSpan (e.withOffset 0) start).LinesFit :=
    Config.linesFit_skippedSpan _ h.left_fits hstart h.linesFit_currentSpan
  rw [Config.recover_eq, Config.recover_eq, unwind_withOffset, unwind_withOffset, h.left, h.right,
    Stack.slots_map, Stack.slots_map, Config.unwind_map, Config.unwind_map, hspan]
  cases (Config.unwind e s.slots).2 with
  | nil => exact ⟨rfl, _, hunwound⟩
  | cons x rest =>
    have hshift : ∀ k, (e.withOffset k).errorShift? x.state = e.errorShift? x.state := fun _ ↦ rfl
    rw [List.map_cons, List.map_cons]
    dsimp only [Slot.map]
    rw [hshift, hshift]
    cases e.errorShift? x.state with
    | none =>
      refine ⟨?_, _, hunwound⟩
      rw [hunwound.currentLine_eq]
      rfl
    | some n =>
      obtain ⟨z, hz, hz', hK⟩ := hr.blank
      dsimp only
      rw [← hz, ← hz']
      refine Config.Paired.push hr (s := { s with slots := (Config.unwind e s.slots).2 }) ?_ n hfits
      apply Config.Paired.record
      · exact { hunwound with memory := hK _ _ _ hunwound.memory }
      · exact .resume n _

theorem goto (hr : r.Paired q f g k said K) {z : P} (h : c.Paired f g k said K [z] s d)
    (lhs rule : Nat) {span : Span} (hspan : span.LinesFit) :
    Step.Paired f g k said K (c.goto (e.withOffset 0) r lhs rule (f z) span)
      (d.goto (e.withOffset k) q lhs rule (g z) span) := by
  have hrow : ∀ k n, (e.withOffset k).row? n = e.row? n := fun _ _ ↦ rfl
  unfold Config.goto
  rw [h.left, h.right, Stack.top?_map, Stack.top?_map]
  cases s.top? with
  | none => exact ⟨rfl, s, h.release hr⟩
  | some x =>
    dsimp only [Option.map_some]
    rw [hrow, hrow]
    dsimp only [Slot.map]
    cases (e.row? x.state).bind fun row ↦ row.goto? lhs with
    | none => exact ⟨rfl, s, h.release hr⟩
    | some n => exact h.push hr n hspan

/-- A rule is completed on both stacks. -/
theorem reduced (h : c.Paired f g k said K [] s d) (n : Nat) (p : Rule α) (held : List P)
    {verdict : Verdict V} {verdict' : Verdict W} {m : σ} {m' : τ}
    (hverdict : verdict.Offset k said verdict')
    (hK : K (held ++ (s.slots.drop p.rhs.length).map Slot.value) m m') :
    (c.reduced n p (verdict, m)).Paired f g k said K held
      { s with slots := s.slots.drop p.rhs.length } (d.reduced n p (verdict', m')) := by
  refine { h with left := ?_, right := ?_, memory := hK, log := ?_, slots_fit := ?_ }
  · simp only [Config.reduced, h.left, Stack.slots_map, ← List.map_drop]
    rfl
  · simp only [Config.reduced, h.right, Stack.slots_map, ← List.map_drop]
    rfl
  · simp only [Config.reduced, Array.toList_push]
    refine List.rel_append h.log (.cons (.reduce ?_ hverdict) .nil)
    rw [h.left, h.right, Stack.slots_map, Stack.slots_map, Reduction.ofSlots_map,
      Reduction.ofSlots_map, Reduction.outline_map, Reduction.outline_map]
  · exact fun x hx ↦ h.slots_fit x (List.mem_of_mem_drop hx)

theorem linesFit_ofSlots (h : c.Paired f g k said K [] s d) (n m : Nat) :
    (Reduction.ofSlots n m s.slots).span.LinesFit := by
  refine Config.linesFit_reductionSpan ?_ fun x hx ↦ h.slots_fit x (List.mem_of_mem_drop hx)
  refine List.forall_mem_map.mpr fun x hx ↦ ?_
  exact h.slots_fit x (List.mem_of_mem_take (List.mem_reverse.mp hx))

theorem reduce (hr : r.Paired q f g k said K) (h : c.Paired f g k said K [] s d) (n : Nat) :
    Step.Paired f g k said K (c.reduce (e.withOffset 0) r n)
      (d.reduce (e.withOffset k) q n) := by
  cases hrule : e.grammar.rules[n]? with
  | none =>
    unfold Config.reduce Engine.withOffset
    dsimp only
    rw [hrule]
    exact ⟨rfl, s, h⟩
  | some p =>
    have hspan := h.linesFit_ofSlots n p.rhs.length
    have hreduce := hr.reduce p.action _ hspan
      (hr.perm (Reduction.perm_ofSlots n p.rhs.length s.slots) h.memory)
    rw [← Reduction.ofSlots_map, ← Reduction.ofSlots_map, ← Stack.slots_map, ← Stack.slots_map,
      ← h.left, ← h.right] at hreduce
    have hspan_left : (Reduction.ofSlots n p.rhs.length c.stack.slots).span =
        (Reduction.ofSlots n p.rhs.length s.slots).span := by
      rw [h.left, Stack.slots_map, Reduction.ofSlots_map]
      rfl
    have hspan_right : (Reduction.ofSlots n p.rhs.length d.stack.slots).span =
        (Reduction.ofSlots n p.rhs.length s.slots).span := by
      rw [h.right, Stack.slots_map, Reduction.ofSlots_map]
      rfl
    obtain ⟨out, hout⟩ : ∃ out, r.reduce p.action
        (.ofSlots n p.rhs.length c.stack.slots) c.memory = out := ⟨_, rfl⟩
    obtain ⟨out', hout'⟩ : ∃ out, q.reduce p.action
        (.ofSlots n p.rhs.length d.stack.slots) d.memory = out := ⟨_, rfl⟩
    rw [hout, hout'] at hreduce
    rw [Config.reduce_eq (e := e.withOffset 0) hrule hout,
      Config.reduce_eq (e := e.withOffset k) hrule hout', hspan_left, hspan_right]
    cases hreduce with
    | value z hz => exact (h.reduced n p [z] (.value _ _) hz).goto hr _ _ hspan
    | rejected hsaid hbelow =>
      have hrejected := h.reduced n p [] (.rejected hsaid) hbelow
      refine Config.Paired.recover hr (hrejected.report hr ?_) hspan
      rw [lineOf_withOffset e k hspan]
      exact .semantic _ _ hsaid
    | fatal cause hbelow => exact ⟨rfl, _, h.reduced n p [] (.fatal cause) hbelow⟩

theorem accept (h : c.Paired f g k said K [] s d) :
    Step.Paired f g k said K c.accept d.accept := by
  have hmemory := h.memory
  have hfits := h.slots_fit
  unfold Config.accept Stack.pop?
  rw [h.left, h.right, Stack.slots_map, Stack.slots_map]
  cases hslots : s.slots with
  | nil => exact ⟨rfl, s, h⟩
  | cons x rest =>
    rw [hslots] at hmemory hfits
    refine ⟨x.value, { s with slots := rest }, rfl, rfl, ?_⟩
    exact { h with
      left := rfl
      right := rfl
      memory := hmemory
      slots_fit := fun y hy ↦ hfits y (List.mem_cons_of_mem _ hy) }

theorem fail (hr : r.Paired q f g k said K) (h : c.Paired f g k said K [] s d) (n : Nat) :
    Step.Paired f g k said K (c.fail (e.withOffset 0) r n)
      (d.fail (e.withOffset k) q n) := by
  obtain ⟨htoken, hfits, hpeek⟩ := h.peek (e := e) hr
  have hcomplain := hpeek.complain (e := e) hr n hfits
  have hexpected : ∀ k, (e.withOffset k).options = e.options := fun _ ↦ rfl
  unfold Config.fail
  dsimp only
  rw [htoken, hexpected, hexpected, hcomplain.quiet]
  split
  · split
    · refine ⟨?_, s, hcomplain⟩
      rw [hcomplain.currentLine_eq]
      rfl
    · refine Config.Paired.recover hr (s := s) ?_ hfits
      apply Config.Paired.record
      · exact { hcomplain with
          ahead := rfl
          quiet := rfl
          ahead_fits := fun t ht ↦ by cases ht }
      · exact .discard _
  · exact hcomplain.recover hr hfits

theorem carryOut (hr : r.Paired q f g k said K) (h : c.Paired f g k said K [] s d) (n : Nat)
    (a? : Option Action) :
    Step.Paired f g k said K (c.carryOut (e.withOffset 0) r n a?)
      (d.carryOut (e.withOffset k) q n a?) := by
  unfold Config.carryOut
  split
  · exact h.shift hr _
  · exact h.reduce hr _
  · exact h.accept
  · exact h.fail hr n

/-- Machines that are in step take the same step. -/
theorem step (hr : r.Paired q f g k said K) (h : c.Paired f g k said K [] s d) :
    Step.Paired f g k said K (c.step (e.withOffset 0) r) (d.step (e.withOffset k) q) := by
  cases hslots : s.slots with
  | nil =>
    have hc : c.stack.slots = [] := by rw [h.left, Stack.slots_map, hslots, List.map_nil]
    have hd : d.stack.slots = [] := by rw [h.right, Stack.slots_map, hslots, List.map_nil]
    rw [Config.step_of_nil hc, Config.step_of_nil hd]
    exact ⟨rfl, s, h⟩
  | cons x rest =>
    have hc : c.stack.slots = x.map f :: rest.map (Slot.map f) := by
      rw [h.left, Stack.slots_map, hslots, List.map_cons]
    have hd : d.stack.slots = x.map g :: rest.map (Slot.map g) := by
      rw [h.right, Stack.slots_map, hslots, List.map_cons]
    rw [Config.step_of_cons hc, Config.step_of_cons hd, (h.peek hr).1]
    exact (h.consult hr _).carryOut hr _ _

theorem clear (hr : r.Paired q f g k said K) (h : c.Paired f g k said K held s d) :
    (Engine.clear r c).Paired f g k said K held { s with slots := [] } (Engine.clear q d) := by
  have hslots : ∀ (xs : List (Slot P)) {c : Config V σ} {d : Config W τ} {s : Stack P},
      c.Paired f g k said K (xs.map Slot.value ++ held) s d →
        ((xs.map (Slot.map f)).foldl (fun c x ↦ c.release r x.value) c).Paired f g k said K held s
          ((xs.map (Slot.map g)).foldl (fun d x ↦ d.release q x.value) d) := by
    intro xs
    induction xs with
    | nil => exact fun h ↦ h
    | cons x xs ih => exact fun h ↦ ih (Config.Paired.release hr h)
  unfold Engine.clear
  rw [h.left, h.right, Stack.slots_map, Stack.slots_map]
  apply hslots
  refine { h with left := rfl, right := rfl, memory := ?_, slots_fit := fun x hx ↦ by cases hx }
  rw [List.map_nil, List.append_nil]
  exact hr.perm List.perm_append_comm h.memory

end Config.Paired

/-! ## Runs -/

theorem paired_start (hr : r.Paired q f g k said K) {input : List Token}
    (hinput : ∀ t ∈ input, t.span.LinesFit) {m : σ} {m' : τ} (hm : K [] m m') :
    Step.Paired f g k said K ((e.withOffset 0).start r input m)
      ((e.withOffset k).start q input m') := by
  have hpaired : ∀ {held : List P} {s : Stack P}, s.slots = [] → K held m m' →
      Config.Paired f g k said K held s
        ⟨s.map f, none, input, false, .start, 0, m, #[]⟩
        ⟨s.map g, none, input, false, .start, 0, m', #[]⟩ := by
    intro held s hs hK
    refine ⟨rfl, rfl, rfl, rfl, rfl, rfl, rfl, ?_, .nil, ?_, ?_, hinput, Span.linesFit_start⟩
    · rw [hs, List.map_nil, List.append_nil]
      exact hK
    · rw [hs]
      exact fun x hx ↦ by cases hx
    · exact fun t ht ↦ by cases ht
  have hcreate : ∀ {X : Type} (f : P → X), Stack.create (V := X) e.options.initialStackDepth
      e.options.maxStackDepth =
        (Stack.create e.options.initialStackDepth e.options.maxStackDepth).map (Stack.map f) :=
    fun f ↦ Stack.reserve_map f (Stack.none _) _
  unfold Engine.start Engine.withOffset
  dsimp only
  rw [hcreate f, hcreate g]
  cases hstack : Stack.create (V := P) e.options.initialStackDepth e.options.maxStackDepth with
  | error overflow => exact ⟨rfl, .none _, hpaired rfl hm⟩
  | ok s =>
    obtain ⟨z, hz, hz', hK⟩ := hr.blank
    dsimp only [Except.map]
    rw [← hz, ← hz']
    exact (hpaired (Stack.slots_create hstack) (hK _ _ _ hm)).push hr 0 Span.linesFit_start

theorem paired_steps (hr : r.Paired q f g k said K) (n : Nat) {st : Step V σ} {st' : Step W τ}
    (h : st.Paired f g k said K st') :
    ((e.withOffset 0).steps r n st).Paired f g k said K ((e.withOffset k).steps q n st') := by
  induction n generalizing st st' with
  | zero =>
    rw [Engine.steps_zero, Engine.steps_zero]
    exact h
  | succ n ih =>
    cases st with
    | running c =>
      cases st' with
      | running d =>
        obtain ⟨s, h⟩ := h
        rw [Engine.steps_succ_running, Engine.steps_succ_running]
        exact ih (h.step hr)
      | accepted w d => exact h.elim
      | aborted cause d => exact h.elim
    | accepted v c =>
      cases st' with
      | accepted w d =>
        rw [Engine.steps_accepted, Engine.steps_accepted]
        exact h
      | running d => exact h.elim
      | aborted cause d => exact h.elim
    | aborted cause c =>
      cases st' with
      | aborted cause' d =>
        rw [Engine.steps_aborted, Engine.steps_aborted]
        exact h
      | running d => exact h.elim
      | accepted w d => exact h.elim

end

/-- Two ways in which a run has come out that are the same up to values and to the lines of reports.
-/
def Outcome.Paired (f : P → V) (g : P → W) (k : Int) (K : List P → σ → τ → Prop) :
    Outcome V × Config V σ → Outcome W × Config W τ → Prop
  | (.accepted v, c), (.accepted w, d) => ∃ z, v = f z ∧ w = g z ∧ K [z] c.memory d.memory
  | (.aborted cause, c), (.aborted cause', d) => cause' = cause.offset k ∧ K [] c.memory d.memory
  | (.unfinished, c), (.unfinished, d) => ∃ zs, K zs c.memory d.memory
  | _, _ => False

/-- Where lines are counted from does not change what a machine does, if it does not change the
verdicts of the reducer. -/
theorem paired_run (e : Engine α) {r : Reducer α V σ} {q : Reducer α W τ} {f : P → V} {g : P → W}
    {k : LineOffset} {said : String → String → Prop} {K : List P → σ → τ → Prop}
    (hr : r.Paired q f g k said K) (budget : Nat) {input : List Token}
    (hinput : ∀ t ∈ input, t.span.LinesFit) {m : σ} {m' : τ} (hm : K [] m m') :
    Outcome.Paired f g k K ((e.withOffset 0).run r budget input m)
        ((e.withOffset k).run q budget input m') ∧
      List.Forall₂ (Event.Offset k said) ((e.withOffset 0).run r budget input m).2.log.toList
        ((e.withOffset k).run q budget input m').2.log.toList := by
  have hsteps := paired_steps (e := e) hr budget (paired_start (e := e) hr hinput hm)
  unfold Engine.run
  cases hs : (e.withOffset 0).steps r budget ((e.withOffset 0).start r input m) <;>
    cases hs' : (e.withOffset k).steps q budget ((e.withOffset k).start q input m') <;>
    rw [hs, hs'] at hsteps
  case running.running c d =>
    obtain ⟨s, h⟩ := hsteps
    exact ⟨⟨_, h.memory⟩, h.log⟩
  case accepted.accepted v c w d =>
    obtain ⟨z, s, rfl, rfl, h⟩ := hsteps
    have hclear := h.clear hr
    exact ⟨⟨z, rfl, rfl, hclear.memory⟩, hclear.log⟩
  case aborted.aborted cause c cause' d =>
    obtain ⟨rfl, s, h⟩ := hsteps
    have hclear := h.clear hr
    have hreport : Diagnostic.Offset k said
        (Config.diagnostic (e.withOffset 0) .fatal ((Engine.clear r c).currentLine (e.withOffset 0))
          cause.message)
        (Config.diagnostic (e.withOffset k) .fatal ((Engine.clear q d).currentLine (e.withOffset k))
          (cause.offset k).message) := by
      rw [hclear.currentLine_eq]
      exact .fatal _ _ _
    have hreported := hclear.report hr hreport
    exact ⟨⟨rfl, hreported.memory⟩, hreported.log⟩
  all_goals exact hsteps.elim

end PlainLedger
