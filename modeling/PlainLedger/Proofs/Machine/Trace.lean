import PlainLedger.Proofs.Machine.Run

/-!
# Traces

What a machine has done so far tells what is on its stack and what its reducer remembers: each event
of the record is a small step that takes slots off the stack, puts a slot on it, or leaves it alone.
What every event keeps is thus kept by every run, also by one that is given up in the middle of a
step.
-/

namespace PlainLedger

variable {α V σ : Type}

/-- A slot is taken off the stack. -/
def Event.isPop : Event V → Bool
  | .pop _ => true
  | _ => false

/-- An error that does not end the run. -/
def Diagnostic.IsFault (d : Diagnostic) : Prop := d.kind ≠ .deprecated ∧ d.kind ≠ .fatal

section Events

variable (e : Engine α) (r : Reducer α V σ)

/-- What an event does to the slots and to what is remembered. -/
inductive Does : List (Slot V) → σ → Event V → List (Slot V) → σ → Prop where
  | pull {slots : List (Slot V)} {m : σ} (token? : Option Token) :
      Does slots m (.pull token?) slots m
  | report {slots : List (Slot V)} {m : σ} (d : Diagnostic) (hd : d.IsFault) :
      Does slots m (.report d) slots (r.report d m)
  | discard {slots : List (Slot V)} {m : σ} (t : Token) : Does slots m (.discard t) slots m
  | shift {x : Slot V} {rest : List (Slot V)} {m : σ} {t : Token} {n : Nat} {v : V} {m' : σ}
      (hedge : e.grammar.Edge x.state (.terminal t.kind) n) (hvalue : r.ofToken t m = (v, m')) :
      Does (x :: rest) m (.shift t v) (⟨n, v, t.span⟩ :: x :: rest) m'
  | reduce {x y : Slot V} {rest below : List (Slot V)} {m m' : σ} {k n : Nat} {p : Rule α} {v : V}
      (hrule : e.grammar.rules[k]? = some p) (hhas : e.grammar.Has x.state ⟨k, p.rhs.length⟩)
      (hbelow : (x :: rest).drop p.rhs.length = y :: below)
      (hedge : e.grammar.Edge y.state (.nonterminal p.lhs) n)
      (hverdict : r.reduce p.action (.ofSlots k p.rhs.length (x :: rest)) m = (.value v, m')) :
      Does (x :: rest) m (.reduce (.ofSlots k p.rhs.length (x :: rest)) (.value v))
        (⟨n, v, (Reduction.ofSlots k p.rhs.length (x :: rest)).span⟩ :: y :: below) m'
  | reject {x y : Slot V} {rest below : List (Slot V)} {m m' : σ} {k : Nat} {p : Rule α}
      {message : String} (hrule : e.grammar.rules[k]? = some p)
      (hhas : e.grammar.Has x.state ⟨k, p.rhs.length⟩)
      (hbelow : (x :: rest).drop p.rhs.length = y :: below)
      (hverdict : r.reduce p.action (.ofSlots k p.rhs.length (x :: rest)) m =
        (.rejected message, m')) :
      Does (x :: rest) m (.reduce (.ofSlots k p.rhs.length (x :: rest)) (.rejected message))
        (y :: below) m'
  | pop {x y : Slot V} {rest : List (Slot V)} {m : σ} :
      Does (x :: y :: rest) m (.pop x) (y :: rest) (r.release x.value m)
  | resume {x : Slot V} {rest : List (Slot V)} {m : σ} {n : Nat} {span : Span}
      (hedge : e.grammar.Edge x.state (.terminal .error) n) :
      Does (x :: rest) m (.resume n span) (⟨n, r.blank, span⟩ :: x :: rest) m

/-- What the events have made of the bottom of the stack and of what was remembered at first. -/
inductive Trace (m₀ : σ) : List (Event V) → List (Slot V) → σ → Prop where
  | start : Trace m₀ [] [⟨0, r.blank, .start⟩] m₀
  | snoc {evs : List (Event V)} {slots slots' : List (Slot V)} {m m' : σ} {ev : Event V}
      (h : Trace m₀ evs slots m) (hev : Does e r slots m ev slots' m') :
      Trace m₀ (evs ++ [ev]) slots' m'

/-- What is there when a run is given up: either between two events, or at one that could not be
carried out in full. -/
inductive Stopped (m₀ : σ) : Abort → List (Event V) → List (Slot V) → σ → Prop where
  | start {m : σ} (d : Nat) (hm : m = m₀ ∨ m = r.release r.blank m₀) :
      Stopped m₀ (.stackOverflow d) [] [] m
  | unrecoverable {evs : List (Event V)} {slots : List (Slot V)} {m : σ} (file : String)
      (line : Line) (h : Trace e r m₀ evs slots m) :
      Stopped m₀ (.unrecoverable file line) evs slots m
  | fatal {evs : List (Event V)} {x : Slot V} {rest : List (Slot V)} {m m' : σ} {k : Nat}
      {p : Rule α} {cause : Abort} (h : Trace e r m₀ evs (x :: rest) m)
      (hrule : e.grammar.rules[k]? = some p) (hhas : e.grammar.Has x.state ⟨k, p.rhs.length⟩)
      (hverdict : r.reduce p.action (.ofSlots k p.rhs.length (x :: rest)) m =
        (.fatal cause, m')) :
      Stopped m₀ cause (evs ++ [.reduce (.ofSlots k p.rhs.length (x :: rest)) (.fatal cause)])
        ((x :: rest).drop p.rhs.length) m'
  | overflow {evs : List (Event V)} {slots slots' : List (Slot V)} {x : Slot V} {m m' : σ}
      {ev : Event V} (d : Nat) (h : Trace e r m₀ evs slots m)
      (hev : Does e r slots m ev (x :: slots') m') (hpush : ev.isPop = false) :
      Stopped m₀ (.stackOverflow d) (evs ++ [ev]) slots' (r.release x.value m')

end Events

/-- An event keeps the stack spelled, if the reducer gives tokens and completed rules the values
that their symbols may have. -/
theorem Does.spelled {e : Engine α} {r : Reducer α V σ} {T : Symbol → V → Prop}
    {slots slots' : List (Slot V)} {m m' : σ} {ev : Event V} {xs : List Symbol}
    (h : Does e r slots m ev slots' m') (hs : Spelled e.grammar T slots xs)
    (herror : T (.terminal .error) r.blank)
    (htoken : ∀ t v, ev = .shift t v → r.ofToken t m = (v, m') → T (.terminal t.kind) v)
    (hreduce : ∀ {x rest k} {p : Rule α} {v}, slots = x :: rest → e.grammar.rules[k]? = some p →
      e.grammar.Has x.state ⟨k, p.rhs.length⟩ →
      r.reduce p.action (.ofSlots k p.rhs.length (x :: rest)) m = (.value v, m') →
      T (.nonterminal p.lhs) v) :
    ∃ xs', Spelled e.grammar T slots' xs' := by
  cases h with
  | pull | report | discard => exact ⟨xs, hs⟩
  | shift hedge hvalue => exact ⟨_, hs.push hedge (htoken _ _ rfl hvalue)⟩
  | reduce hrule hhas hbelow hedge hverdict =>
    obtain ⟨-, -, -, y', below', hbelow', -, hs'⟩ := hs.reduce hrule hhas
    cases hbelow.symm.trans hbelow'
    exact ⟨_, hs'.push hedge (hreduce rfl hrule hhas hverdict)⟩
  | reject hrule hhas hbelow hverdict =>
    obtain ⟨-, -, -, y', below', hbelow', -, hs'⟩ := hs.reduce hrule hhas
    cases hbelow.symm.trans hbelow'
    exact ⟨_, hs'⟩
  | pop =>
    cases hs with
    | push hs' _ _ => exact ⟨_, hs'⟩
  | resume hedge => exact ⟨_, hs.push hedge herror⟩

namespace Trace

variable {e : Engine α} {r : Reducer α V σ} {m₀ m : σ} {evs : List (Event V)}
  {slots : List (Slot V)}

/-- What holds at first and is kept by every event, holds after every run. -/
theorem keeps {P : List (Event V) → List (Slot V) → σ → Prop} (h : Trace e r m₀ evs slots m)
    (hstart : P [] [⟨0, r.blank, .start⟩] m₀)
    (hev : ∀ {evs slots slots' m m' ev}, Trace e r m₀ evs slots m → P evs slots m →
      Does e r slots m ev slots' m' → P (evs ++ [ev]) slots' m') : P evs slots m := by
  induction h with
  | start => exact hstart
  | snoc h h' ih => exact hev h ih h'

/-- The stack of a machine spells symbols of its grammar at every moment. -/
theorem spelled (h : Trace e r m₀ evs slots m) :
    ∃ xs, Spelled e.grammar (fun _ _ ↦ True) slots xs := by
  induction h with
  | start => exact ⟨[], .bottom rfl⟩
  | snoc h hev ih =>
    obtain ⟨xs, hxs⟩ := ih
    exact hev.spelled hxs trivial (fun _ _ _ _ ↦ trivial) fun _ _ _ _ ↦ trivial

/-- The last event has made of the stack what it is. -/
theorem exists_does {ev : Event V} (h : Trace e r m₀ (evs ++ [ev]) slots m) :
    ∃ slots' m', Trace e r m₀ evs slots' m' ∧ Does e r slots' m' ev slots m := by
  generalize hlog : evs ++ [ev] = log at h
  cases h with
  | start => simp at hlog
  | snoc h hev =>
    obtain ⟨rfl, hlast⟩ := List.append_inj' hlog rfl
    cases hlast
    exact ⟨_, _, h, hev⟩

theorem ne_nil (h : Trace e r m₀ evs slots m) : slots ≠ [] := by
  obtain ⟨xs, hxs⟩ := h.spelled
  exact hxs.ne_nil

/-- The topmost state has a row. -/
theorem exists_row (hg : e.tables = e.grammar.tables) {x : Slot V} {rest : List (Slot V)}
    (h : Trace e r m₀ evs (x :: rest) m) : ∃ row, e.row? x.state = some row := by
  obtain ⟨xs, hxs⟩ := h.spelled
  obtain ⟨S, hS⟩ := hxs.path.exists_state
  obtain ⟨row, hrow⟩ := Grammar.exists_row hS
  rw [← hg] at hrow
  exact ⟨row, hrow⟩

end Trace

namespace Config

variable (e : Engine α) (r : Reducer α V σ) (m₀ : σ)

/-- The record tells how the stack and what is remembered have come about. -/
def Traced (c : Config V σ) : Prop := Trace e r m₀ c.log.toList c.stack.slots c.memory

/-- What is left once a text has been accepted. -/
def Accepted (v : V) (c : Config V σ) : Prop :=
  ∃ x y, Trace e r m₀ c.log.toList [x, y] c.memory ∧
    e.grammar.Has x.state ⟨e.grammar.acceptRule, 1⟩ ∧
    v = x.value ∧ c.stack.slots = [y]

/-- What is left once a text has been given up. -/
def Aborted (cause : Abort) (c : Config V σ) : Prop :=
  Stopped e r m₀ cause c.log.toList c.stack.slots c.memory

variable {e r m₀} {c : Config V σ}

/-- An event is carried out. -/
theorem Traced.record {c' : Config V σ} {ev : Event V} (h : c.Traced e r m₀)
    (hlog : c'.log = c.log.push ev)
    (hev : Does e r c.stack.slots c.memory ev c'.stack.slots c'.memory) : c'.Traced e r m₀ := by
  have hsnoc := Trace.snoc h hev
  rw [Traced, hlog, Array.toList_push]
  exact hsnoc

theorem Traced.report (h : c.Traced e r m₀) {d : Diagnostic} (hd : d.IsFault) :
    (c.report r d).Traced e r m₀ :=
  h.record rfl (.report d hd)

theorem Traced.read (h : c.Traced e r m₀) : (c.read e r).2.Traced e r m₀ := by
  unfold Config.read
  split
  · exact h
  · split
    · exact h.record rfl (.pull none)
    · rename_i t rest _
      have hpull : ({ c with input := rest }.record (.pull (some t))).Traced e r m₀ :=
        h.record rfl (.pull (some t))
      dsimp only
      split
      · exact hpull.report ⟨nofun, nofun⟩
      · exact hpull

theorem Traced.peek (h : c.Traced e r m₀) : (c.peek e r).2.Traced e r m₀ := by
  unfold Config.peek
  split
  · exact h
  · exact h.read

theorem Traced.consult (h : c.Traced e r m₀) (row : Row) : (c.consult e r row).Traced e r m₀ := by
  unfold Config.consult
  split
  · exact h.peek
  · exact h

theorem Traced.complain (h : c.Traced e r m₀) (n : Nat) (t : Token) :
    (c.complain e r n t).Traced e r m₀ := by
  unfold Config.complain
  split
  · exact h.report ⟨nofun, nofun⟩
  · exact h

/-- What may come of a step. -/
abbrev Continues (e : Engine α) (r : Reducer α V σ) (m₀ : σ) (s : Step V σ) : Prop :=
  s.Post (Traced e r m₀) (Accepted e r m₀) (Aborted e r m₀)

/-- The last event of a record puts a slot on the stack, or there is no room for it. -/
theorem continues_push {evs : List (Event V)} {ev : Event V} {slots : List (Slot V)} {m : σ}
    {n : Nat} {v : V} {span : Span} (h : Trace e r m₀ evs slots m)
    (hlog : c.log.toList = evs ++ [ev])
    (hev : Does e r slots m ev (⟨n, v, span⟩ :: c.stack.slots) c.memory)
    (hpush : ev.isPop = false) : Continues e r m₀ (c.push r n v span) := by
  refine push_cases (P := Continues e r m₀) ?_ ?_
  · intro stack hstack
    have hsnoc := Trace.snoc h hev
    rw [← hlog, ← hstack] at hsnoc
    exact hsnoc
  · intro d
    have hstopped := Stopped.overflow d h hev hpush
    rw [← hlog] at hstopped
    exact hstopped

theorem continues_shift {x : Slot V} {rest : List (Slot V)} {t : Token} {n : Nat}
    (h : c.Traced e r m₀) (hslots : c.stack.slots = x :: rest) (hahead : c.ahead? = some t)
    (hedge : e.grammar.Edge x.state (.terminal t.kind) n) :
    Continues e r m₀ (c.shift r n) := by
  unfold Config.shift
  rw [hahead]
  refine continues_push h Array.toList_push ?_ rfl
  change Does e r c.stack.slots c.memory _ (⟨n, _, t.span⟩ :: c.stack.slots) _
  rw [hslots]
  exact .shift hedge rfl

theorem traced_popped {popped rest : List (Slot V)} {x : Slot V} {evs : List (Event V)} {m : σ}
    (h : Trace e r m₀ evs (popped ++ x :: rest) m) (hlog : c.log.toList = evs)
    (hmemory : c.memory = m) (hslots : c.stack.slots = x :: rest) :
    (popped.foldl (fun c y ↦ (c.release r y.value).record (.pop y)) c).Traced e r m₀ := by
  induction popped generalizing c evs m with
  | nil =>
    subst hlog hmemory
    rw [List.nil_append, ← hslots] at h
    exact h
  | cons y popped ih =>
    have hpop : Does e r (y :: popped ++ x :: rest) m (.pop y) (popped ++ x :: rest)
        (r.release y.value m) := by
      cases popped <;> exact .pop
    refine ih (h.snoc hpop) ?_ ?_ hslots
    · exact Array.toList_push.trans (congrArg (· ++ _) hlog)
    · exact congrArg (r.release y.value) hmemory

theorem continues_recover (hg : e.tables = e.grammar.tables) (h : c.Traced e r m₀)
    (start : Span) : Continues e r m₀ (c.recover e r start) := by
  obtain ⟨popped, x, rest, hunwind, hslots, -, -⟩ := unwind_spec (e := e) h.ne_nil
  obtain ⟨m, log, hfold, -⟩ := exists_of_popped (r := r) popped
    { c with
      stack := { c.stack with slots := x :: rest }
      quiet := e.options.recoveryShifts }
  have hpopped := h
  rw [Traced, hslots] at hpopped
  have htraced := traced_popped (c :=
    { c with
      stack := { c.stack with slots := x :: rest }
      quiet := e.options.recoveryShifts }) hpopped rfl rfl rfl
  unfold Config.recover
  rw [hunwind]
  dsimp only
  rw [hfold] at htraced ⊢
  cases hshift : e.errorShift? x.state with
  | none => exact Stopped.unrecoverable _ _ htraced
  | some n =>
    exact continues_push htraced Array.toList_push (.resume (edge_of_errorShift? hg hshift)) rfl

theorem continues_reduce (hg : e.tables = e.grammar.tables) {x : Slot V} {rest : List (Slot V)}
    {k : Nat} {p : Rule α} (h : c.Traced e r m₀) (hslots : c.stack.slots = x :: rest)
    (hrule : e.grammar.rules[k]? = some p) (hhas : e.grammar.Has x.state ⟨k, p.rhs.length⟩) :
    Continues e r m₀ (c.reduce e r k) := by
  have htrace := h
  rw [Traced, hslots] at htrace
  obtain ⟨xs, hxs⟩ := htrace.spelled
  obtain ⟨-, -, -, y, below, hbelow, hpredicted, -⟩ := hxs.reduce hrule hhas
  obtain ⟨n, S, hS, htarget⟩ := Grammar.exists_goto hpredicted hrule
  obtain ⟨row, hrow⟩ := Grammar.exists_row hS
  have hgoto := (Grammar.goto?_eq_some_iff hrow).mpr ⟨S, hS, htarget⟩
  rw [← hg] at hrow
  obtain ⟨⟨verdict, m⟩, hverdict⟩ : ∃ out, r.reduce p.action
      (.ofSlots k p.rhs.length (x :: rest)) c.memory = out := ⟨_, rfl⟩
  have hdropped : (c.reduced k p (verdict, m)).stack.slots = y :: below := by
    rw [← hbelow, ← hslots]
    rfl
  have hlog : (c.reduced k p (verdict, m)).log = c.log.push
      (.reduce (.ofSlots k p.rhs.length (x :: rest)) verdict) := by
    rw [← hslots]
    rfl
  rw [reduce_eq hrule (by rw [hslots, hverdict]), hslots]
  cases verdict with
  | value v =>
    refine post_goto e r hdropped hrow hgoto ?_
    refine continues_push htrace (by rw [hlog, Array.toList_push]) ?_ rfl
    rw [hdropped]
    exact .reduce hrule hhas hbelow ⟨S, hS, htarget⟩ hverdict
  | rejected message =>
    have hreduced : (c.reduced k p (.rejected message, m)).Traced e r m₀ := by
      refine h.record hlog ?_
      rw [hslots, hdropped]
      exact .reject hrule hhas hbelow hverdict
    refine continues_recover hg ?_ _
    exact hreduced.report ⟨nofun, nofun⟩
  | fatal cause =>
    have hstopped := Stopped.fatal htrace hrule hhas hverdict
    rw [hbelow, ← hdropped, ← Array.toList_push, ← hlog] at hstopped
    exact hstopped

theorem continues_accept {x : Slot V} {rest : List (Slot V)} (h : c.Traced e r m₀)
    (hslots : c.stack.slots = x :: rest)
    (hhas : e.grammar.Has x.state ⟨e.grammar.acceptRule, 1⟩) : Continues e r m₀ c.accept := by
  have htrace := h
  rw [Traced, hslots] at htrace
  obtain ⟨xs, hxs⟩ := htrace.spelled
  have hpath := hxs.path
  rw [List.map_cons] at hpath
  obtain ⟨y, -, rfl⟩ : ∃ y : Slot V, y.state = 0 ∧ rest = [y] := by
    simpa [List.map_eq_cons_iff, and_comm] using (hpath.accept hhas).1
  unfold Config.accept
  rw [Stack.pop?, hslots]
  exact ⟨x, y, htrace, hhas, rfl, rfl⟩

theorem continues_fail (hg : e.tables = e.grammar.tables) (h : c.Traced e r m₀) (n : Nat) :
    Continues e r m₀ (c.fail e r n) := by
  have hcomplain := h.peek.complain n (c.peek e r).1
  unfold Config.fail
  dsimp only
  split
  · split
    · exact Stopped.unrecoverable _ _ hcomplain
    · refine continues_recover hg ?_ _
      exact hcomplain.record rfl (.discard _)
  · exact continues_recover hg hcomplain _

/-- A step goes on with the record, or ends the run as the record says. -/
theorem continues_step (hg : e.tables = e.grammar.tables) (h : c.Traced e r m₀) :
    Continues e r m₀ (c.step e r) := by
  obtain ⟨x, rest, hslots⟩ := List.exists_cons_of_ne_nil h.ne_nil
  have htrace := h
  rw [Traced, hslots] at htrace
  obtain ⟨row, hrow⟩ := htrace.exists_row hg
  have hrow' : e.grammar.tables.row? x.state = some row := hg ▸ hrow
  have hconsult := h.consult row
  have hslots' : (c.consult e r row).stack.slots = x :: rest := by rw [stack_consult, hslots]
  rw [step_eq e r hslots hrow]
  split
  · rename_i n hdecide
    refine continues_shift hconsult hslots' (t := (c.peek e r).1) ?_
      (edge_of_shift hg hrow hdecide)
    rw [consult_of_decide e r hdecide (by simp)]
    exact c.ahead?_peek e r
  · rename_i k hdecide
    obtain ⟨p, hrule, hhas⟩ := Grammar.allows_of_decide hrow' hdecide
    exact continues_reduce hg hconsult hslots' hrule hhas
  · rename_i hdecide
    exact continues_accept hconsult hslots' (Grammar.allows_of_decide hrow' hdecide).2
  · exact continues_fail hg hconsult x.state

end Config

namespace Engine

variable {e : Engine α} {r : Reducer α V σ}

theorem continues_start (input : List Token) (m : σ) :
    Config.Continues e r m (e.start r input m) := by
  unfold start
  cases hcreate : Stack.create (V := V) e.options.initialStackDepth e.options.maxStackDepth with
  | error overflow => exact Stopped.start _ (Or.inl rfl)
  | ok stack =>
    have hslots := Stack.slots_create hcreate
    refine Config.push_cases (P := Config.Continues e r m) ?_ ?_
    · intro stack' hpush
      rw [show (Config.stack _) = stack from rfl, hslots] at hpush
      change Trace e r m [] stack'.slots m
      rw [hpush]
      exact .start
    · intro d
      change Stopped e r m _ [] stack.slots (r.release r.blank m)
      rw [hslots]
      exact Stopped.start d (Or.inr rfl)

/-- The record of a run tells how the stack and what is remembered have come about. -/
theorem continues_steps (hg : e.tables = e.grammar.tables) (n : Nat) (input : List Token) (m : σ) :
    Config.Continues e r m (e.steps r n (e.start r input m)) :=
  e.post_steps r (fun _ h ↦ Config.continues_step hg h) n (continues_start input m)

end Engine

end PlainLedger
