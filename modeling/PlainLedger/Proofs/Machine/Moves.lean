import PlainLedger.Proofs.Automaton.Path
import PlainLedger.Proofs.Machine.Step

/-!
# Moves

All that one step of a machine can come to, when the tables are those of its grammar and its stack
spells a path of the automaton. Nothing else about steps is used afterwards: an invariant of runs is
proved by one case for each move.
-/

namespace PlainLedger

variable {α V σ : Type}

namespace Reducer

/-- What reports, and values that are taken back, make of what is remembered. -/
inductive Noise (r : Reducer α V σ) : σ → σ → Prop where
  | refl (m : σ) : Noise r m m
  | report {m m' : σ} (d : Diagnostic) : Noise r m m' → Noise r m (r.report d m')
  | release {m m' : σ} (v : V) : Noise r m m' → Noise r m (r.release v m')

variable {r : Reducer α V σ}

theorem Noise.trans {m₁ m₂ m₃ : σ} (h : r.Noise m₁ m₂) (h' : r.Noise m₂ m₃) :
    r.Noise m₁ m₃ := by
  induction h' with
  | refl => exact h
  | report d _ ih => exact ih.report d
  | release v _ ih => exact ih.release v

/-- What no report and no value taken back changes, is kept. -/
theorem Noise.keeps {J : σ → Prop} {m m' : σ} (h : r.Noise m m') (hm : J m)
    (hreport : ∀ d m, J m → J (r.report d m)) (hrelease : ∀ v m, J m → J (r.release v m)) :
    J m' := by
  induction h with
  | refl => exact hm
  | report d _ ih => exact hreport d _ ih
  | release v _ ih => exact hrelease v _ ih

/-- What one step can make of what is remembered: it shifts one token or completes one rule at
most. -/
inductive Touches (r : Reducer α V σ) (m m' : σ) : Prop where
  | noise (h : r.Noise m m')
  | token {m₁ : σ} (t : Token) (h : r.Noise m m₁) (h' : r.Noise (r.ofToken t m₁).2 m')
  | reduce {m₁ : σ} (a : α) (red : Reduction V) (h : r.Noise m m₁)
      (h' : r.Noise (r.reduce a red m₁).2 m')

/-- What no part of a step changes, is kept. -/
theorem Touches.keeps {J : σ → Prop} {m m' : σ} (h : r.Touches m m') (hm : J m)
    (hreport : ∀ d m, J m → J (r.report d m)) (hrelease : ∀ v m, J m → J (r.release v m))
    (htoken : ∀ t m, J m → J (r.ofToken t m).2)
    (hreduce : ∀ a red m, J m → J (r.reduce a red m).2) :
    J m' := by
  cases h with
  | noise h => exact h.keeps hm hreport hrelease
  | token t h h' =>
    exact h'.keeps (htoken t _ (h.keeps hm hreport hrelease)) hreport hrelease
  | reduce a red h h' =>
    exact h'.keeps (hreduce a red _ (h.keeps hm hreport hrelease)) hreport hrelease

end Reducer

/-- The configuration that a step leads to, or ends the run with. -/
def Step.config : Step V σ → Config V σ
  | .running c => c
  | .accepted _ c => c
  | .aborted _ c => c

theorem Step.post_of_config {P : Config V σ → Prop} {s : Step V σ} (h : P s.config) :
    s.Post P (fun _ ↦ P) fun _ ↦ P := by
  cases s <;> exact h

/-- The rule completed by the topmost `n` slots. -/
def Reduction.ofSlots (rule n : Nat) (slots : List (Slot V)) : Reduction V :=
  let taken := (slots.take n).reverse
  ⟨rule, Config.reductionSpan (taken.map Slot.span) (slots.drop n), taken.map Slot.value,
    taken.map Slot.span, slots.drop n⟩

theorem span_ofSlots_one (k : Nat) (x : Slot V) (rest : List (Slot V)) :
    (Reduction.ofSlots k 1 (x :: rest)).span = x.span := rfl

theorem span_ofSlots_succ (k : Nat) {n : Nat} (x : Slot V) {rest : List (Slot V)}
    (h : n + 1 ≤ rest.length) :
    (Reduction.ofSlots k (n + 2) (x :: rest)).span =
      Span.cover (Reduction.ofSlots k (n + 1) rest).span x.span := by
  have hne : (rest.take (n + 1)).reverse.map Slot.span ≠ [] := by
    simp only [ne_eq, List.map_eq_nil_iff, List.reverse_eq_nil_iff, List.take_eq_nil_iff]
    rintro (h' | rfl)
    · omega
    · exact absurd h (Nat.not_succ_le_zero n)
  obtain ⟨first, spans, hspans⟩ := List.exists_cons_of_ne_nil hne
  obtain ⟨last, hlast⟩ := Option.ne_none_iff_exists'.mp
    (mt List.getLast?_eq_none_iff.mp (List.cons_ne_nil first spans))
  simp only [Reduction.ofSlots, List.take_succ_cons, List.drop_succ_cons, List.reverse_cons,
    List.map_append, List.map_cons, List.map_nil, hspans, Config.reductionSpan, List.head?_cons,
    hlast, List.cons_append]
  rw [← List.cons_append, List.getLast?_concat]
  rfl

namespace Config

variable (e : Engine α) (r : Reducer α V σ)

theorem noise_peek (c : Config V σ) : r.Noise c.memory (c.peek e r).2.memory := by
  have hread : r.Noise c.memory (c.read e r).2.memory := by
    unfold read
    split
    · exact .refl _
    · split
      · exact .refl _
      · dsimp only
        split
        · exact (Reducer.Noise.refl _).report _
        · exact .refl _
  unfold peek
  split
  · exact .refl _
  · exact hread

theorem noise_consult (row : Row) (c : Config V σ) :
    r.Noise c.memory (c.consult e r row).memory := by
  unfold consult
  split
  · exact c.noise_peek e r
  · exact .refl _

/-- Where recovery from the slots can lead to. -/
inductive Recovers (slots : List (Slot V)) (pending : List Token) (m : σ) : Step V σ → Prop where
  | resume {popped rest : List (Slot V)} {x : Slot V} {n : Nat} {span : Span} {c' : Config V σ}
      (hslots : slots = popped ++ x :: rest)
      (hpopped : ∀ y ∈ popped, e.errorShift? y.state = none)
      (hshift : e.errorShift? x.state = some n)
      (hslots' : c'.stack.slots = ⟨n, r.blank, span⟩ :: x :: rest)
      (hpending : c'.pending = pending)
      (hquiet : c'.quiet = e.options.recoveryShifts)
      (hmemory : r.Noise m c'.memory) : Recovers slots pending m (.running c')
  | stuck {line : Line} {c' : Config V σ}
      (hslots : ∀ x ∈ slots, e.errorShift? x.state = none)
      (hmemory : r.Noise m c'.memory) :
      Recovers slots pending m (.aborted (.unrecoverable e.context.file line) c')
  | overflow {d : Nat} {c' : Config V σ} (hmemory : r.Noise m c'.memory) :
      Recovers slots pending m (.aborted (.stackOverflow d) c')

/-- What is remembered once an unexpected token has been complained about, which the machine leaves
out while it is quiet, and about tokens that were reported when they were read. -/
def Complains (c : Config V σ) (m : σ) : Prop :=
  (m = (c.peek e r).2.memory ∧ (c.quiet = 0 → c.upcoming = .lexError)) ∨
    ∃ d : Diagnostic, d.isError = true ∧ m = r.report d (c.peek e r).2.memory

/-- What a step can come to. -/
inductive Moves (c : Config V σ) : Step V σ → Prop where
  | shift {x : Slot V} {rest : List (Slot V)} {row : Row} {t : Token} {ts : List Token} {n : Nat}
      {c' : Config V σ} {v : V} {m : σ} (hslots : c.stack.slots = x :: rest)
      (hrow : e.row? x.state = some row) (hpending : c.pending = t :: ts)
      (hdecide : row.decide t.kind = some (.shift n))
      (hvalue : r.ofToken t (c.peek e r).2.memory = (v, m))
      (hslots' : c'.stack.slots = ⟨n, v, t.span⟩ :: x :: rest)
      (hpending' : c'.pending = ts) (hahead : c'.ahead? = none) (hquiet : c'.quiet = c.quiet - 1)
      (hmemory : c'.memory = m) : Moves c (.running c')
  | reduce {x y : Slot V} {rest below : List (Slot V)} {row row' : Row} {k n : Nat} {p : Rule α}
      {v : V} {m : σ} {c' : Config V σ} (hslots : c.stack.slots = x :: rest)
      (hrow : e.row? x.state = some row) (hdecide : row.decide c.upcoming = some (.reduce k))
      (hrule : e.grammar.rules[k]? = some p) (hbelow : (x :: rest).drop p.rhs.length = y :: below)
      (hrow' : e.row? y.state = some row') (hgoto : row'.goto? p.lhs = some n)
      (hverdict : r.reduce p.action (.ofSlots k p.rhs.length (x :: rest))
        (c.consult e r row).memory = (.value v, m))
      (hslots' : c'.stack.slots =
        ⟨n, v, (Reduction.ofSlots k p.rhs.length (x :: rest)).span⟩ :: y :: below)
      (hpending : c'.pending = c.pending) (hahead : c'.ahead? = (c.consult e r row).ahead?)
      (hquiet : c'.quiet = c.quiet) (hmemory : c'.memory = m) : Moves c (.running c')
  | reject {x y : Slot V} {rest below : List (Slot V)} {row : Row} {k : Nat} {p : Rule α}
      {message : String} {m : σ} {d : Diagnostic} {s : Step V σ}
      (hslots : c.stack.slots = x :: rest) (hrow : e.row? x.state = some row)
      (hdecide : row.decide c.upcoming = some (.reduce k)) (hrule : e.grammar.rules[k]? = some p)
      (hbelow : (x :: rest).drop p.rhs.length = y :: below)
      (hverdict : r.reduce p.action (.ofSlots k p.rhs.length (x :: rest))
        (c.consult e r row).memory = (.rejected message, m))
      (herror : d.isError = true)
      (hrecover : Recovers e r (y :: below) c.pending (r.report d m) s) : Moves c s
  | fatal {x : Slot V} {rest : List (Slot V)} {row : Row} {k : Nat} {p : Rule α} {cause : Abort}
      {m : σ} {c' : Config V σ} (hslots : c.stack.slots = x :: rest)
      (hrow : e.row? x.state = some row) (hdecide : row.decide c.upcoming = some (.reduce k))
      (hrule : e.grammar.rules[k]? = some p)
      (hverdict : r.reduce p.action (.ofSlots k p.rhs.length (x :: rest))
        (c.consult e r row).memory = (.fatal cause, m))
      (hmemory : c'.memory = m) : Moves c (.aborted cause c')
  | accept {x y : Slot V} {row : Row} {c' : Config V σ} (hslots : c.stack.slots = [x, y])
      (hrow : e.row? x.state = some row) (hdecide : row.decide c.upcoming = some .accept)
      (hpending : c.pending = []) (hmemory : c'.memory = (c.peek e r).2.memory)
      (hslots' : c'.stack.slots = [y]) : Moves c (.accepted x.value c')
  | skip {x : Slot V} {rest : List (Slot V)} {row : Row} {t : Token} {ts : List Token} {m : σ}
      {s : Step V σ} (hslots : c.stack.slots = x :: rest) (hrow : e.row? x.state = some row)
      (hdecide : row.decide t.kind = none) (hpending : c.pending = t :: ts)
      (hquiet : c.quiet = e.options.recoveryShifts) (hmemory : Complains e r c m)
      (hrecover : Recovers e r (x :: rest) ts m s) : Moves c s
  | fail {x : Slot V} {rest : List (Slot V)} {row : Row} {m : σ} {s : Step V σ}
      (hslots : c.stack.slots = x :: rest) (hrow : e.row? x.state = some row)
      (hdecide : row.decide c.upcoming = none)
      (hquiet : c.quiet ≠ e.options.recoveryShifts) (hmemory : Complains e r c m)
      (hrecover : Recovers e r (x :: rest) c.pending m s) : Moves c s
  | hopeless {x : Slot V} {rest : List (Slot V)} {row : Row} {line : Line} {c' : Config V σ}
      (hslots : c.stack.slots = x :: rest) (hrow : e.row? x.state = some row)
      (hdecide : row.decide .endOfInput = none) (hpending : c.pending = [])
      (hquiet : c.quiet = e.options.recoveryShifts) (hmemory : Complains e r c c'.memory) :
      Moves c (.aborted (.unrecoverable e.context.file line) c')
  | overflow {d : Nat} {c' : Config V σ} (hmemory : r.Touches c.memory c'.memory) :
      Moves c (.aborted (.stackOverflow d) c')

variable {e r}

theorem Recovers.noise {slots : List (Slot V)} {pending : List Token} {m : σ} {s : Step V σ}
    (h : Recovers e r slots pending m s) : r.Noise m s.config.memory := by
  cases h <;> assumption

theorem Complains.noise {c : Config V σ} {m : σ} (h : Complains e r c m) :
    r.Noise c.memory m := by
  rcases h with ⟨rfl, -⟩ | ⟨d, -, rfl⟩
  · exact c.noise_peek e r
  · exact (c.noise_peek e r).report d

/-- Only the bottom of the stack is left without being a state that goes on after an error. -/
theorem unwind_spec {slots : List (Slot V)} (h : slots ≠ []) :
    ∃ popped x rest, unwind e slots = (popped, x :: rest) ∧ slots = popped ++ x :: rest ∧
      (∀ y ∈ popped, e.errorShift? y.state = none) ∧
      (e.errorShift? x.state = none → rest = []) := by
  induction slots with
  | nil => exact (h rfl).elim
  | cons x slots ih =>
    cases slots with
    | nil => exact ⟨[], x, [], rfl, rfl, by simp, fun _ ↦ rfl⟩
    | cons y slots =>
      by_cases hx : (e.errorShift? x.state).isSome = true
      · refine ⟨[], x, y :: slots, by simp [unwind, hx], rfl, by simp, fun hnone ↦ ?_⟩
        rw [hnone] at hx
        cases hx
      · obtain ⟨popped, z, rest, hunwind, hslots, hpopped, hz⟩ := ih (by simp)
        refine ⟨x :: popped, z, rest, by simp [unwind, hx, hunwind], by simp [hslots], ?_, hz⟩
        intro w hw
        rcases List.mem_cons.mp hw with rfl | hw
        · simpa using hx
        · exact hpopped w hw

/-- Taking slots off changes nothing but what is remembered. -/
theorem exists_of_popped (popped : List (Slot V)) (c : Config V σ) :
    ∃ m log, popped.foldl (fun c x ↦ (c.release r x.value).record (.pop x)) c =
      { c with memory := m, log } ∧ r.Noise c.memory m := by
  induction popped generalizing c with
  | nil => exact ⟨c.memory, c.log, rfl, .refl _⟩
  | cons x popped ih =>
    obtain ⟨m, log, heq, hm⟩ := ih ((c.release r x.value).record (.pop x))
    exact ⟨m, log, heq, ((Reducer.Noise.refl _).release _).trans hm⟩

/-- A slot is put on the stack, or there is no room for it. -/
theorem push_cases {P : Step V σ → Prop} {c : Config V σ} {n : Nat} {v : V} {span : Span}
    (hrun : ∀ stack : Stack V, stack.slots = ⟨n, v, span⟩ :: c.stack.slots →
      P (.running { c with stack }))
    (hover : ∀ d, P (.aborted (.stackOverflow d) (c.release r v))) : P (c.push r n v span) := by
  unfold push
  cases hpush : c.stack.push ⟨n, v, span⟩ with
  | ok stack => exact hrun stack (Stack.slots_push hpush)
  | error overflow => exact hover _

theorem recovers_recover (start : Span) {c : Config V σ} {slots : List (Slot V)}
    {pending : List Token} (hstack : c.stack.slots = slots) (h : slots ≠ [])
    (hpending : c.pending = pending) :
    Recovers e r slots pending c.memory (c.recover e r start) := by
  subst hstack hpending
  obtain ⟨popped, x, rest, hunwind, hslots, hpopped, hx⟩ := unwind_spec (e := e) h
  obtain ⟨m, log, hfold, hm⟩ := exists_of_popped (r := r) popped
    { c with
      stack := { c.stack with slots := x :: rest }
      quiet := e.options.recoveryShifts }
  unfold recover
  rw [hunwind]
  dsimp only
  rw [hfold]
  cases hshift : e.errorShift? x.state with
  | none =>
    refine .stuck ?_ hm
    rw [hslots, hx hshift]
    intro y hy
    rcases List.mem_append.mp hy with hy | hy
    · exact hpopped y hy
    · rwa [List.mem_singleton.mp hy]
  | some n =>
    refine push_cases (P := Recovers e r c.stack.slots c.pending c.memory) ?_ ?_
    · intro stack hpush
      exact .resume hslots hpopped hshift hpush rfl rfl hm
    · intro d
      exact .overflow (hm.release _)

/-! ## The moves of a step -/

theorem moves_shift {c : Config V σ} {x : Slot V} {rest : List (Slot V)} {row : Row} {n : Nat}
    (hslots : c.stack.slots = x :: rest) (hrow : e.row? x.state = some row)
    (hend : c.upcoming ≠ .endOfInput) (hdecide : row.decide c.upcoming = some (.shift n)) :
    Moves e r c ((c.peek e r).2.shift r n) := by
  rcases c.pending_eq_of_peek e r with ⟨ts, hpending⟩ | ⟨-, hk⟩
  · unfold shift
    rw [ahead?_peek]
    refine push_cases (P := Moves e r c) ?_ fun d ↦
      .overflow (.token _ (c.noise_peek e r) ((Reducer.Noise.refl _).release _))
    intro stack hpush
    refine .shift hslots hrow hpending (by rwa [kind_peek]) rfl ?_ ?_ rfl ?_ rfl
    · rw [← hslots, ← c.stack_peek e r]
      exact hpush
    · exact pending_consume e r hpending _ rfl rfl rfl
    · exact congrArg (· - 1) (c.quiet_peek e r)
  · rw [kind_peek] at hk
    exact (hend hk).elim

/-- The configuration in which a completed rule has been taken off the stack. -/
def reduced (k : Nat) (p : Rule α) (out : Verdict V × σ) (c : Config V σ) : Config V σ :=
  { c with
    stack := { c.stack with slots := c.stack.slots.drop p.rhs.length }
    memory := out.2
    log := c.log.push (.reduce (.ofSlots k p.rhs.length c.stack.slots) out.1) }

theorem reduce_eq {c : Config V σ} {k : Nat} {p : Rule α} {out : Verdict V × σ}
    (hrule : e.grammar.rules[k]? = some p)
    (hout : r.reduce p.action (.ofSlots k p.rhs.length c.stack.slots) c.memory = out) :
    c.reduce e r k =
      match out.1 with
      | .value v => (c.reduced k p out).goto e r p.lhs k v
          (Reduction.ofSlots k p.rhs.length c.stack.slots).span
      | .rejected message => ((c.reduced k p out).report r (diagnostic e .semantic
          (e.context.lineOf (Reduction.ofSlots k p.rhs.length c.stack.slots).span)
          message)).recover e r (Reduction.ofSlots k p.rhs.length c.stack.slots).span
      | .fatal cause => .aborted cause (c.reduced k p out) := by
  subst hout
  unfold reduce
  rw [hrule]
  rfl

theorem moves_reduce (hg : e.tables = e.grammar.tables) {c : Config V σ} {x : Slot V}
    {rest : List (Slot V)} {row : Row} {k : Nat} {xs : List Symbol}
    (hslots : c.stack.slots = x :: rest) (hrow : e.row? x.state = some row)
    (hpath : e.grammar.Path (c.stack.slots.map Slot.state) xs)
    (hdecide : row.decide c.upcoming = some (.reduce k)) :
    Moves e r c ((c.consult e r row).reduce e r k) := by
  have hrow' : e.grammar.tables.row? x.state = some row := hg ▸ hrow
  obtain ⟨p, hrule, hhas⟩ := Grammar.allows_of_decide hrow' hdecide
  rw [hslots, List.map_cons] at hpath
  obtain ⟨-, -, s, ss, t, hdrop, -, S, hS, htarget⟩ := hpath.reduce hrule hhas
  rw [← List.map_cons (f := Slot.state), ← List.map_drop] at hdrop
  obtain ⟨y, below, hbelow, rfl, rfl⟩ := List.map_eq_cons_iff.mp hdrop
  obtain ⟨row', hrowy⟩ := Grammar.exists_row hS
  have hgoto := (Grammar.goto?_eq_some_iff hrowy).mpr ⟨S, hS, htarget⟩
  have hrowy' : e.row? y.state = some row' := by
    rw [Engine.row?, hg]
    exact hrowy
  have hstack : (c.consult e r row).stack.slots = x :: rest := by rw [stack_consult, hslots]
  obtain ⟨⟨verdict, m⟩, hverdict⟩ : ∃ out, r.reduce p.action
      (.ofSlots k p.rhs.length (x :: rest)) (c.consult e r row).memory = out := ⟨_, rfl⟩
  rw [reduce_eq hrule (by rw [hstack, hverdict]), hstack]
  have hdropped : ((c.consult e r row).reduced k p (verdict, m)).stack.slots = y :: below := by
    rw [← hbelow, ← hstack]
    rfl
  cases verdict with
  | value v =>
    have htop : ((c.consult e r row).reduced k p (.value v, m)).stack.top? = some y := by
      rw [Stack.top?, hdropped]
      rfl
    dsimp only
    unfold goto
    rw [htop]
    dsimp only
    rw [hrowy', Option.bind_some, hgoto]
    have htouch : r.Touches c.memory (r.release v m) := by
      refine .reduce p.action (.ofSlots k p.rhs.length (x :: rest)) (c.noise_consult e r row) ?_
      rw [hverdict]
      exact (Reducer.Noise.refl _).release v
    refine push_cases (P := Moves e r c) ?_ fun d ↦ .overflow htouch
    intro stack hpush
    refine .reduce hslots hrow hdecide hrule hbelow hrowy' hgoto hverdict ?_ ?_ rfl ?_ rfl
    · rw [hpush, hdropped]
    · exact c.pending_consult e r row
    · exact c.quiet_consult e r row
  | rejected message =>
    refine .reject (d := diagnostic e .semantic (e.context.lineOf
      (Reduction.ofSlots k p.rhs.length (x :: rest)).span) message)
      hslots hrow hdecide hrule hbelow hverdict rfl ?_
    exact recovers_recover
      (c := ((c.consult e r row).reduced k p (.rejected message, m)).report r _)
      _ hdropped (List.cons_ne_nil _ _) (c.pending_consult e r row)
  | fatal cause => exact .fatal hslots hrow hdecide hrule hverdict rfl

theorem complains_complain (c : Config V σ) (n : Nat) :
    Complains e r c ((c.peek e r).2.complain e r n (c.peek e r).1).memory := by
  unfold complain
  split
  · exact Or.inr ⟨_, rfl, rfl⟩
  · rename_i h
    refine Or.inl ⟨rfl, fun hquiet ↦ ?_⟩
    simpa [hquiet, Terminal.isSilent] using h

theorem stack_complain (c : Config V σ) (n : Nat) (t : Token) :
    (c.complain e r n t).stack = c.stack := by
  unfold complain
  split <;> rfl

theorem pending_complain (c : Config V σ) (n : Nat) (t : Token) :
    (c.complain e r n t).pending = c.pending := by
  unfold complain
  split <;> rfl

theorem quiet_complain (c : Config V σ) (n : Nat) (t : Token) :
    (c.complain e r n t).quiet = c.quiet := by
  unfold complain
  split <;> rfl

theorem moves_fail {c : Config V σ} {x : Slot V} {rest : List (Slot V)} {row : Row}
    (hslots : c.stack.slots = x :: rest) (hrow : e.row? x.state = some row)
    (hdecide : row.decide c.upcoming = none) :
    Moves e r c ((c.consult e r row).fail e r x.state) := by
  have hcomplains := c.complains_complain (e := e) (r := r) x.state
  unfold fail
  rw [peek_consult]
  set c' := (c.peek e r).2.complain e r x.state (c.peek e r).1 with hc'
  have hstack : c'.stack.slots = x :: rest := by rw [hc', stack_complain, stack_peek, hslots]
  have hpending : c'.pending = c.pending := by rw [hc', pending_complain, pending_peek]
  have hquiet : c'.quiet = c.quiet := by rw [hc', quiet_complain, quiet_peek]
  dsimp only
  rw [hquiet]
  by_cases hq : c.quiet = e.options.recoveryShifts
  · rw [if_pos hq]
    rcases c.pending_eq_of_peek e r with ⟨ts, hts⟩ | ⟨hnil, hk⟩
    · have hend : (c.peek e r).1.kind ≠ .endOfInput := by
        intro hk
        have := pending_of_ahead (c.ahead?_peek e r)
        rw [pending_peek, hts, if_pos hk] at this
        cases this
      rw [if_neg hend]
      refine .skip hslots hrow (by rwa [kind_peek]) hts hq hcomplains ?_
      exact recovers_recover (c := { c' with ahead? := none }.record (.discard (c.peek e r).1))
        _ hstack (List.cons_ne_nil _ _) (pending_consume e r hts _ rfl
          (by simp [hc', complain]; split <;> rfl) (by simp [hc', complain]; split <;> rfl))
    · rw [if_pos hk]
      refine .hopeless hslots hrow ?_ hnil hq hcomplains
      rwa [← hk, kind_peek]
  · rw [if_neg hq]
    refine .fail hslots hrow hdecide hq hcomplains ?_
    exact recovers_recover (c := c') _ hstack (List.cons_ne_nil _ _) hpending

/-- A machine whose tables are those of its grammar, in which no rule reads the end of the text,
makes one of the moves. -/
theorem moves_step (hg : e.tables = e.grammar.tables)
    (hend : ∀ n m, ¬e.grammar.Edge n (.terminal .endOfInput) m) {c : Config V σ}
    {xs : List Symbol} (hpath : e.grammar.Path (c.stack.slots.map Slot.state) xs) :
    Moves e r c (c.step e r) := by
  obtain ⟨s, ss, hss⟩ := List.exists_cons_of_ne_nil hpath.ne_nil
  obtain ⟨x, rest, hslots, rfl, -⟩ := List.map_eq_cons_iff.mp hss
  obtain ⟨S, hS⟩ := (hss ▸ hpath).exists_state
  obtain ⟨row, hrow⟩ := Grammar.exists_row hS
  have hrow' : e.row? x.state = some row := by
    rw [Engine.row?, hg]
    exact hrow
  rw [step_eq e r hslots hrow', kind_peek]
  split
  · rename_i n hdecide
    rw [consult_of_decide e r hdecide (by simp)]
    have hedge : e.grammar.Edge x.state (.terminal c.upcoming) n :=
      Grammar.allows_of_decide hrow hdecide
    refine moves_shift hslots hrow' (fun hup ↦ ?_) hdecide
    rw [hup] at hedge
    exact hend _ _ hedge
  · rename_i k hdecide
    exact moves_reduce hg hslots hrow' hpath hdecide
  · rename_i hdecide
    obtain ⟨hup, hhas⟩ : c.upcoming = .endOfInput ∧ e.grammar.Has x.state ⟨_, 1⟩ :=
      Grammar.allows_of_decide hrow hdecide
    rw [hslots, List.map_cons] at hpath
    obtain ⟨y, -, rfl⟩ : ∃ y, y.state = 0 ∧ rest = [y] := by
      simpa [List.map_eq_cons_iff, and_comm] using (hpath.accept hhas).1
    have hstack : (c.peek e r).2.stack.slots = [x, y] := by rw [stack_peek, hslots]
    rw [consult_of_decide e r hdecide (by simp)]
    unfold accept
    rw [Stack.pop?, hstack]
    exact .accept hslots hrow' hdecide (upcoming_eq_endOfInput_iff.mp hup) rfl rfl
  · rename_i hdecide
    exact moves_fail hslots hrow' hdecide

/-- A move shifts one token or completes one rule at most. -/
theorem Moves.touches {c : Config V σ} {s : Step V σ} (h : Moves e r c s) :
    r.Touches c.memory s.config.memory := by
  cases h with
  | @shift _ _ _ t _ _ _ _ _ _ _ _ _ hvalue _ _ _ _ hmemory =>
    refine .token t (c.noise_peek e r) ?_
    rw [hvalue, Step.config, hmemory]
    exact .refl _
  | @reduce x _ rest _ row _ k _ p v m _ _ _ _ _ _ _ _ hverdict _ _ _ _ hmemory =>
    refine .reduce p.action (.ofSlots k p.rhs.length (x :: rest)) (c.noise_consult e r row) ?_
    rw [hverdict, Step.config, hmemory]
    exact .refl _
  | @reject x _ rest _ row k p _ m d _ _ _ _ _ _ hverdict _ hrecover =>
    refine .reduce p.action (.ofSlots k p.rhs.length (x :: rest)) (c.noise_consult e r row) ?_
    rw [hverdict]
    exact ((Reducer.Noise.refl _).report d).trans hrecover.noise
  | @fatal x rest row k p cause m _ _ _ _ _ hverdict hmemory =>
    refine .reduce p.action (.ofSlots k p.rhs.length (x :: rest)) (c.noise_consult e r row) ?_
    rw [hverdict, Step.config, hmemory]
    exact .refl _
  | accept _ _ _ _ hmemory _ =>
    refine .noise ?_
    rw [Step.config, hmemory]
    exact c.noise_peek e r
  | skip _ _ _ _ _ hmemory hrecover => exact .noise (hmemory.noise.trans hrecover.noise)
  | fail _ _ _ _ hmemory hrecover => exact .noise (hmemory.noise.trans hrecover.noise)
  | hopeless _ _ _ _ _ hmemory => exact .noise hmemory.noise
  | overflow hmemory => exact hmemory

/-- Tokens are only used up. -/
theorem Moves.pending_suffix (h : Moves e r c (.running c')) : c'.pending <:+ c.pending := by
  have hrecovers : ∀ {slots : List (Slot V)} {pending : List Token} {m : σ},
      Recovers e r slots pending m (.running c') → c'.pending = pending := fun h ↦ by
    cases h
    assumption
  cases h with
  | shift _ _ hpending _ _ _ hpending' _ _ _ =>
    rw [hpending, hpending']
    exact List.suffix_cons _ _
  | reduce _ _ _ _ _ _ _ _ _ hpending _ _ _ => exact hpending ▸ List.suffix_refl _
  | reject _ _ _ _ _ _ _ hrecover => exact hrecovers hrecover ▸ List.suffix_refl _
  | skip _ _ _ hpending _ _ hrecover =>
    rw [hrecovers hrecover, hpending]
    exact List.suffix_cons _ _
  | fail _ _ _ _ _ hrecover => exact hrecovers hrecover ▸ List.suffix_refl _

/-- The bottom of a stack is never taken off. -/
theorem Moves.getLast?_slots (h : Moves e r c (.running c')) :
    c'.stack.slots.getLast? = c.stack.slots.getLast? := by
  have hrecovers : ∀ {slots : List (Slot V)} {pending : List Token} {m : σ},
      Recovers e r slots pending m (.running c') →
        c'.stack.slots.getLast? = slots.getLast? := fun h ↦ by
    cases h with
    | resume hslots _ _ hslots' _ _ _ =>
      rw [hslots, hslots', List.getLast?_append_cons, List.getLast?_cons_cons]
  have hbelow : ∀ {x y : Slot V} {rest below : List (Slot V)} {n : Nat},
      (x :: rest).drop n = y :: below → (y :: below).getLast? = (x :: rest).getLast? :=
    fun {x y rest below n} h ↦ by
      rw [← List.take_append_drop n (x :: rest), h, List.getLast?_append_cons]
  cases h with
  | shift hslots _ _ _ _ hslots' _ _ _ _ => rw [hslots, hslots', List.getLast?_cons_cons]
  | reduce hslots _ _ _ hdrop _ _ _ hslots' _ _ _ _ =>
    rw [hslots, hslots', List.getLast?_cons_cons, hbelow hdrop]
  | reject hslots _ _ _ hdrop _ _ hrecover => rw [hrecovers hrecover, hslots, hbelow hdrop]
  | skip hslots _ _ _ _ _ hrecover => rw [hrecovers hrecover, hslots]
  | fail hslots _ _ _ _ hrecover => rw [hrecovers hrecover, hslots]

end Config

end PlainLedger
