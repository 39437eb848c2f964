import Mathlib.Data.List.TakeWhile
import PlainLedger.Machine.Run
import PlainLedger.Proofs.Automaton.Row

/-!
# What a step does

A step looks at the token ahead where the row of the topmost state asks for it, and then reads the
token, completes a rule, accepts or recovers, as the row decides. An invariant of the single parts
of a step is an invariant of a run.
-/

namespace PlainLedger

variable {α V σ : Type}

namespace Step

/-- What holds of the configuration that a step leads to, or of the way in which it ends the run. -/
def Post (running : Config V σ → Prop) (accepted : V → Config V σ → Prop)
    (aborted : Abort → Config V σ → Prop) : Step V σ → Prop
  | .running c => running c
  | .accepted v c => accepted v c
  | .aborted cause c => aborted cause c

variable {P P' : Config V σ → Prop} {A A' : V → Config V σ → Prop}
  {B B' : Abort → Config V σ → Prop}

@[simp] theorem post_running {c : Config V σ} : Post P A B (.running c) ↔ P c := Iff.rfl

@[simp] theorem post_accepted {v : V} {c : Config V σ} : Post P A B (.accepted v c) ↔ A v c :=
  Iff.rfl

@[simp] theorem post_aborted {cause : Abort} {c : Config V σ} :
    Post P A B (.aborted cause c) ↔ B cause c := Iff.rfl

theorem Post.imp {s : Step V σ} (h : Post P A B s) (hP : ∀ c, P c → P' c)
    (hA : ∀ v c, A v c → A' v c) (hB : ∀ cause c, B cause c → B' cause c) : Post P' A' B' s := by
  cases s with
  | running c => exact hP c h
  | accepted v c => exact hA v c h
  | aborted cause c => exact hB cause c h

theorem Post.and {s : Step V σ} (h : Post P A B s) (h' : Post P' A' B' s) :
    Post (fun c ↦ P c ∧ P' c) (fun v c ↦ A v c ∧ A' v c) (fun cause c ↦ B cause c ∧ B' cause c)
      s := by
  cases s with
  | running c => exact ⟨h, h'⟩
  | accepted v c => exact ⟨h, h'⟩
  | aborted cause c => exact ⟨h, h'⟩

end Step

namespace Engine

variable (e : Engine α) (r : Reducer α V σ) {P : Config V σ → Prop} {A : V → Config V σ → Prop}
  {B : Abort → Config V σ → Prop}

/-- What every step keeps, a run keeps. -/
theorem post_steps (hstep : ∀ c, P c → (c.step e r).Post P A B) (n : Nat) {s : Step V σ}
    (h : s.Post P A B) : (e.steps r n s).Post P A B := by
  induction n generalizing s with
  | zero => simpa using h
  | succ n ih =>
    cases s with
    | running c =>
      rw [steps_succ_running]
      exact ih (hstep c h)
    | accepted v c => simpa using h
    | aborted cause c => simpa using h

/-- A run whose steps all lower a measure comes to an end. -/
theorem post_steps_of_measure {Q : Nat → Config V σ → Prop}
    (hstep : ∀ m c, Q m c → (c.step e r).Post (fun c' ↦ ∃ m' < m, Q m' c') A B) {n m : Nat}
    (hlt : m < n) {c : Config V σ} (h : Q m c) :
    (e.steps r n (.running c)).Post (fun _ ↦ False) A B := by
  induction n generalizing m c with
  | zero => omega
  | succ n ih =>
    rw [steps_succ_running]
    have hpost := hstep m c h
    cases hs : c.step e r with
    | running c' =>
      rw [hs] at hpost
      obtain ⟨m', hm', h'⟩ := hpost
      exact ih (by omega) h'
    | accepted v c' =>
      rw [hs] at hpost
      simpa using hpost
    | aborted cause c' =>
      rw [hs] at hpost
      simpa using hpost

end Engine

namespace Config

variable (e : Engine α) (r : Reducer α V σ) {P : Config V σ → Prop} {A : V → Config V σ → Prop}
  {B : Abort → Config V σ → Prop}

/-! ## Reading ahead -/

@[simp] theorem stack_report (d : Diagnostic) (c : Config V σ) :
    (c.report r d).stack = c.stack := rfl

@[simp] theorem stack_record (ev : Event V) (c : Config V σ) : (c.record ev).stack = c.stack := rfl

/-- What is read at the end of the source. -/
theorem read_of_exhausted {c : Config V σ} (h : c.exhausted = true) :
    c.read e r = (.endOfInput c.lastSpan.endPoint, c) := by
  simp [read, h]

theorem read_of_nil {c : Config V σ} (h : c.exhausted = false) (hi : c.input = []) :
    c.read e r =
      (.endOfInput c.lastSpan.endPoint, { c with exhausted := true }.record (.pull none)) := by
  simp [read, h, hi]

theorem peek_of_ahead {c : Config V σ} {t : Token} (h : c.ahead? = some t) :
    c.peek e r = (t, c) := by
  simp [peek, h]

theorem peek_of_none {c : Config V σ} (h : c.ahead? = none) :
    c.peek e r = ((c.read e r).1, { (c.read e r).2 with ahead? := some (c.read e r).1 }) := by
  simp [peek, h]

@[simp] theorem stack_read (c : Config V σ) : (c.read e r).2.stack = c.stack := by
  unfold read
  split
  · rfl
  · split
    · rfl
    · dsimp only
      split <;> rfl

@[simp] theorem quiet_read (c : Config V σ) : (c.read e r).2.quiet = c.quiet := by
  unfold read
  split
  · rfl
  · split
    · rfl
    · dsimp only
      split <;> rfl

@[simp] theorem stack_peek (c : Config V σ) : (c.peek e r).2.stack = c.stack := by
  unfold peek
  split
  · rfl
  · exact c.stack_read e r

@[simp] theorem quiet_peek (c : Config V σ) : (c.peek e r).2.quiet = c.quiet := by
  unfold peek
  split
  · rfl
  · exact c.quiet_read e r

@[simp] theorem ahead?_peek (c : Config V σ) :
    (c.peek e r).2.ahead? = some (c.peek e r).1 := by
  unfold peek
  split
  · assumption
  · rfl

/-- A second look sees the same. -/
@[simp] theorem peek_peek (c : Config V σ) :
    (c.peek e r).2.peek e r = ((c.peek e r).1, (c.peek e r).2) :=
  peek_of_ahead e r (c.ahead?_peek e r)

/-! ## Pending tokens -/

/-- The tokens before the end of the text that have not been shifted or dropped. -/
def pending (c : Config V σ) : List Token :=
  (c.ahead?.toList ++ if c.exhausted then [] else c.input).takeWhile fun t ↦
    t.kind ≠ .endOfInput

/-- What kind of token comes next. -/
def upcoming (c : Config V σ) : Terminal := (c.pending.head?.map Token.kind).getD .endOfInput

theorem pending_of_ahead {c : Config V σ} {t : Token} (h : c.ahead? = some t) :
    c.pending = if t.kind = .endOfInput then []
      else t :: (if c.exhausted then [] else c.input).takeWhile fun t ↦ t.kind ≠ .endOfInput := by
  by_cases hk : t.kind = .endOfInput <;> simp [pending, h, hk]

@[simp] theorem pending_peek (c : Config V σ) : (c.peek e r).2.pending = c.pending := by
  cases hahead : c.ahead? with
  | some t => rw [peek_of_ahead e r hahead]
  | none =>
    rw [peek_of_none e r hahead]
    by_cases hx : c.exhausted = true
    · simp [pending, read, hahead, hx]
    · cases hi : c.input with
      | nil => simp [pending, read, hahead, hx, hi, record]
      | cons t ts =>
        by_cases hk : t.kind = .lexError <;>
          simp [pending, read, hahead, hx, hi, hk, record, report]

/-- A look ahead sees the first of the pending tokens. -/
theorem pending_eq_of_peek (c : Config V σ) :
    (∃ ts, c.pending = (c.peek e r).1 :: ts) ∨
      c.pending = [] ∧ (c.peek e r).1.kind = .endOfInput := by
  have hpending := pending_of_ahead (c.ahead?_peek e r)
  rw [pending_peek] at hpending
  by_cases hk : (c.peek e r).1.kind = .endOfInput
  · exact Or.inr ⟨by rw [hpending, if_pos hk], hk⟩
  · exact Or.inl ⟨_, by rw [hpending, if_neg hk]⟩

@[simp] theorem kind_peek (c : Config V σ) : (c.peek e r).1.kind = c.upcoming := by
  unfold upcoming
  rcases c.pending_eq_of_peek e r with ⟨ts, h⟩ | ⟨h, hk⟩
  · rw [h]
    rfl
  · rw [h, hk]
    rfl

theorem upcoming_eq_endOfInput_iff {c : Config V σ} :
    c.upcoming = .endOfInput ↔ c.pending = [] := by
  unfold upcoming
  cases h : c.pending with
  | nil => simp
  | cons t ts =>
    have ht : t ∈ c.pending := h ▸ List.mem_cons_self ..
    simpa using List.mem_takeWhile_imp ht

/-- What is pending once the token ahead has been shifted or dropped. -/
theorem pending_consume {c : Config V σ} {t : Token} {ts : List Token}
    (h : c.pending = t :: ts) (c' : Config V σ) (hahead : c'.ahead? = none)
    (hinput : c'.input = (c.peek e r).2.input)
    (hexhausted : c'.exhausted = (c.peek e r).2.exhausted) : c'.pending = ts := by
  have hpending := pending_of_ahead (c.ahead?_peek e r)
  rw [pending_peek, h] at hpending
  split at hpending
  · cases hpending
  · simpa [pending, hahead, hinput, hexhausted] using (List.cons.inj hpending).2.symm

/-! ## The decision -/

/-- The configuration in which the row's decision is carried out. -/
def consult (row : Row) (c : Config V σ) : Config V σ :=
  if row.needsLookahead then (c.peek e r).2 else c

@[simp] theorem stack_consult (row : Row) (c : Config V σ) :
    (c.consult e r row).stack = c.stack := by
  unfold consult
  split
  · exact c.stack_peek e r
  · rfl

@[simp] theorem quiet_consult (row : Row) (c : Config V σ) :
    (c.consult e r row).quiet = c.quiet := by
  unfold consult
  split
  · exact c.quiet_peek e r
  · rfl

@[simp] theorem pending_consult (row : Row) (c : Config V σ) :
    (c.consult e r row).pending = c.pending := by
  unfold consult
  split
  · exact c.pending_peek e r
  · rfl

@[simp] theorem peek_consult (row : Row) (c : Config V σ) :
    (c.consult e r row).peek e r = c.peek e r := by
  unfold consult
  split
  · exact c.peek_peek e r
  · rfl

/-- A step carries out what the row of the topmost state decides before the token ahead. -/
theorem step_eq {c : Config V σ} {x : Slot V} {rest : List (Slot V)} {row : Row}
    (hslots : c.stack.slots = x :: rest) (hrow : e.row? x.state = some row) :
    c.step e r =
      match row.decide (c.peek e r).1.kind with
      | some (.shift state) => (c.consult e r row).shift r state
      | some (.reduce rule) => (c.consult e r row).reduce e r rule
      | some .accept => (c.consult e r row).accept
      | none => (c.consult e r row).fail e r x.state := by
  have htop : c.stack.top? = some x := by simp [Stack.top?, hslots]
  unfold step consult
  rw [htop]
  dsimp only
  rw [hrow, Option.getD_some]
  by_cases h : row.needsLookahead = true
  · simp only [h, if_true]
    rfl
  · rw [if_neg h, if_neg h, Row.decide_of_not_needsLookahead (eq_false_of_ne_true h)]
    rfl

/-- The configuration in which the token read ahead has been taken, with its value. -/
def taken (t : Token) (v : V) (m : σ) (c : Config V σ) : Config V σ :=
  { c with
    ahead? := none
    quiet := c.quiet - 1
    memory := m
    log := c.log.push (.shift t v) }

variable {r} in
theorem shift_eq {c : Config V σ} {t : Token} {v : V} {m : σ} (hahead : c.ahead? = some t)
    (hvalue : r.ofToken t c.memory = (v, m)) (n : Nat) :
    c.shift r n = (c.taken t v m).push r n v t.span := by
  unfold shift
  rw [hahead]
  dsimp only
  rw [hvalue]
  rfl

/-- Whatever is not the completion of a rule is decided with the token ahead in view. -/
theorem consult_of_decide {c : Config V σ} {row : Row} {t : Terminal} {a : Action}
    (h : row.decide t = some a) (ha : ∀ k, a ≠ .reduce k) :
    c.consult e r row = (c.peek e r).2 := by
  by_cases hn : row.needsLookahead = true
  · simp [consult, hn]
  · rw [Row.decide_of_not_needsLookahead (eq_false_of_ne_true hn)] at h
    obtain ⟨k, -, hk⟩ := Option.map_eq_some_iff.mp h
    exact (ha k hk.symm).elim

/-! ## The parts of a step -/

theorem post_push {c : Config V σ} {state : Nat} {v : V} {span : Span}
    (hrun : ∀ stack, c.stack.push ⟨state, v, span⟩ = .ok stack → P { c with stack })
    (hover : ∀ d, B (.stackOverflow d) (c.release r v)) :
    (c.push r state v span).Post P A B := by
  unfold push
  split
  · exact hrun _ ‹_›
  · exact hover _

theorem post_goto {c : Config V σ} {x : Slot V} {rest : List (Slot V)} {row : Row}
    {lhs rule m : Nat} {v : V} {span : Span} (hslots : c.stack.slots = x :: rest)
    (hrow : e.row? x.state = some row) (hgoto : row.goto? lhs = some m)
    (h : (c.push r m v span).Post P A B) : (c.goto e r lhs rule v span).Post P A B := by
  have htop : c.stack.top? = some x := by simp [Stack.top?, hslots]
  unfold goto
  rw [htop]
  dsimp only
  rw [hrow, Option.bind_some, hgoto]
  exact h

end Config

end PlainLedger
