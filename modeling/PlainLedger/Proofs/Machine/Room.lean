import PlainLedger.Proofs.Machine.Reporting

/-!
# Room on the stack

A stack grows as it is needed, and a machine does not notice: as long as the ceiling is not reached,
it does what it would do with a stack that has had room for everything from the start. Where one
slot more would exceed the ceiling, it gives up. How much room a stack begins with makes no
difference at all.
-/

namespace PlainLedger

variable {α V σ : Type}

/-- The machine with other limits for its stack. -/
def Engine.withDepths (e : Engine α) (initial most : Nat) : Engine α :=
  e.withOptions { e.options with initialStackDepth := initial, maxStackDepth := most }

namespace Stack

variable {s : Stack V}

theorem push_of_lt (h : s.length < s.capacity) (x : Slot V) :
    s.push x = .ok { s with slots := x :: s.slots } := by
  unfold push
  rw [if_neg h.ne]
  rfl

theorem push_of_grow (h : s.length = s.capacity) (hlt : s.capacity < s.ceiling)
    (hfits : min (2 * s.capacity) s.ceiling < addressable) (x : Slot V) :
    s.push x = .ok ⟨x :: s.slots, min (2 * s.capacity) s.ceiling, s.ceiling⟩ := by
  unfold push grow reserve
  rw [if_pos h, if_neg (Nat.not_le.mpr hlt), if_pos hfits]
  rfl

theorem lt_of_grow {s' : Stack V} (h : s.grow = .ok s') :
    min (2 * s.capacity) s.ceiling < addressable := by
  unfold grow at h
  split at h
  · cases h
  · unfold reserve at h
    split at h
    · assumption
    · cases h

theorem push_of_full (h : s.length = s.capacity) (hfull : s.ceiling ≤ s.capacity) (x : Slot V) :
    s.push x = .error ⟨s.ceiling⟩ := by
  unfold push grow
  rw [if_pos h, if_pos hfull]
  rfl

theorem exists_create {initial most : Nat} (h : max most 1 < addressable) :
    ∃ s : Stack V, create initial most = .ok s := by
  unfold create reserve
  rw [if_pos (lt_of_le_of_lt (Nat.min_le_right ..) h)]
  exact ⟨_, rfl⟩

end Stack

namespace Config

/-- The machine with another room and another ceiling. -/
def withRoom (room ceiling : Nat) (c : Config V σ) : Config V σ :=
  { c with stack := { slots := c.stack.slots, capacity := room, ceiling } }

/-- The machine with all but the topmost of its slots. -/
def dropTop (r : Reducer α V σ) (c : Config V σ) : Config V σ :=
  match c.stack.slots with
  | [] => c
  | x :: rest => { c with stack := { c.stack with slots := rest } }.release r x.value

/-- The machine uses less than it may use at `most`, which is less than its own capacity, and what
it uses has a place in a stack with the given room and ceiling, which can grow if it has to. -/
structure Fitting (room ceiling most capacity : Nat) (c : Config V σ) : Prop where
  positive : 1 ≤ room
  length : c.stack.length ≤ room
  below : room ≤ ceiling
  grows : c.stack.length = room → room < ceiling → min (2 * room) ceiling < Stack.addressable
  less : c.stack.length < most
  spare : most ≤ capacity
  capacity : capacity ≤ c.stack.capacity

end Config

/-- The first step is the second one with less room: it leads to the same, or there is no room for
the slot that the second step puts on the stack. The second step leads to `most` slots at most. -/
inductive Step.Fits (r : Reducer α V σ) (ceiling most capacity : Nat) :
    Step V σ → Step V σ → Prop where
  | running {u : Config V σ} (room : Nat) (hpositive : 1 ≤ room)
      (hlength : u.stack.length ≤ room) (hroom : room ≤ ceiling) (hmost : u.stack.length ≤ most)
      (hcapacity : capacity ≤ u.stack.capacity) :
      Fits r ceiling most capacity (.running (u.withRoom room ceiling)) (.running u)
  | accepted (v : V) (u : Config V σ) (room : Nat) (hsmall : u.stack.length ≤ ceiling) :
      Fits r ceiling most capacity (.accepted v (u.withRoom room ceiling)) (.accepted v u)
  | aborted (cause : Abort) (u : Config V σ) (room : Nat) (hsmall : u.stack.length ≤ ceiling) :
      Fits r ceiling most capacity (.aborted cause (u.withRoom room ceiling)) (.aborted cause u)
  | overflow {u : Config V σ} (room : Nat) (hlength : u.stack.length = ceiling + 1)
      (hmost : u.stack.length ≤ most) (hcapacity : capacity ≤ u.stack.capacity) :
      Fits r ceiling most capacity
        (.aborted (.stackOverflow ceiling) ((u.dropTop r).withRoom room ceiling)) (.running u)

namespace Config

variable {e : Engine α} {r : Reducer α V σ} {room ceiling most capacity : Nat} {u : Config V σ}

/-! ## Parts of a step that put nothing on the stack -/

theorem read_withRoom (u : Config V σ) :
    (u.withRoom room ceiling).read e r =
      ((u.read e r).1, (u.read e r).2.withRoom room ceiling) := by
  by_cases hended : u.exhausted = true
  · rw [read_of_exhausted e r hended, read_of_exhausted e r (c := u.withRoom room ceiling) hended]
    rfl
  · cases hinput : u.input with
    | nil =>
      rw [read_of_nil e r (eq_false_of_ne_true hended) hinput,
        read_of_nil e r (c := u.withRoom room ceiling) (eq_false_of_ne_true hended) hinput]
      rfl
    | cons t rest =>
      unfold read
      rw [if_neg hended, if_neg (show ¬(u.withRoom room ceiling).exhausted = true from hended),
        show (u.withRoom room ceiling).input = u.input from rfl, hinput]
      dsimp only
      split <;> rfl

theorem peek_withRoom (u : Config V σ) :
    (u.withRoom room ceiling).peek e r =
      ((u.peek e r).1, (u.peek e r).2.withRoom room ceiling) := by
  cases hahead : u.ahead? with
  | some t =>
    rw [peek_of_ahead e r hahead, peek_of_ahead e r (c := u.withRoom room ceiling) hahead]
  | none =>
    rw [peek_of_none e r hahead, peek_of_none e r (c := u.withRoom room ceiling) hahead,
      read_withRoom]
    rfl

theorem consult_withRoom (row : Row) (u : Config V σ) :
    (u.withRoom room ceiling).consult e r row = (u.consult e r row).withRoom room ceiling := by
  unfold consult
  rw [peek_withRoom]
  split <;> rfl

theorem complain_withRoom (n : Nat) (t : Token) (u : Config V σ) :
    (u.withRoom room ceiling).complain e r n t = (u.complain e r n t).withRoom room ceiling := by
  unfold complain
  rw [show (u.withRoom room ceiling).quiet = u.quiet from rfl]
  split <;> rfl

theorem popped_withRoom (popped : List (Slot V)) (u : Config V σ) :
    popped.foldl (fun c x ↦ (c.release r x.value).record (.pop x)) (u.withRoom room ceiling) =
      (popped.foldl (fun c x ↦ (c.release r x.value).record (.pop x)) u).withRoom room
        ceiling := by
  induction popped generalizing u with
  | nil => rfl
  | cons x popped ih => exact ih ((u.release r x.value).record (.pop x))

theorem unwound_withRoom (u : Config V σ) :
    (u.withRoom room ceiling).unwound e r = (u.unwound e r).withRoom room ceiling := by
  unfold unwound
  rw [← popped_withRoom]
  rfl

/-- A machine that has fewer slots fits as well. -/
theorem Fitting.of_le {u' : Config V σ} (h : u.Fitting room ceiling most capacity)
    (hlength : u'.stack.length ≤ u.stack.length)
    (hcapacity : u'.stack.capacity = u.stack.capacity) : u'.Fitting room ceiling most capacity where
  positive := h.positive
  length := hlength.trans h.length
  below := h.below
  grows := fun heq hlt ↦ h.grows (le_antisymm h.length (heq ▸ hlength)) hlt
  less := hlength.trans_lt h.less
  spare := h.spare
  capacity := hcapacity ▸ h.capacity

theorem Fitting.small (h : u.Fitting room ceiling most capacity) : u.stack.length ≤ ceiling :=
  h.length.trans h.below

/-! ## Parts of a step that may put a slot on the stack -/

theorem push_of_ok {c : Config V σ} {n : Nat} {v : V} {span : Span} {stack : Stack V}
    (h : c.stack.push ⟨n, v, span⟩ = .ok stack) :
    c.push r n v span = .running { c with stack } := by
  unfold push
  rw [h]

theorem push_of_error {c : Config V σ} {n : Nat} {v : V} {span : Span} {overflow : StackOverflow}
    (h : c.stack.push ⟨n, v, span⟩ = .error overflow) :
    c.push r n v span = .aborted (.stackOverflow overflow.depth) (c.release r v) := by
  unfold push
  rw [h]

theorem fits_push (h : u.Fitting room ceiling most capacity) (n : Nat) (v : V) (span : Span) :
    Step.Fits r ceiling most capacity ((u.withRoom room ceiling).push r n v span)
      (u.push r n v span) := by
  rw [push_of_ok (Stack.push_of_lt (h.less.trans_le (h.spare.trans h.capacity)) _)]
  have hpositive := h.positive
  rcases h.length.lt_or_eq with hlt | heq
  · -- there is room
    rw [push_of_ok (Stack.push_of_lt (s := (u.withRoom room ceiling).stack) hlt _)]
    exact .running (u := { u with
      stack := { u.stack with slots := ⟨n, v, span⟩ :: u.stack.slots } }) room h.positive hlt
        h.below h.less
      h.capacity
  · rcases h.below.lt_or_eq with hlt | rfl
    · -- room is made
      rw [push_of_ok (Stack.push_of_grow (s := (u.withRoom room ceiling).stack) heq hlt
        (h.grows heq hlt) _)]
      refine .running (u := { u with
        stack := { u.stack with slots := ⟨n, v, span⟩ :: u.stack.slots } })
        (min (2 * room) ceiling) ?_ ?_ (Nat.min_le_right ..) h.less h.capacity
      · omega
      · change u.stack.slots.length + 1 ≤ min (2 * room) ceiling
        change u.stack.slots.length = room at heq
        omega
    · -- the ceiling is reached
      rw [push_of_error (Stack.push_of_full (s := (u.withRoom room room).stack) heq le_rfl _)]
      refine .overflow (u := { u with
        stack := { u.stack with slots := ⟨n, v, span⟩ :: u.stack.slots } }) room ?_ h.less
          h.capacity
      exact congrArg (· + 1) heq

theorem fits_shift (h : u.Fitting room ceiling most capacity) (n : Nat) :
    Step.Fits r ceiling most capacity ((u.withRoom room ceiling).shift r n) (u.shift r n) := by
  cases hahead : u.ahead? with
  | none =>
    unfold shift
    rw [show (u.withRoom room ceiling).ahead? = u.ahead? from rfl, hahead]
    exact .aborted _ u _ h.small
  | some t =>
    obtain ⟨v, m, hvalue⟩ : ∃ v m, r.ofToken t u.memory = (v, m) := ⟨_, _, rfl⟩
    rw [shift_eq (c := u.withRoom room ceiling) hahead hvalue, shift_eq hahead hvalue]
    exact fits_push (u := u.taken t v m) (h.of_le le_rfl rfl) n v t.span

theorem length_unwind_le (slots : List (Slot V)) :
    (unwind e slots).2.length ≤ slots.length := by
  by_cases h : slots = []
  · rw [h]
    rfl
  · obtain ⟨popped, x, rest, heq, hslots, -⟩ := unwind_spec (e := e) h
    rw [heq, hslots, List.length_append]
    exact Nat.le_add_left ..

theorem fits_recover (h : u.Fitting room ceiling most capacity) (start : Span) :
    Step.Fits r ceiling most capacity ((u.withRoom room ceiling).recover e r start)
      (u.recover e r start) := by
  have hspan : (u.withRoom room ceiling).skippedSpan e start = u.skippedSpan e start := rfl
  have hslots : (u.withRoom room ceiling).stack.slots = u.stack.slots := rfl
  rw [recover_eq, recover_eq, hspan, hslots, unwound_withRoom]
  have hunwound : (u.unwound e r).Fitting room ceiling most capacity := by
    obtain ⟨m, log, heq⟩ := u.unwound_eq (e := e) (r := r)
    rw [heq]
    exact h.of_le (length_unwind_le u.stack.slots) rfl
  cases (unwind e u.stack.slots).2 with
  | nil => exact .aborted _ _ _ hunwound.small
  | cons x rest =>
    dsimp only
    cases e.errorShift? x.state with
    | none => exact .aborted _ _ _ hunwound.small
    | some n => exact fits_push (u := (u.unwound e r).record _) (hunwound.of_le le_rfl rfl) n _ _

theorem fits_goto (h : u.Fitting room ceiling most capacity) (lhs rule : Nat) (v : V)
    (span : Span) :
    Step.Fits r ceiling most capacity ((u.withRoom room ceiling).goto e r lhs rule v span)
      (u.goto e r lhs rule v span) := by
  unfold goto
  rw [show (u.withRoom room ceiling).stack.top? = u.stack.top? from rfl]
  cases u.stack.top? with
  | none => exact .aborted _ (u.release r v) _ h.small
  | some x =>
    dsimp only
    cases (e.row? x.state).bind fun row ↦ row.goto? lhs with
    | none => exact .aborted _ (u.release r v) _ h.small
    | some n => exact fits_push h n v span

theorem fits_reduce (h : u.Fitting room ceiling most capacity) (k : Nat) :
    Step.Fits r ceiling most capacity ((u.withRoom room ceiling).reduce e r k)
      (u.reduce e r k) := by
  cases hrule : e.grammar.rules[k]? with
  | none =>
    unfold reduce
    rw [hrule]
    exact .aborted _ u _ h.small
  | some p =>
    have hout : r.reduce p.action
        (.ofSlots k p.rhs.length (u.withRoom room ceiling).stack.slots)
        (u.withRoom room ceiling).memory =
          r.reduce p.action (.ofSlots k p.rhs.length u.stack.slots) u.memory := rfl
    have hreduced : ∀ out : Verdict V × σ, (u.reduced k p out).Fitting room ceiling most capacity :=
      fun out ↦ h.of_le ((List.drop_sublist ..).length_le) rfl
    rw [reduce_eq (c := u.withRoom room ceiling) hrule hout, reduce_eq (c := u) hrule rfl]
    generalize r.reduce p.action (.ofSlots k p.rhs.length u.stack.slots) u.memory = out
    cases out.1 with
    | value v => exact fits_goto (hreduced out) p.lhs k v _
    | rejected message =>
      exact fits_recover (u := (u.reduced k p out).report r _) ((hreduced out).of_le le_rfl rfl) _
    | fatal cause => exact .aborted _ (u.reduced k p out) _ (hreduced out).small

theorem fits_accept (h : u.Fitting room ceiling most capacity) :
    Step.Fits r ceiling most capacity (u.withRoom room ceiling).accept u.accept := by
  have hsmall := h.small
  unfold accept Stack.pop?
  unfold Stack.length at hsmall
  rw [show (u.withRoom room ceiling).stack.slots = u.stack.slots from rfl]
  cases hslots : u.stack.slots with
  | nil => exact .aborted _ u _ h.small
  | cons x rest =>
    rw [hslots, List.length_cons] at hsmall
    exact .accepted _ { u with stack := { u.stack with slots := rest } } _
      ((Nat.le_succ _).trans hsmall)

theorem fits_fail (h : u.Fitting room ceiling most capacity) (n : Nat) :
    Step.Fits r ceiling most capacity ((u.withRoom room ceiling).fail e r n) (u.fail e r n) := by
  unfold fail
  rw [peek_withRoom]
  dsimp only
  rw [complain_withRoom]
  have hcomplain :
      ((u.peek e r).2.complain e r n (u.peek e r).1).Fitting room ceiling most capacity := by
    apply h.of_le
    · rw [stack_complain, stack_peek]
    · rw [stack_complain, stack_peek]
  rw [show ∀ c : Config V σ, (c.withRoom room ceiling).quiet = c.quiet from fun _ ↦ rfl]
  split
  · split
    · exact .aborted _ _ _ hcomplain.small
    · exact fits_recover (u := { (u.peek e r).2.complain e r n (u.peek e r).1 with
        ahead? := none }.record _) (hcomplain.of_le le_rfl rfl) _
  · exact fits_recover hcomplain _

/-- A step on a stack with less room does the same, unless there is no room for a slot. -/
theorem fits_step (h : u.Fitting room ceiling most capacity) :
    Step.Fits r ceiling most capacity ((u.withRoom room ceiling).step e r) (u.step e r) := by
  cases hslots : u.stack.slots with
  | nil =>
    rw [step_of_nil hslots, step_of_nil (c := u.withRoom room ceiling) hslots]
    exact .aborted _ u _ h.small
  | cons x rest =>
    rw [step_of_cons hslots, step_of_cons (c := u.withRoom room ceiling) hslots, consult_withRoom,
      peek_withRoom]
    have hconsult : (u.consult e r (e.rowAt x.state)).Fitting room ceiling most capacity := by
      apply h.of_le
      · rw [stack_consult]
      · rw [stack_consult]
    cases (e.rowAt x.state).decide (u.peek e r).1.kind with
    | none => exact fits_fail hconsult x.state
    | some a =>
      cases a with
      | shift n => exact fits_shift hconsult n
      | reduce k => exact fits_reduce hconsult k
      | accept => exact fits_accept hconsult

end Config

/-! ## Runs -/

/-- The run has come to an end. -/
def Step.isEnd : Step V σ → Bool
  | .running _ => false
  | _ => true

namespace Engine

variable (e : Engine α) (r : Reducer α V σ) (input : List Token) (m : σ)

/-- The machine before its first step, with room for so many slots. -/
def outset (room : Nat) : Config V σ :=
  { stack := ⟨[⟨0, r.blank, .start⟩], room, room⟩
    ahead? := none
    input
    exhausted := false
    lastSpan := .start
    quiet := 0
    memory := m
    log := #[] }

/-- Where `k` steps of a run of `n` steps lead if there is room from the start for all that so many
steps can put on the stack. -/
def unlimited (n k : Nat) : Step V σ := e.steps r k (.running (outset r input m (n + 2)))

/-- The largest number of slots that are ever held in a run of `n` steps on an unlimited stack. -/
def peak (n : Nat) : Nat :=
  (Finset.range (n + 1)).sup fun k ↦ (e.unlimited r input m n k).config.stack.length

/-- There is memory for the room that the stack begins with, and for more whenever it is used up and
the ceiling is not reached. -/
structure Reserves : Prop where
  create : ∃ s, Stack.create (V := V) e.options.initialStackDepth e.options.maxStackDepth = .ok s
  grow : ∀ k c, e.steps r k (e.start r input m) = .running c →
    c.stack.length = c.stack.capacity → c.stack.capacity < c.stack.ceiling →
      ∃ s, c.stack.grow = .ok s

/-- Two runs with the same outcome, the same record and the same memory. -/
structure Agree (x₁ x₂ : Outcome V × Config V σ) : Prop where
  outcome : x₁.1 = x₂.1
  log : x₁.2.log = x₂.2.log
  memory : x₁.2.memory = x₂.2.memory

variable {e r input m} {initial most n : Nat}

theorem Agree.trans {x₁ x₂ x₃ : Outcome V × Config V σ} (h : Agree x₁ x₂) (h' : Agree x₂ x₃) :
    Agree x₁ x₃ :=
  ⟨h.outcome.trans h'.outcome, h.log.trans h'.log, h.memory.trans h'.memory⟩

theorem Agree.symm {x₁ x₂ : Outcome V × Config V σ} (h : Agree x₁ x₂) : Agree x₂ x₁ :=
  ⟨h.outcome.symm, h.log.symm, h.memory.symm⟩

/-- The depths of the stack matter only at the start. -/
theorem step_withDepths (c : Config V σ) :
    c.step (e.withDepths initial most) r = c.step e r := by
  have hrecover : ∀ (start : Span) (c : Config V σ),
      c.recover (e.withDepths initial most) r start = c.recover e r start := by
    intro start c
    unfold Config.recover
    rw [withDepths, unwind_withOptions]
    rfl
  have hreduce : ∀ (k : Nat) (c : Config V σ),
      c.reduce (e.withDepths initial most) r k = c.reduce e r k := by
    intro k c
    cases hrule : e.grammar.rules[k]? with
    | none =>
      unfold Config.reduce
      rw [hrule, show (e.withDepths initial most).grammar = e.grammar from rfl, hrule]
    | some p =>
      rw [Config.reduce_eq (e := e.withDepths initial most) hrule rfl,
        Config.reduce_eq (e := e) hrule rfl]
      cases (r.reduce p.action (.ofSlots k p.rhs.length c.stack.slots) c.memory).1 with
      | value v => rfl
      | rejected message => exact hrecover _ _
      | fatal cause => rfl
  have hfail : ∀ (k : Nat) (c : Config V σ),
      c.fail (e.withDepths initial most) r k = c.fail e r k := by
    intro k c
    unfold Config.fail
    simp only [hrecover]
    rfl
  cases hslots : c.stack.slots with
  | nil => rw [Config.step_of_nil hslots, Config.step_of_nil hslots]
  | cons x rest =>
    rw [Config.step_of_cons hslots, Config.step_of_cons hslots]
    change Config.carryOut (e.withDepths initial most) r x.state _
      ((e.rowAt x.state).decide (c.peek e r).1.kind) = _
    cases (e.rowAt x.state).decide (c.peek e r).1.kind with
    | none => exact hfail _ _
    | some a =>
      cases a with
      | shift n => rfl
      | reduce k => exact hreduce _ _
      | accept => rfl

theorem unlimited_succ (k : Nat) :
    e.unlimited r input m n (k + 1) =
      match e.unlimited r input m n k with
      | .running u => u.step e r
      | s => s :=
  e.steps_succ r k _

/-- A run with limits has gone as far as the unlimited one, or it was given up where the unlimited
one first held more slots than the limit. -/
inductive Follows (e : Engine α) (r : Reducer α V σ) (input : List Token) (m : σ)
    (ceiling n k : Nat) (s : Step V σ) : Prop where
  | along (hfits : Step.Fits r ceiling (k + 1) (n + 2) s (e.unlimited r input m n k))
      (hsmall : ∀ j ≤ k, (e.unlimited r input m n j).config.stack.length ≤ ceiling)
  | left {j room : Nat} {u : Config V σ} (hj : j ≤ k)
      (hu : e.unlimited r input m n j = .running u) (hlength : u.stack.length = ceiling + 1)
      (hsmall : ∀ j' < j, (e.unlimited r input m n j').config.stack.length ≤ ceiling)
      (hs : s = .aborted (.stackOverflow ceiling) ((u.dropTop r).withRoom room ceiling))

/-- A run that fits follows the unlimited one, or leaves it here. -/
theorem Follows.of_fits {ceiling k : Nat} {s : Step V σ}
    (hfits : Step.Fits r ceiling (k + 1) (n + 2) s (e.unlimited r input m n k))
    (hbefore : ∀ j < k, (e.unlimited r input m n j).config.stack.length ≤ ceiling) :
    Follows e r input m ceiling n k s := by
  have hupto : (e.unlimited r input m n k).config.stack.length ≤ ceiling →
      ∀ j ≤ k, (e.unlimited r input m n j).config.stack.length ≤ ceiling := by
    intro hlast j hj
    rcases hj.lt_or_eq with hlt | rfl
    · exact hbefore j hlt
    · exact hlast
  generalize hu : e.unlimited r input m n k = t at hfits hupto
  cases hfits with
  | running room hpositive hlength hroom hmost hcapacity =>
    refine .along ?_ (hupto (hlength.trans hroom))
    rw [hu]
    exact .running room hpositive hlength hroom hmost hcapacity
  | accepted v u room hsmall =>
    refine .along ?_ (hupto hsmall)
    rw [hu]
    exact .accepted v u room hsmall
  | aborted cause u room hsmall =>
    refine .along ?_ (hupto hsmall)
    rw [hu]
    exact .aborted cause u room hsmall
  | overflow room hlength => exact .left le_rfl hu hlength hbefore rfl

/-- Wherever the room is used up, there is memory for more. -/
def Growing (e : Engine α) (r : Reducer α V σ) (input : List Token) (m : σ) (ceiling : Nat) :
    Prop :=
  ∀ k (u : Config V σ) room, e.steps r k (e.start r input m) = .running (u.withRoom room ceiling) →
    u.stack.length = room → room < ceiling → min (2 * room) ceiling < Stack.addressable

theorem Reserves.growing (h : e.Reserves r input m) (ceiling : Nat) :
    Growing e r input m ceiling := by
  intro k u room hs heq hlt
  obtain ⟨stack, hgrow⟩ := h.grow k _ hs heq hlt
  exact Stack.lt_of_grow hgrow

theorem growing_of_lt {ceiling : Nat} (h : ceiling < Stack.addressable) :
    Growing e r input m ceiling :=
  fun _ _ _ _ _ _ ↦ lt_of_le_of_lt (Nat.min_le_right ..) h

theorem follows_start {s : Stack V} (hs : Stack.create initial most = .ok s) (n : Nat) :
    Follows e r input m (max most 1) n 0 ((e.withDepths initial most).start r input m) := by
  obtain rfl : s = ⟨[], min (max initial 1) (max most 1), max most 1⟩ := Stack.reserve_eq_ok hs
  have hstart : (e.withDepths initial most).start r input m =
      .running ((outset r input m (n + 2)).withRoom (min (max initial 1) (max most 1))
        (max most 1)) := by
    unfold start
    rw [show Stack.create (e.withDepths initial most).options.initialStackDepth
      (e.withDepths initial most).options.maxStackDepth = _ from hs]
    dsimp only
    rw [Config.push_of_ok (Stack.push_of_lt _ _)]
    · rfl
    · change 0 < min (max initial 1) (max most 1)
      omega
  have hlength : (outset r input m (n + 2)).stack.length = 1 := rfl
  apply Follows.of_fits
  · rw [hstart, unlimited, steps_zero]
    apply Step.Fits.running
    · omega
    · rw [hlength]
      omega
    · exact Nat.min_le_right ..
    · exact hlength.le
    · exact le_rfl
  · exact fun j hj ↦ (Nat.not_lt_zero j hj).elim

/-- A run with limits follows the unlimited one up to the first slot that there is no room for. -/
theorem follows_steps {s : Stack V} (hs : Stack.create initial most = .ok s)
    (hgrowing : Growing (e.withDepths initial most) r input m (max most 1)) {n k : Nat}
    (hk : k ≤ n) :
    Follows e r input m (max most 1) n k ((e.withDepths initial most).steps r k
      ((e.withDepths initial most).start r input m)) := by
  induction k with
  | zero =>
    rw [steps_zero]
    exact follows_start hs n
  | succ k ih =>
    have hsucc := (e.withDepths initial most).steps_succ r k
      ((e.withDepths initial most).start r input m)
    have hnext : e.unlimited r input m n (k + 1) = _ := e.unlimited_succ k
    cases ih (Nat.le_of_succ_le hk) with
    | left hj hu hlength hsmall hs =>
      rw [hs] at hsucc
      exact .left (hj.trans (Nat.le_succ k)) hu hlength hsmall hsucc
    | along hfits hsmall =>
      refine .of_fits ?_ fun j hj ↦ hsmall j (Nat.lt_succ_iff.mp hj)
      rw [hsucc, hnext]
      have hlast := hsmall k le_rfl
      generalize hs : (e.withDepths initial most).steps r k
        ((e.withDepths initial most).start r input m) = s at hfits
      generalize e.unlimited r input m n k = t at hfits hlast
      cases hfits with
      | @running u room hpositive hlength hroom hmost hcapacity =>
        dsimp only
        rw [step_withDepths]
        apply Config.fits_step
        exact ⟨hpositive, hlength, hroom, hgrowing k u room hs, Nat.lt_succ_of_le hmost,
          Nat.add_le_add_right (Nat.le_of_succ_le hk) 2, hcapacity⟩
      | accepted v u room hsmall' => exact .accepted v u room hsmall'
      | aborted cause u room hsmall' => exact .aborted cause u room hsmall'
      | overflow room hlength => exact (Nat.not_succ_le_self _ (hlength ▸ hlast)).elim

/-! ## The end of a run -/

theorem agree_clear {u : Config V σ} {room ceiling : Nat} (o : Outcome V) :
    Agree (o, clear r (u.withRoom room ceiling)) (o, clear r u) := by
  refine ⟨rfl, ?_, ?_⟩
  · rw [log_clear, log_clear]
    rfl
  · rw [memory_clear, memory_clear]
    rfl

/-- What is left on a stack is given back in the same way, whether or not the topmost slot has been
given back before. -/
theorem agree_clear_dropTop {u : Config V σ} {room ceiling : Nat} (o : Outcome V) :
    Agree (o, clear r ((u.dropTop r).withRoom room ceiling)) (o, clear r u) := by
  apply (agree_clear o).trans
  unfold Config.dropTop
  cases hslots : u.stack.slots with
  | nil => exact ⟨rfl, rfl, rfl⟩
  | cons x rest =>
    refine ⟨rfl, ?_, ?_⟩
    · rw [log_clear, log_clear]
      rfl
    · rw [memory_clear, memory_clear, hslots]
      rfl

theorem currentLine_clear (u : Config V σ) :
    (clear r u).currentLine e = u.currentLine e := by
  unfold Config.currentLine Config.currentSpan
  rw [(Config.sameReading_clear u).ahead, (Config.sameReading_clear u).lastSpan]

/-- A run that is given up reports it. -/
theorem agree_aborted {u u' : Config V σ} {cause : Abort}
    (h : Agree (Outcome.aborted cause, clear r u) (.aborted cause, clear r u'))
    (hline : u.currentLine e = u'.currentLine e) :
    Agree ((e.withDepths initial most).finish r (.aborted cause u))
      (e.finish r (.aborted cause u')) := by
  have hfatal : Config.diagnostic (e.withDepths initial most) .fatal
      ((clear r u).currentLine (e.withDepths initial most)) cause.message =
        Config.diagnostic e .fatal ((clear r u').currentLine e) cause.message := by
    change Config.diagnostic e .fatal ((clear r u).currentLine e) cause.message = _
    rw [currentLine_clear, currentLine_clear, hline]
  unfold finish
  dsimp only
  rw [hfatal]
  constructor
  · rfl
  · exact congrArg (Array.push · _) h.log
  · exact congrArg (r.report _) h.memory

/-- After so many steps, the unlimited run first holds more slots than the ceiling allows. -/
structure Exceeds (e : Engine α) (r : Reducer α V σ) (input : List Token) (m : σ)
    (n ceiling k : Nat) (u : Config V σ) : Prop where
  reached : e.unlimited r input m n k = .running u
  length : u.stack.length = ceiling + 1
  first : ∀ j < k, (e.unlimited r input m n j).config.stack.length ≤ ceiling

theorem Exceeds.unique {ceiling k k' : Nat} {u u' : Config V σ}
    (h : Exceeds e r input m n ceiling k u) (h' : Exceeds e r input m n ceiling k' u') :
    u = u' := by
  have hk : k = k' := by
    rcases Nat.lt_trichotomy k k' with hlt | heq | hlt
    · have hle := h'.first k hlt
      rw [h.reached] at hle
      exact (Nat.not_succ_le_self _ (h.length ▸ hle)).elim
    · exact heq
    · have hle := h.first k' hlt
      rw [h'.reached] at hle
      exact (Nat.not_succ_le_self _ (h'.length ▸ hle)).elim
  subst hk
  have heq := h.reached.symm.trans h'.reached
  injection heq

theorem length_le_peak {k : Nat} (hk : k ≤ n) :
    (e.unlimited r input m n k).config.stack.length ≤ e.peak r input m n :=
  Finset.le_sup (f := fun k ↦ (e.unlimited r input m n k).config.stack.length)
    (Finset.mem_range.mpr (Nat.lt_succ_of_le hk))

/-- A run with limits comes to the same end as the unlimited one, or it is given up for want of
room. -/
theorem agree_or_exceeds (hends : ∀ u, e.unlimited r input m n n ≠ .running u)
    (hreserves : (e.withDepths initial most).Reserves r input m) {budget : Nat}
    (hbudget : n ≤ budget) :
    (e.peak r input m n ≤ max most 1 ∧
      Agree ((e.withDepths initial most).run r budget input m)
        (e.finish r (e.unlimited r input m n n))) ∨
    (max most 1 < e.peak r input m n ∧ ∃ k u, Exceeds e r input m n (max most 1) k u ∧
      Agree ((e.withDepths initial most).run r budget input m)
        (e.finish r (.aborted (.stackOverflow (max most 1)) u))) := by
  have hsplit := (e.withDepths initial most).steps_add r n (budget - n)
    ((e.withDepths initial most).start r input m)
  rw [Nat.add_sub_cancel' hbudget] at hsplit
  unfold run
  rw [hsplit]
  obtain ⟨s, hcreate⟩ : ∃ s, Stack.create (V := V) initial most = .ok s := hreserves.create
  cases follows_steps hcreate (hreserves.growing _) (le_refl n) with
  | along hfits hsmall =>
    refine Or.inl ⟨Finset.sup_le fun k hk ↦ hsmall k (Nat.lt_succ_iff.mp (Finset.mem_range.mp hk)),
      ?_⟩
    have hlast := hsmall n le_rfl
    generalize (e.withDepths initial most).steps r n
      ((e.withDepths initial most).start r input m) = s at hfits
    generalize e.unlimited r input m n n = t at hfits hends hlast
    cases hfits with
    | running => exact (hends _ rfl).elim
    | accepted v u room =>
      rw [steps_accepted]
      exact agree_clear _
    | aborted cause u room =>
      rw [steps_aborted]
      exact agree_aborted (agree_clear _) rfl
    | overflow room hlength => exact (Nat.not_succ_le_self _ (hlength ▸ hlast)).elim
  | @left k room u hk hu hlength hsmall hs =>
    have hpeak : (e.unlimited r input m n k).config.stack.length ≤ e.peak r input m n :=
      length_le_peak hk
    rw [hu, Step.config, hlength] at hpeak
    refine Or.inr ⟨hpeak, k, u, ⟨hu, hlength, hsmall⟩, ?_⟩
    rw [hs, steps_aborted]
    refine agree_aborted (agree_clear_dropTop _) ?_
    unfold Config.dropTop
    cases u.stack.slots <;> rfl

/-- There is memory enough for a stack whose ceiling can be addressed. -/
theorem reserves_of_lt (e : Engine α) (r : Reducer α V σ) (input : List Token) (m : σ)
    (hlt : max e.options.maxStackDepth 1 < Stack.addressable) : e.Reserves r input m where
  create := Stack.exists_create hlt
  grow := by
    intro k c hs hlength hless
    obtain ⟨s, hs'⟩ : ∃ s : Stack V,
        Stack.create e.options.initialStackDepth e.options.maxStackDepth = .ok s :=
      Stack.exists_create hlt
    have hfollows : Follows e r input m (max e.options.maxStackDepth 1) k k
        (e.steps r k (e.start r input m)) :=
      follows_steps hs' (growing_of_lt hlt) (le_refl k)
    rw [hs] at hfollows
    cases hfollows with
    | along hfits =>
      generalize e.unlimited r input m k k = t at hfits
      cases hfits with
      | running room =>
        unfold Stack.grow Stack.reserve
        rw [if_neg (Nat.not_le.mpr hless), if_pos]
        · exact ⟨_, rfl⟩
        · exact lt_of_le_of_lt (Nat.min_le_right ..) hlt
    | left _ _ _ _ haborted => cases haborted

/-- The growth of a stack is not noticed, and its ceiling is exact. Take a run that comes to an end
on an unlimited stack. With a ceiling that is not below the largest number of slots that it ever
holds, a run does the same and has the same result. With a lower ceiling it does the same up to the
first slot that exceeds it, and is then given up, which is the last thing that is reported. In
either case it does not matter how much room the stack begins with. -/
theorem room_transparent (e : Engine α) (r : Reducer α V σ) (input : List Token) (m : σ) {n : Nat}
    (hends : ∀ u, e.unlimited r input m n n ≠ .running u) (initial most : Nat)
    (hreserves : (e.withDepths initial most).Reserves r input m) {budget : Nat}
    (hbudget : n ≤ budget) :
    (e.peak r input m n ≤ max most 1 →
      Agree ((e.withDepths initial most).run r budget input m)
        (e.finish r (e.unlimited r input m n n))) ∧
    (max most 1 < e.peak r input m n → ∃ k u, Exceeds e r input m n (max most 1) k u ∧
      ((e.withDepths initial most).run r budget input m).1 =
        .aborted (.stackOverflow (max most 1)) ∧
      ((e.withDepths initial most).run r budget input m).2.log =
        u.log.push (.report ⟨e.context.file, u.currentLine e, .fatal,
          (Abort.stackOverflow (max most 1)).message⟩)) ∧
    ∀ initial', (e.withDepths initial' most).Reserves r input m →
      Agree ((e.withDepths initial most).run r budget input m)
        ((e.withDepths initial' most).run r budget input m) := by
  have hrun := agree_or_exceeds hends hreserves hbudget
  refine ⟨fun hle ↦ ?_, fun hlt ↦ ?_, fun initial' hreserves' ↦ ?_⟩
  · rcases hrun with ⟨-, hagree⟩ | ⟨hlt, -⟩
    · exact hagree
    · exact (Nat.not_lt.mpr hle hlt).elim
  · rcases hrun with ⟨hle, -⟩ | ⟨-, k, u, hexceeds, hagree⟩
    · exact (Nat.not_lt.mpr hle hlt).elim
    · refine ⟨k, u, hexceeds, hagree.outcome, hagree.log.trans ?_⟩
      rw [← currentLine_clear (r := r) u, ← log_clear (r := r) u]
      rfl
  · rcases hrun with ⟨hle, hagree⟩ | ⟨hlt, k, u, hexceeds, hagree⟩ <;>
      rcases agree_or_exceeds hends hreserves' hbudget with
        ⟨hle', hagree'⟩ | ⟨hlt', k', u', hexceeds', hagree'⟩
    · exact hagree.trans hagree'.symm
    · exact (Nat.not_lt.mpr hle hlt').elim
    · exact (Nat.not_lt.mpr hle' hlt).elim
    · rw [hexceeds.unique hexceeds'] at hagree
      exact hagree.trans hagree'.symm

/-- A number in two pairs of parentheses. -/
def doublyParenthesized : List Token :=
  [.bare .leftParen .start, .bare .leftParen .start, .ofText .number "1" .start,
    .bare .rightParen .start, .bare .rightParen .start]

/-- Two pairs of parentheses take four slots, one more than there are. -/
theorem room_transparent_parenthesized :
    ((∀ u, (Grammar.parenthesized.engine ⟨"main", 0⟩ {}).unlimited (.term [] [])
        doublyParenthesized #[] 9 9 ≠ .running u) ∧
      ((Grammar.parenthesized.engine ⟨"main", 0⟩ {}).withDepths 1 3).Reserves (.term [] [])
        doublyParenthesized #[] ∧
      9 ≤ 20 ∧ max 3 1 < (Grammar.parenthesized.engine ⟨"main", 0⟩ {}).peak (.term [] [])
        doublyParenthesized #[] 9) ∧
    (((Grammar.parenthesized.engine ⟨"main", 0⟩ {}).withDepths 1 3).run (.term [] []) 20
      doublyParenthesized #[]).1 = .aborted (.stackOverflow (max 3 1)) := by
  have hends : ∀ u, (Grammar.parenthesized.engine ⟨"main", 0⟩ {}).unlimited (.term [] [])
      doublyParenthesized #[] 9 9 ≠ .running u := by
    have hend : ((Grammar.parenthesized.engine ⟨"main", 0⟩ {}).unlimited (.term [] [])
        doublyParenthesized #[] 9 9).isEnd = true := by
      decide +kernel
    intro u hu
    rw [hu] at hend
    cases hend
  have hreserves := ((Grammar.parenthesized.engine ⟨"main", 0⟩ {}).withDepths 1 3).reserves_of_lt
    (.term [] []) doublyParenthesized #[] (by decide)
  have hpeak : max 3 1 < (Grammar.parenthesized.engine ⟨"main", 0⟩ {}).peak (.term [] [])
      doublyParenthesized #[] 9 := by
    decide +kernel
  refine ⟨⟨hends, hreserves, by decide, hpeak⟩, ?_⟩
  obtain ⟨-, hexceeds, -⟩ := room_transparent _ _ _ _ hends 1 3 hreserves
    (show 9 ≤ 20 by decide)
  obtain ⟨_, _, _, houtcome, _⟩ := hexceeds hpeak
  exact houtcome

end Engine

end PlainLedger
