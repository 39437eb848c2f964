import PlainLedger.Proofs.Machine.Growth

/-!
# Slots have a place

A machine only puts slots on its stack and takes slots off, so what both keep of a stack is kept by
every step. At every moment of a run there is room for the slots that are on the stack, and room
that was once made is kept. A step is given up for want of room only where a slot finds no place on
what is left of the stack.
-/

namespace PlainLedger

variable {α V σ : Type}

namespace Stack

/-- What is kept of a stack when a slot is put on it, and when slots are taken off. -/
structure Kept (J : Stack V → Prop) : Prop where
  push {s s' : Stack V} {x : Slot V} (h : J s) (hpush : s.push x = .ok s') : J s'
  drop {s : Stack V} (n : Nat) (h : J s) : J { s with slots := s.slots.drop n }

theorem kept_bounded : Kept (Bounded (V := V)) where
  push h hpush := (h.push hpush).1
  drop n h := h.drop n

theorem kept_grown (s₀ : Stack V) : Kept (s₀.Grown (W := V)) where
  push h hpush := h.trans (grown_push hpush)
  drop _ h := ⟨h.ceiling, h.widens⟩

/-- There is a place for another slot below the ceiling, if room can be made. -/
theorem Bounded.exists_push {s : Stack V} (h : s.Bounded) (hlt : s.length < s.ceiling)
    (hgrow : s.length = s.capacity → s.capacity < s.ceiling →
      min (2 * s.capacity) s.ceiling < addressable) (x : Slot V) : ∃ s', s.push x = .ok s' := by
  rcases h.length.lt_or_eq with hroom | hfull
  · exact ⟨_, push_of_lt hroom x⟩
  · have hlength : s.length = s.capacity := hfull
    have hless : s.capacity < s.ceiling := hlength ▸ hlt
    exact ⟨_, push_of_grow hlength hless (hgrow hlength hless) x⟩

end Stack

/-- If the cause is want of room, a slot finds no place on what is left of the stack when some slots
are taken off, or the reducer gives up for that reason. -/
def Overruns (r : Reducer α V σ) (s : Stack V) (cause : Abort) : Prop :=
  ∀ d, cause = .stackOverflow d → (∃ n x o, (s.popN n).2.push x = .error o) ∨
    ∃ a red m, (r.reduce a red m).1 = .fatal cause

theorem Overruns.of_popN {r : Reducer α V σ} {s : Stack V} {n : Nat} {cause : Abort}
    (h : Overruns r (s.popN n).2 cause) : Overruns r s cause := fun d hd ↦ by
  rcases h d hd with ⟨k, x, o, hpush⟩ | hfatal
  · refine Or.inl ⟨n + k, x, o, ?_⟩
    rw [← hpush]
    unfold Stack.popN
    rw [← List.drop_drop]
  · exact Or.inr hfatal

theorem Overruns.of_ne {r : Reducer α V σ} {s : Stack V} {cause : Abort}
    (h : ∀ d, cause ≠ .stackOverflow d) : Overruns r s cause := fun d hd ↦ (h d hd).elim

namespace Config

variable {e : Engine α} {r : Reducer α V σ} {c : Config V σ} {J : Stack V → Prop}

theorem snd_unwind (slots : List (Slot V)) :
    (unwind e slots).2 = slots.drop (unwind e slots).1.length := by
  by_cases h : slots = []
  · rw [h]
    rfl
  · obtain ⟨popped, x, rest, hunwind, hslots, -⟩ := unwind_spec (e := e) h
    rw [hunwind, hslots, List.drop_left]

variable (hJ : Stack.Kept J)

include hJ

theorem post_push_kept (h : J c.stack) (n : Nat) (v : V) (span : Span) :
    (c.push r n v span).Post (fun c' ↦ J c'.stack) (fun _ _ ↦ True)
      fun cause _ ↦ Overruns r c.stack cause := by
  cases hpush : c.stack.push ⟨n, v, span⟩ with
  | ok stack =>
    rw [push_of_ok hpush]
    exact hJ.push h hpush
  | error o =>
    rw [push_of_error hpush]
    exact fun _ _ ↦ Or.inl ⟨0, _, o, hpush⟩

theorem post_recover_kept (h : J c.stack) (start : Span) :
    (c.recover e r start).Post (fun c' ↦ J c'.stack) (fun _ _ ↦ True)
      fun cause _ ↦ Overruns r c.stack cause := by
  rw [recover_eq]
  split
  · exact .of_ne nofun
  · split
    · exact .of_ne nofun
    · obtain ⟨m, log, heq⟩ := c.unwound_eq (e := e) (r := r)
      rw [heq, snd_unwind]
      exact (post_push_kept hJ (hJ.drop _ h) _ _ _).imp (fun _ h ↦ h) (fun _ _ h ↦ h)
        fun _ _ h ↦ .of_popN h

theorem post_reduce_kept (h : J c.stack) (k : Nat) :
    (c.reduce e r k).Post (fun c' ↦ J c'.stack) (fun _ _ ↦ True)
      fun cause _ ↦ Overruns r c.stack cause := by
  cases hrule : e.grammar.rules[k]? with
  | none =>
    unfold reduce
    rw [hrule]
    exact .of_ne nofun
  | some p =>
    obtain ⟨out, hout⟩ : ∃ out, r.reduce p.action
        (.ofSlots k p.rhs.length c.stack.slots) c.memory = out := ⟨_, rfl⟩
    have hreduced : J (c.reduced k p out).stack := hJ.drop p.rhs.length h
    rw [reduce_eq hrule hout]
    split
    · unfold goto
      split
      · exact .of_ne nofun
      · split
        · exact .of_ne nofun
        · exact (post_push_kept hJ hreduced _ _ _).imp (fun _ h ↦ h) (fun _ _ h ↦ h)
            fun _ _ h ↦ .of_popN h
    · exact (post_recover_kept (c := (c.reduced k p out).report r _) hJ hreduced _).imp
        (fun _ h ↦ h) (fun _ _ h ↦ h) fun _ _ h ↦ .of_popN h
    · rename_i cause hfatal
      exact fun _ _ ↦ Or.inr ⟨_, _, _, (congrArg Prod.fst hout).trans hfatal⟩

theorem post_fail_kept (h : J c.stack) (n : Nat) :
    (c.fail e r n).Post (fun c' ↦ J c'.stack) (fun _ _ ↦ True)
      fun cause _ ↦ Overruns r c.stack cause := by
  have hcomplain : ((c.peek e r).2.complain e r n (c.peek e r).1).stack = c.stack := by
    rw [stack_complain, stack_peek]
  unfold fail
  dsimp only
  rw [← hcomplain] at h ⊢
  split
  · split
    · exact .of_ne nofun
    · exact post_recover_kept (c := { (c.peek e r).2.complain e r n (c.peek e r).1 with
        ahead? := none }.record _) hJ h _
  · exact post_recover_kept hJ h _

theorem post_step_kept (h : J c.stack) :
    (c.step e r).Post (fun c' ↦ J c'.stack) (fun _ _ ↦ True)
      fun cause _ ↦ Overruns r c.stack cause := by
  cases hslots : c.stack.slots with
  | nil =>
    rw [step_of_nil hslots]
    exact .of_ne nofun
  | cons x rest =>
    rw [step_of_cons hslots]
    rw [← stack_consult e r (e.rowAt x.state) c] at h ⊢
    unfold carryOut
    split
    · unfold shift
      split
      · exact .of_ne nofun
      · exact post_push_kept (c := (c.consult e r (e.rowAt x.state)).taken _ _ _) hJ h _ _ _
    · exact post_reduce_kept hJ h _
    · unfold accept
      split
      · exact .of_ne nofun
      · trivial
    · exact post_fail_kept hJ h _

end Config

/-- There is room for the slots of a run. -/
theorem Engine.post_bounded (e : Engine α) (r : Reducer α V σ) (n : Nat) (input : List Token)
    (m : σ) :
    (e.steps r n (e.start r input m)).Post (fun c ↦ c.stack.Bounded) (fun _ _ ↦ True)
      fun _ _ ↦ True := by
  refine e.post_steps r (fun c h ↦ (Config.post_step_kept Stack.kept_bounded h).imp
    (fun _ h ↦ h) (fun _ _ h ↦ h) fun _ _ _ ↦ trivial) n ?_
  unfold start
  split
  · trivial
  · rename_i hcreate
    exact (Config.post_push_kept Stack.kept_bounded (Stack.bounded_create hcreate) _ _ _).imp
      (fun _ h ↦ h) (fun _ _ h ↦ h) fun _ _ _ ↦ trivial

/-- A stack with the ceiling that was asked for. -/
def Stack.Limited (e : Engine α) (s : Stack V) : Prop :=
  s.Bounded ∧ s.ceiling = max e.options.maxStackDepth 1

theorem Stack.kept_limited (e : Engine α) : Stack.Kept (Stack.Limited e (V := V)) where
  push h hpush := ⟨(h.1.push hpush).1, (h.1.push hpush).2.trans h.2⟩
  drop n h := ⟨h.1.drop n, h.2⟩

/-- A run that never fills its stack is not given up for want of room, if there is memory. -/
theorem Engine.ne_overflow (e : Engine α) (r : Reducer α V σ) {input : List Token} {m : σ}
    (hreserves : e.Reserves r input m)
    (hr : ∀ a red m d, (r.reduce a red m).1 ≠ .fatal (.stackOverflow d))
    (hlt : ∀ n c, e.steps r n (e.start r input m) = .running c →
      c.stack.length < max e.options.maxStackDepth 1) (n : Nat) :
    (e.steps r n (e.start r input m)).Post (fun c ↦ c.stack.Limited e) (fun _ _ ↦ True)
      fun cause _ ↦ ∀ d, cause ≠ .stackOverflow d := by
  induction n with
  | zero =>
    obtain ⟨s, hcreate⟩ := hreserves.create
    have hbounded := Stack.bounded_create hcreate
    have hlimited : s.Limited e := ⟨hbounded, by rw [Stack.reserve_eq_ok hcreate]; rfl⟩
    have hlength : s.length < s.capacity := by
      rw [Stack.length, Stack.slots_create hcreate]
      exact hbounded.positive
    have hpush := Stack.push_of_lt hlength ⟨0, r.blank, .start⟩
    rw [steps_zero]
    unfold start
    rw [hcreate]
    dsimp only
    rw [Config.push_of_ok hpush]
    exact (Stack.kept_limited e).push hlimited hpush
  | succ n ih =>
    rw [steps_add]
    cases hn : e.steps r n (e.start r input m) with
    | accepted v c => trivial
    | aborted cause c =>
      rw [hn] at ih
      exact ih
    | running c =>
      rw [hn] at ih
      have hlength := hlt n c hn
      refine (Config.post_step_kept (Stack.kept_limited e) ih).imp (fun _ h ↦ h) (fun _ _ h ↦ h)
        fun cause _ hoverruns d hd ↦ ?_
      rcases hoverruns d hd with ⟨k, x, o, hfull⟩ | ⟨a, red, m, hfatal⟩
      · have hle : (c.stack.popN k).2.length ≤ c.stack.length := by
          rw [Stack.popN, Stack.length, Stack.length, List.length_drop]
          exact Nat.sub_le ..
        obtain ⟨s, hpush⟩ := Stack.Bounded.exists_push (s := (c.stack.popN k).2) (ih.1.drop k)
          (hle.trans_lt (hlength.trans_eq ih.2.symm)) (fun heq hless ↦ by
            obtain ⟨s', hgrow⟩ := hreserves.grow n c hn
              (le_antisymm ih.1.length (heq.symm.trans_le hle)) hless
            exact Stack.lt_of_grow (s := c.stack) hgrow) x
        rw [hpush] at hfull
        cases hfull
      · exact hr a red m d (hfatal.trans (congrArg _ hd))

end PlainLedger
