import PlainLedger.Proofs.Machine.Run

/-!
# Reading in order

Tokens are shifted or dropped in the order of the source. What comes after the last of them are ends
of input, as many as the machine asks for.
-/

namespace PlainLedger

variable {α V σ : Type}

/-- The token that an event shifts or drops. -/
def Event.consumed? : Event V → Option Token
  | .shift t _ => some t
  | .discard t => some t
  | _ => none

/-- The token that the source has answered with. -/
def Event.pulled? : Event V → Option Token
  | .pull token? => token?
  | _ => none

namespace Config

/-- The tokens that have been shifted or dropped. -/
def consumed (c : Config V σ) : List Token := c.log.toList.filterMap Event.consumed?

/-- The tokens that have been read. -/
def pulled (c : Config V σ) : List Token := c.log.toList.filterMap Event.pulled?

theorem consumed_record (ev : Event V) (c : Config V σ) :
    (c.record ev).consumed = c.consumed ++ ev.consumed?.toList := by
  unfold consumed record
  rw [Array.toList_push, List.filterMap_append]
  cases h : ev.consumed? <;> simp [h]

theorem pulled_record (ev : Event V) (c : Config V σ) :
    (c.record ev).pulled = c.pulled ++ ev.pulled?.toList := by
  unfold pulled record
  rw [Array.toList_push, List.filterMap_append]
  cases h : ev.pulled? <;> simp [h]

/-- Neither is a token read nor is one used up. -/
structure SameReading (c c' : Config V σ) : Prop where
  consumed : c'.consumed = c.consumed
  pulled : c'.pulled = c.pulled
  ahead : c'.ahead? = c.ahead?
  input : c'.input = c.input
  exhausted : c'.exhausted = c.exhausted
  lastSpan : c'.lastSpan = c.lastSpan

/-- The source is the tokens used up, the one read ahead and those not yet read; ends of input come
after it. It is also the tokens that have been read and those that have not. -/
def InOrder (input : List Token) (c : Config V σ) : Prop :=
  ∃ ends : List Token, (∀ t ∈ ends, t.kind = .endOfInput) ∧
    c.consumed ++ c.ahead?.toList ++ c.input = input ++ ends ∧
    (c.exhausted = true ∨ ends ≠ [] → c.input = []) ∧ c.pulled ++ c.input = input

variable {e : Engine α} {r : Reducer α V σ} {input : List Token} {c c' : Config V σ}

theorem SameReading.refl (c : Config V σ) : SameReading c c := ⟨rfl, rfl, rfl, rfl, rfl, rfl⟩

theorem SameReading.trans {c'' : Config V σ} (h : SameReading c c') (h' : SameReading c' c'') :
    SameReading c c'' :=
  ⟨h'.consumed.trans h.consumed, h'.pulled.trans h.pulled, h'.ahead.trans h.ahead,
    h'.input.trans h.input, h'.exhausted.trans h.exhausted, h'.lastSpan.trans h.lastSpan⟩

/-- An event that is not about a token is recorded. -/
theorem SameReading.event (ev : Event V) (hlog : c'.log = c.log.push ev)
    (hconsumed : ev.consumed? = none) (hpulled : ev.pulled? = none) (hahead : c'.ahead? = c.ahead?)
    (hinput : c'.input = c.input) (hexhausted : c'.exhausted = c.exhausted)
    (hlast : c'.lastSpan = c.lastSpan) : SameReading c c' := by
  have hused := consumed_record ev c
  have hread := pulled_record ev c
  rw [hconsumed, Option.toList_none, List.append_nil] at hused
  rw [hpulled, Option.toList_none, List.append_nil] at hread
  refine ⟨Eq.trans ?_ hused, Eq.trans ?_ hread, hahead, hinput, hexhausted, hlast⟩
  · exact congrArg (fun log ↦ log.toList.filterMap Event.consumed?) hlog
  · exact congrArg (fun log ↦ log.toList.filterMap Event.pulled?) hlog

theorem sameReading_report (d : Diagnostic) (c : Config V σ) : SameReading c (c.report r d) :=
  .event (.report d) rfl rfl rfl rfl rfl rfl rfl

theorem InOrder.of_same (h : c.InOrder input) (hsame : SameReading c c') : c'.InOrder input := by
  obtain ⟨ends, hends, heq, hlast, hpulled⟩ := h
  refine ⟨ends, hends, ?_, ?_, ?_⟩
  · rw [hsame.consumed, hsame.ahead, hsame.input]
    exact heq
  · rw [hsame.exhausted, hsame.input]
    exact hlast
  · rw [hsame.pulled, hsame.input]
    exact hpulled

/-! ## Parts of a step that leave the tokens alone -/

theorem sameReading_complain (n : Nat) (t : Token) (c : Config V σ) :
    SameReading c (c.complain e r n t) := by
  unfold complain
  split
  · exact sameReading_report _ c
  · exact .refl c

theorem sameReading_push (n : Nat) (v : V) (span : Span) (c : Config V σ) :
    SameReading c (c.push r n v span).config := by
  unfold push
  split
  · exact ⟨rfl, rfl, rfl, rfl, rfl, rfl⟩
  · exact ⟨rfl, rfl, rfl, rfl, rfl, rfl⟩

theorem sameReading_goto (lhs rule : Nat) (v : V) (span : Span) (c : Config V σ) :
    SameReading c (c.goto e r lhs rule v span).config := by
  unfold goto
  split
  · exact ⟨rfl, rfl, rfl, rfl, rfl, rfl⟩
  · split
    · exact ⟨rfl, rfl, rfl, rfl, rfl, rfl⟩
    · exact sameReading_push _ v span c

theorem sameReading_popped (popped : List (Slot V)) (c : Config V σ) :
    SameReading c (popped.foldl (fun c x ↦ (c.release r x.value).record (.pop x)) c) := by
  induction popped generalizing c with
  | nil => exact .refl c
  | cons x popped ih =>
    have hpop : SameReading c ((c.release r x.value).record (.pop x)) :=
      .event (.pop x) rfl rfl rfl rfl rfl rfl rfl
    exact hpop.trans (ih _)

theorem sameReading_recover (start : Span) (c : Config V σ) :
    SameReading c (c.recover e r start).config := by
  have hpopped := sameReading_popped (r := r) (unwind e c.stack.slots).1
    { c with
      stack := { c.stack with slots := (unwind e c.stack.slots).2 }
      quiet := e.options.recoveryShifts }
  have hslots : SameReading c
      { c with
        stack := { c.stack with slots := (unwind e c.stack.slots).2 }
        quiet := e.options.recoveryShifts } := ⟨rfl, rfl, rfl, rfl, rfl, rfl⟩
  replace hpopped := hslots.trans hpopped
  unfold recover
  dsimp only
  split
  · exact hpopped
  · split
    · exact hpopped
    · refine hpopped.trans (.trans ?_ (sameReading_push _ _ _ _))
      exact .event (.resume _ _) rfl rfl rfl rfl rfl rfl rfl

theorem sameReading_reduce (k : Nat) (c : Config V σ) :
    SameReading c (c.reduce e r k).config := by
  cases hrule : e.grammar.rules[k]? with
  | none =>
    unfold reduce
    rw [hrule]
    exact .refl c
  | some p =>
    have hreduced : ∀ out : Verdict V × σ, SameReading c (c.reduced k p out) :=
      fun out ↦ .event (.reduce _ out.1) rfl rfl rfl rfl rfl rfl rfl
    rw [reduce_eq hrule rfl]
    split
    · exact (hreduced _).trans (sameReading_goto _ _ _ _ _)
    · exact (hreduced _).trans ((sameReading_report _ _).trans (sameReading_recover _ _))
    · exact hreduced _

theorem sameReading_accept (c : Config V σ) : SameReading c c.accept.config := by
  unfold accept
  split <;> exact ⟨rfl, rfl, rfl, rfl, rfl, rfl⟩

theorem sameReading_clear (c : Config V σ) : SameReading c (Engine.clear r c) := by
  unfold Engine.clear
  have hslots : ∀ (slots : List (Slot V)) (c : Config V σ),
      SameReading c (slots.foldl (fun c x ↦ c.release r x.value) c) := by
    intro slots
    induction slots with
    | nil => exact fun c ↦ .refl c
    | cons x slots ih =>
      intro c
      have hrelease : SameReading c (c.release r x.value) := ⟨rfl, rfl, rfl, rfl, rfl, rfl⟩
      exact hrelease.trans (ih _)
  have hempty : SameReading c { c with stack := { c.stack with slots := [] } } :=
    ⟨rfl, rfl, rfl, rfl, rfl, rfl⟩
  exact hempty.trans (hslots _ _)

/-! ## Parts of a step that read or use up a token -/

theorem InOrder.read (h : c.InOrder input) (hahead : c.ahead? = none) :
    { (c.read e r).2 with ahead? := some (c.read e r).1 }.InOrder input := by
  obtain ⟨ends, hends, heq, hlast, hpulled⟩ := h
  rw [hahead, Option.toList_none, List.append_nil] at heq
  by_cases hx : c.exhausted = true
  · have hinput := hlast (Or.inl hx)
    rw [read_of_exhausted e r hx]
    refine ⟨ends ++ [.endOfInput c.lastSpan.endPoint], ?_, ?_, fun _ ↦ hinput, hpulled⟩
    · simpa [or_imp, forall_and] using hends
    · rw [hinput, List.append_nil] at heq
      change c.consumed ++ [_] ++ c.input = _
      rw [hinput, heq, List.append_nil, List.append_assoc]
  · cases hi : c.input with
    | nil =>
      rw [read_of_nil e r (eq_false_of_ne_true hx) hi]
      refine ⟨ends ++ [.endOfInput c.lastSpan.endPoint], ?_, ?_, fun _ ↦ hi, ?_⟩
      · simpa [or_imp, forall_and] using hends
      · rw [hi, List.append_nil] at heq
        change (c.record (.pull none)).consumed ++ [_] ++ c.input = _
        rw [consumed_record, hi, heq]
        simp [Event.consumed?]
      · change (c.record (.pull none)).pulled ++ c.input = _
        rw [pulled_record, ← hpulled]
        simp [Event.pulled?]
    | cons t rest =>
      have hnil : ends = [] := by
        by_contra hne
        rw [hlast (Or.inr hne)] at hi
        cases hi
      have hread : (c.read e r).1 = t ∧ (c.read e r).2.consumed = c.consumed ∧
          (c.read e r).2.pulled = c.pulled ++ [t] ∧ (c.read e r).2.input = rest ∧
          (c.read e r).2.exhausted = false := by
        have hconsumed : ({ c with input := rest }.record (.pull (some t))).consumed = c.consumed :=
          (consumed_record _ _).trans (List.append_nil _)
        have hpull : ({ c with input := rest }.record (.pull (some t))).pulled = c.pulled ++ [t] :=
          pulled_record _ _
        unfold Config.read
        rw [if_neg hx, hi]
        dsimp only
        split
        · have hsame := fun d ↦ sameReading_report (r := r) d
            ({ c with input := rest }.record (.pull (some t)))
          exact ⟨rfl, (hsame _).consumed.trans hconsumed, (hsame _).pulled.trans hpull, rfl,
            eq_false_of_ne_true hx⟩
        · exact ⟨rfl, hconsumed, hpull, rfl, eq_false_of_ne_true hx⟩
      obtain ⟨htoken, hconsumed, hpull, hrest, hexhausted⟩ := hread
      refine ⟨[], by simp, ?_, ?_, ?_⟩
      · change (c.read e r).2.consumed ++ [(c.read e r).1] ++ (c.read e r).2.input = _
        rw [hnil] at heq
        rw [hconsumed, htoken, hrest, ← heq, hi, List.append_assoc]
        rfl
      · rintro (hexhausted' | hne)
        · exact absurd (hexhausted.symm.trans hexhausted') (by decide)
        · exact (hne rfl).elim
      · change (c.read e r).2.pulled ++ (c.read e r).2.input = _
        rw [hpull, hrest, ← hpulled, hi, List.append_assoc]
        rfl

theorem InOrder.peek (h : c.InOrder input) : (c.peek e r).2.InOrder input := by
  cases hahead : c.ahead? with
  | some t => rwa [peek_of_ahead e r hahead]
  | none =>
    rw [peek_of_none e r hahead]
    exact h.read hahead

theorem InOrder.consult (h : c.InOrder input) (row : Row) : (c.consult e r row).InOrder input := by
  unfold Config.consult
  split
  · exact h.peek
  · exact h

/-- The token read ahead is shifted or dropped. -/
theorem InOrder.consume {t : Token} (h : c.InOrder input) (hahead : c.ahead? = some t)
    (hconsumed : c'.consumed = c.consumed ++ [t]) (hpulled' : c'.pulled = c.pulled)
    (hahead' : c'.ahead? = none) (hinput : c'.input = c.input)
    (hexhausted : c'.exhausted = c.exhausted) : c'.InOrder input := by
  obtain ⟨ends, hends, heq, hlast, hpulled⟩ := h
  rw [hahead] at heq
  refine ⟨ends, hends, ?_, ?_, ?_⟩
  · rw [hconsumed, hahead', hinput, ← heq]
    simp
  · rw [hexhausted, hinput]
    exact hlast
  · rw [hpulled', hinput]
    exact hpulled

theorem InOrder.shift (h : c.InOrder input) (n : Nat) : (c.shift r n).config.InOrder input := by
  unfold Config.shift
  cases hahead : c.ahead? with
  | none => exact h
  | some t =>
    refine InOrder.of_same ?_ (sameReading_push n _ _ _)
    exact h.consume hahead (consumed_record _ _) ((pulled_record _ _).trans (List.append_nil _))
      rfl rfl rfl

theorem InOrder.fail (h : c.InOrder input) (n : Nat) :
    (c.fail e r n).config.InOrder input := by
  have hcomplain : ((c.peek e r).2.complain e r n (c.peek e r).1).InOrder input :=
    h.peek.of_same (sameReading_complain n _ _)
  have hahead : ((c.peek e r).2.complain e r n (c.peek e r).1).ahead? = some (c.peek e r).1 :=
    (sameReading_complain n _ _).ahead.trans (c.ahead?_peek e r)
  unfold Config.fail
  dsimp only
  split
  · split
    · exact hcomplain
    · refine InOrder.of_same ?_ (sameReading_recover _ _)
      exact hcomplain.consume hahead (consumed_record _ _)
        ((pulled_record _ _).trans (List.append_nil _)) rfl rfl rfl
  · exact hcomplain.of_same (sameReading_recover _ _)

theorem InOrder.step {x : Slot V} {rest : List (Slot V)} {row : Row} (h : c.InOrder input)
    (hslots : c.stack.slots = x :: rest) (hrow : e.row? x.state = some row) :
    (c.step e r).config.InOrder input := by
  rw [step_eq e r hslots hrow]
  have hconsult := h.consult (e := e) (r := r) row
  split
  · exact hconsult.shift _
  · exact hconsult.of_same (sameReading_reduce _ _)
  · exact hconsult.of_same (sameReading_accept _)
  · exact hconsult.fail _

/-- No token has been used up at first. -/
theorem inOrder_start (input : List Token) (m : σ) : (e.start r input m).config.InOrder input := by
  unfold Engine.start
  dsimp only
  split
  · exact ⟨[], by simp, by simp [consumed, Step.config], by simp [Step.config],
      by simp [pulled, Step.config]⟩
  · refine InOrder.of_same ?_ (sameReading_push _ _ _ _)
    exact ⟨[], by simp, by simp [consumed], by simp, by simp [pulled]⟩

/-! ## What is ahead -/

/-- The token ahead is the last one that was read, unless the source has said that it has no more;
then only an end of input can be ahead. -/
def Facing (c : Config V σ) : Prop :=
  (c.exhausted = true ∧ ∀ t ∈ c.ahead?, t.kind = .endOfInput) ∨
    c.exhausted = false ∧ (∀ t ∈ c.ahead?, t.span = c.lastSpan) ∧
      ∀ t ∈ c.ahead?.toList ++ c.input, t.kind ≠ .endOfInput

theorem Facing.of_same (h : c.Facing) (hsame : SameReading c c') : c'.Facing := by
  unfold Facing
  rwa [hsame.exhausted, hsame.ahead, hsame.lastSpan, hsame.input]

theorem Facing.peek (h : c.Facing) : (c.peek e r).2.Facing := by
  cases hahead : c.ahead? with
  | some t => rwa [peek_of_ahead e r hahead]
  | none =>
    rw [peek_of_none e r hahead]
    rcases h with ⟨hexhausted, -⟩ | ⟨hexhausted, -, hends⟩
    · rw [read_of_exhausted e r hexhausted]
      exact Or.inl ⟨hexhausted, fun t ht ↦ Option.some.inj ht ▸ rfl⟩
    · rw [hahead] at hends
      cases hinput : c.input with
      | nil =>
        rw [read_of_nil e r hexhausted hinput]
        exact Or.inl ⟨rfl, fun t ht ↦ Option.some.inj ht ▸ rfl⟩
      | cons t ts =>
        rw [hinput] at hends
        unfold Config.read
        rw [if_neg (ne_true_of_eq_false hexhausted), hinput]
        refine Or.inr ⟨?_, fun u hu ↦ Option.some.inj hu ▸ rfl, ?_⟩ <;> dsimp only <;> split
        · exact hexhausted
        · exact hexhausted
        · exact hends
        · exact hends

theorem Facing.consult (h : c.Facing) (row : Row) : (c.consult e r row).Facing := by
  unfold Config.consult
  split
  · exact h.peek
  · exact h

/-- The token ahead is used up. -/
theorem Facing.consume (h : c.Facing) (hahead : c'.ahead? = none) (hinput : c'.input = c.input)
    (hexhausted : c'.exhausted = c.exhausted) : c'.Facing := by
  unfold Facing
  rw [hahead, hinput, hexhausted]
  rcases h with ⟨hexhausted, -⟩ | ⟨hexhausted, -, hends⟩
  · exact Or.inl ⟨hexhausted, nofun⟩
  · exact Or.inr ⟨hexhausted, nofun, fun t ht ↦ hends t (List.mem_append_right _ ht)⟩

theorem Facing.shift (h : c.Facing) (n : Nat) : (c.shift r n).config.Facing := by
  unfold Config.shift
  split
  · exact h
  · refine Facing.of_same ?_ (sameReading_push n _ _ _)
    exact h.consume rfl rfl rfl

theorem Facing.fail (h : c.Facing) (n : Nat) : (c.fail e r n).config.Facing := by
  have hcomplain : ((c.peek e r).2.complain e r n (c.peek e r).1).Facing :=
    h.peek.of_same (sameReading_complain n _ _)
  unfold Config.fail
  dsimp only
  split
  · split
    · exact hcomplain
    · refine Facing.of_same ?_ (sameReading_recover _ _)
      exact hcomplain.consume rfl rfl rfl
  · exact hcomplain.of_same (sameReading_recover _ _)

theorem Facing.step {x : Slot V} {rest : List (Slot V)} {row : Row} (h : c.Facing)
    (hslots : c.stack.slots = x :: rest) (hrow : e.row? x.state = some row) :
    (c.step e r).config.Facing := by
  rw [step_eq e r hslots hrow]
  have hconsult := h.consult (e := e) (r := r) row
  split
  · exact hconsult.shift _
  · exact hconsult.of_same (sameReading_reduce _ _)
  · exact hconsult.of_same (sameReading_accept _)
  · exact hconsult.fail _

/-- As long as there is text, the tokens that are left are the one ahead and those not read. -/
theorem Facing.pending_eq (h : c.Facing) (hpending : c.pending ≠ []) :
    c.exhausted = false ∧ (∀ t ∈ c.ahead?, t.span = c.lastSpan) ∧
      c.pending = c.ahead?.toList ++ c.input := by
  unfold pending at hpending ⊢
  rcases h with ⟨hexhausted, hends⟩ | ⟨hexhausted, hspan, hends⟩
  · refine (hpending ?_).elim
    rw [hexhausted, if_pos rfl, List.append_nil]
    cases hahead : c.ahead? with
    | none => rfl
    | some t => exact List.takeWhile_cons_of_neg (by simp [hends t hahead])
  · rw [hexhausted]
    exact ⟨rfl, hspan, List.takeWhile_eq_self_iff.mpr fun t ht ↦ decide_eq_true (hends t ht)⟩

end Config

end PlainLedger
