import PlainLedger.Proofs.Machine.Record
import PlainLedger.Proofs.Machine.Viable
import PlainLedger.Proofs.Machine.Walk

/-!
# Runs without a report

As long as nothing has been reported, a machine has done nothing but look at tokens, shift them and
complete rules. If it then accepts, everything that it has done was done for the derivation tree of
what it has accepted, and the leaves of that tree are the whole text.
-/

namespace PlainLedger

variable {α V σ : Type}

namespace Config

/-- Something has been reported. -/
def Reported (c : Config V σ) : Prop := ∃ d, .report d ∈ c.log

/-- Nothing but regular events has happened. -/
structure Clean (c : Config V σ) : Prop where
  quiet : c.quiet = 0
  ahead : ∀ t, c.ahead? = some t → t.kind ≠ .lexError
  events : ∀ ev ∈ c.log, ev.isRegular = true

variable {e : Engine α} {r : Reducer α V σ} {c c' : Config V σ}

/-! ## Reports stay -/

theorem Reported.recalls (h : c.Reported) (hc : Recalls c c') : c'.Reported := by
  obtain ⟨d, hd⟩ := h
  exact ⟨d, hc.mem hd⟩

theorem reported_report (d : Diagnostic) (c : Config V σ) : (c.report r d).Reported :=
  ⟨d, Array.mem_push_self⟩

/-! ## Clean steps -/

theorem Clean.event (h : c.Clean) (ev : Event V) (hlog : c'.log = c.log.push ev)
    (hev : ev.isRegular = true) (hquiet : c'.quiet = 0)
    (hahead : ∀ t, c'.ahead? = some t → t.kind ≠ .lexError) : c'.Clean := by
  refine ⟨hquiet, hahead, ?_⟩
  intro ev' hmem
  rw [hlog] at hmem
  rcases Array.mem_push.mp hmem with hmem | rfl
  · exact h.events ev' hmem
  · exact hev

/-- Only a token that is none is reported when it is read. -/
theorem Clean.peek (h : c.Clean) : (c.peek e r).2.Reported ∨ (c.peek e r).2.Clean := by
  cases hahead : c.ahead? with
  | some t =>
    rw [peek_of_ahead e r hahead]
    exact Or.inr h
  | none =>
    rw [peek_of_none e r hahead]
    by_cases hx : c.exhausted = true
    · rw [read_of_exhausted e r hx]
      refine Or.inr ⟨h.quiet, ?_, h.events⟩
      rintro t ht
      rw [← Option.some.inj ht]
      exact (by decide : Terminal.endOfInput ≠ .lexError)
    · cases hi : c.input with
      | nil =>
        rw [read_of_nil e r (eq_false_of_ne_true hx) hi]
        refine Or.inr (h.event (.pull none) rfl rfl h.quiet ?_)
        rintro t ht
        rw [← Option.some.inj ht]
        exact (by decide : Terminal.endOfInput ≠ .lexError)
      | cons t ts =>
        unfold read
        rw [if_neg hx, hi]
        dsimp only
        split
        · exact Or.inl ⟨_, Array.mem_push_self⟩
        · rename_i hlex
          refine Or.inr (h.event (.pull (some t)) rfl rfl h.quiet ?_)
          rintro t' ht'
          rw [← Option.some.inj ht']
          exact hlex

theorem Clean.consult (h : c.Clean) (row : Row) :
    (c.consult e r row).Reported ∨ (c.consult e r row).Clean := by
  unfold Config.consult
  split
  · exact h.peek
  · exact Or.inr h

theorem Clean.push (h : c.Clean) (n : Nat) (v : V) (span : Span) :
    (c.push r n v span).config.Clean := by
  unfold Config.push
  split <;> exact ⟨h.quiet, h.ahead, h.events⟩

theorem Clean.shift (h : c.Clean) (n : Nat) : (c.shift r n).config.Clean := by
  unfold Config.shift
  split
  · exact h
  · rename_i t _
    have htaken (v : V) (m : σ) : (c.taken t v m).Clean :=
      h.event (.shift t v) rfl rfl (congrArg (· - 1) h.quiet) (by simp [taken])
    exact (htaken _ _).push n _ _

/-- Unless something is reported or the run is given up, what is completed has a value. -/
theorem Clean.reduce (h : c.Clean) (k : Nat) :
    (c.reduce e r k).Post (fun c' ↦ c'.Reported ∨ c'.Clean) (fun _ c' ↦ c'.Reported ∨ c'.Clean)
      (fun _ _ ↦ True) := by
  cases hrule : e.grammar.rules[k]? with
  | none =>
    unfold Config.reduce
    rw [hrule]
    trivial
  | some p =>
    obtain ⟨⟨verdict, m⟩, hout⟩ : ∃ out, r.reduce p.action
      (.ofSlots k p.rhs.length c.stack.slots) c.memory = out := ⟨_, rfl⟩
    rw [reduce_eq hrule hout]
    cases verdict with
    | value v =>
      have hreduced : (c.reduced k p (.value v, m)).Clean := h.event _ rfl rfl h.quiet h.ahead
      dsimp only
      unfold Config.goto
      split
      · trivial
      · split
        · trivial
        · refine push_cases (fun stack _ ↦ Or.inr ?_) fun _ ↦ trivial
          exact ⟨hreduced.quiet, hreduced.ahead, hreduced.events⟩
    | rejected message =>
      have hreported := (reported_report (r := r) (diagnostic e .semantic (e.context.lineOf
        (Reduction.ofSlots k p.rhs.length c.stack.slots).span) message)
        (c.reduced k p (.rejected message, m))).recalls (recalls_recover (e := e) (r := r)
        (Reduction.ofSlots k p.rhs.length c.stack.slots).span _)
      exact (Step.post_of_config hreported).imp (fun _ h ↦ Or.inl h) (fun _ _ h ↦ Or.inl h)
        fun _ _ _ ↦ trivial
    | fatal cause => trivial

/-- An unexpected token is reported. -/
theorem Clean.fail (h : c.Clean) (n : Nat) : (c.fail e r n).config.Reported := by
  have hcomplain : ((c.peek e r).2.complain e r n (c.peek e r).1).Reported := by
    rcases h.peek (e := e) (r := r) with hpeek | hpeek
    · unfold Config.complain
      split
      · exact reported_report _ _
      · exact hpeek
    · have hlex := hpeek.ahead _ (c.ahead?_peek e r)
      have hspeaks : ((c.peek e r).2.quiet = 0 && !(c.peek e r).1.kind.isSilent) = true := by
        rw [kind_peek] at hlex
        simp [h.quiet, Terminal.isSilent, hlex]
      unfold Config.complain
      rw [if_pos hspeaks]
      exact reported_report _ _
  unfold Config.fail
  dsimp only
  split
  · split
    · exact hcomplain
    · exact hcomplain.recalls (Recalls.trans (.event (.discard _) rfl) (recalls_recover _ _))
  · exact hcomplain.recalls (recalls_recover _ _)

/-- A step reports something, or it is a clean one, or it ends the run without a value. -/
theorem post_step_clean {x : Slot V} {rest : List (Slot V)} {row : Row}
    (hslots : c.stack.slots = x :: rest) (hrow : e.row? x.state = some row)
    (h : c.Reported ∨ c.Clean) :
    (c.step e r).Post (fun c' ↦ c'.Reported ∨ c'.Clean) (fun _ c' ↦ c'.Reported ∨ c'.Clean)
      (fun _ _ ↦ True) := by
  have hreported : ∀ {s : Step V σ}, s.config.Reported →
      s.Post (fun c' ↦ c'.Reported ∨ c'.Clean) (fun _ c' ↦ c'.Reported ∨ c'.Clean)
        (fun _ _ ↦ True) := fun h ↦
    (Step.post_of_config h).imp (fun _ h ↦ Or.inl h) (fun _ _ h ↦ Or.inl h) fun _ _ _ ↦ trivial
  rcases h with h | h
  · exact hreported (h.recalls (recalls_step _))
  · have hconsult := h.consult (e := e) (r := r) row
    rw [step_eq e r hslots hrow]
    rcases hconsult with hconsult | hconsult
    · split
      · exact hreported (hconsult.recalls (recalls_shift _ _))
      · exact hreported (hconsult.recalls (recalls_reduce _ _))
      · unfold accept
        split
        · trivial
        · exact Or.inl hconsult
      · exact hreported (hconsult.recalls (recalls_fail _ _))
    · split
      · exact (Step.post_of_config (hconsult.shift _)).imp (fun _ h ↦ Or.inr h)
          (fun _ _ h ↦ Or.inr h) fun _ _ _ ↦ trivial
      · exact hconsult.reduce _
      · unfold accept
        split
        · trivial
        · exact Or.inr ⟨hconsult.quiet, hconsult.ahead, hconsult.events⟩
      · exact hreported (hconsult.fail _)

theorem clean_start (input : List Token) (m : σ) : (e.start r input m).config.Clean := by
  unfold Engine.start
  dsimp only
  split
  · exact ⟨rfl, by simp [Step.config], by simp [Step.config]⟩
  · refine Clean.push ?_ _ _ _
    exact ⟨rfl, by simp, by simp⟩

end Config

/-! ## The tree of a clean run -/

/-- In a clean run, all that has been done was done for the trees on the stack. -/
theorem Grown.of_clean {e : Engine α} {r : Reducer α V σ} {m₀ m : σ} {evs : List (Event V)}
    {slots : List (Slot V)} (h : Trace e r m₀ evs slots m)
    (hclean : ∀ ev ∈ evs, ev.isRegular = true) :
    ∃ xs, Grown e.grammar r slots xs (evs.filter fun ev ↦ !ev.isPull) := by
  induction h with
  | start => exact ⟨[], .bottom rfl⟩
  | @snoc evs _ _ _ _ ev h hev ih =>
    obtain ⟨xs, hgrown⟩ := ih fun ev hmem ↦ hclean ev (List.mem_append_left _ hmem)
    have hregular := hclean ev (List.mem_append_right _ (List.mem_singleton.mpr rfl))
    rw [List.filter_append]
    cases hev with
    | pull =>
      rw [List.filter_cons_of_neg (by simp [Event.isPull]), List.filter_nil, List.append_nil]
      exact ⟨xs, hgrown⟩
    | shift hedge hvalue =>
      exact ⟨_, hgrown.push hedge (.leaf (.token _) .nil) (.token _ hvalue .nil)⟩
    | reduce hrule hhas hbelow hedge hverdict =>
      obtain ⟨f, evs₁, evs₂, hevs, hf, hgrown'⟩ := hgrown.reduce hrule hhas hverdict
      rw [hbelow] at hgrown'
      rw [hevs, List.append_assoc]
      exact ⟨_, hgrown'.push hedge f hf⟩
    | report | discard | reject | pop | resume => cases hregular

/-- The tokens that have been shifted are none that the grammar does not mention. -/
theorem Trace.consumed_ne {e : Engine α} {r : Reducer α V σ} {m₀ m : σ} {evs : List (Event V)}
    {slots : List (Slot V)} (h : Trace e r m₀ evs slots m) {u : Terminal}
    (hedge : ∀ n n', ¬e.grammar.Edge n (.terminal u) n')
    (hclean : ∀ ev ∈ evs, ev.isRegular = true) :
    ∀ t ∈ evs.filterMap Event.consumed?, t.kind ≠ u := by
  induction h with
  | start => simp
  | @snoc evs _ _ _ _ ev h hev ih =>
    have hbefore := ih fun ev hmem ↦ hclean ev (List.mem_append_left _ hmem)
    have hregular := hclean ev (List.mem_append_right _ (List.mem_singleton.mpr rfl))
    intro t ht
    rw [List.filterMap_append, List.mem_append] at ht
    rcases ht with ht | ht
    · exact hbefore t ht
    · cases hev with
      | shift hedge' _ =>
        rw [List.mem_singleton.mp ht]
        rintro rfl
        exact hedge _ _ hedge'
      | pull | reduce => cases ht
      | report | discard | reject | pop | resume => cases hregular

/-- In a clean run, the leaves are the tokens that have been used up. -/
theorem leaves_of_clean {evs : List (Event V)} (h : ∀ ev ∈ evs, ev.isRegular = true) :
    (evs.filter fun ev ↦ !ev.isPull).filterMap Event.leaf? =
      (evs.filterMap Event.consumed?).map Leaf.token := by
  induction evs with
  | nil => rfl
  | cons ev evs ih =>
    rw [List.forall_mem_cons] at h
    cases ev with
    | shift t v => exact congrArg (Leaf.token t :: ·) (ih h.2)
    | pull | reduce => exact ih h.2
    | report | discard | pop | resume => cases h.1

namespace Config

variable {e : Engine α} {r : Reducer α V σ} {c c' : Config V σ} {input : List Token}

/-- When the end of the text is next, everything before it has been used up. -/
theorem InOrder.consumed_eq (h : c.InOrder input) (hpending : c.pending = [])
    (hne : ∀ t ∈ c.consumed, t.kind ≠ .endOfInput) :
    c.consumed = input.takeWhile fun t ↦ t.kind ≠ .endOfInput := by
  obtain ⟨ends, hends, heq, hlast, -⟩ := h
  have hahead : (c.ahead?.toList ++ c.input).takeWhile (fun t ↦ t.kind ≠ .endOfInput) = [] := by
    rw [pending] at hpending
    split at hpending
    · rename_i hx
      rw [hlast (Or.inl hx)]
      exact hpending
    · exact hpending
  have hends' : ends.takeWhile (fun t ↦ t.kind ≠ .endOfInput) = [] := by
    cases ends with
    | nil => rfl
    | cons t ends => simp [hends t (List.mem_cons_self ..)]
  have hconsumed : ∀ t ∈ c.consumed, (decide (t.kind ≠ .endOfInput)) = true :=
    fun t ht ↦ decide_eq_true (hne t ht)
  have hboth := congrArg (List.takeWhile fun t : Token ↦ decide (t.kind ≠ .endOfInput)) heq
  rw [List.append_assoc, List.takeWhile_append_of_pos hconsumed, hahead, List.append_nil] at hboth
  rw [hboth, List.takeWhile_append, hends', List.append_nil]
  split
  · rename_i hall
    exact ((List.takeWhile_prefix _).eq_of_length hall).symm
  · rfl

end Config

end PlainLedger
