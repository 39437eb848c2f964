import PlainLedger.Proofs.Machine.Membership
import PlainLedger.Proofs.Machine.Recoveries

/-!
# Faults

What goes wrong first is reported, even though later errors may be kept quiet about, and an error
that does not end a run is followed by recovery. So if no rule of the grammar mentions the token
that is none, a text that is accepted has been recovered in if and only if something has been
reported.
-/

namespace PlainLedger

variable {α V σ : Type}

/-- The token that an event shifts. -/
def Event.shifted? : Event V → Option Token
  | .shift t _ => some t
  | _ => none

namespace Config

/-- The tokens that have been shifted. -/
def shifted (c : Config V σ) : List Token := c.log.toList.filterMap Event.shifted?

theorem shifted_record (ev : Event V) (c : Config V σ) :
    (c.record ev).shifted = c.shifted ++ ev.shifted?.toList := by
  unfold shifted record
  rw [Array.toList_push, List.filterMap_append]
  cases h : ev.shifted? <;> simp [h]

theorem shifted_peek (e : Engine α) (r : Reducer α V σ) (c : Config V σ) :
    (c.peek e r).2.shifted = c.shifted :=
  filterMap_log_peek (fun ev hev ↦ by cases ev <;> first | rfl | cases hev) c

/-- The machine has gone on after an error or is going to, for the token ahead is none. -/
def Marred (c : Config V σ) : Prop :=
  0 < c.recoveries ∨ ∃ t, c.ahead? = some t ∧ t.kind = .lexError

/-- No completed rule was rejected, recovery never went on, and every token that was read before the
end of the text was shifted, and none was dropped. -/
structure Faultless (c : Config V σ) : Prop where
  rejected : ∀ red message, .reduce red (.rejected message) ∉ c.log
  resumed : ∀ n span, .resume n span ∉ c.log
  discarded : ∀ t, .discard t ∉ c.log
  shifted : c.shifted = c.pulled.takeWhile fun t ↦ t.kind ≠ .endOfInput

variable {e : Engine α} {r : Reducer α V σ} {c c' : Config V σ}

theorem Clean.not_reported (h : c.Clean) : ¬c.Reported := by
  rintro ⟨d, hd⟩
  cases h.events _ hd

theorem Clean.recoveries_eq (h : c.Clean) : c.recoveries = 0 := by
  refine Array.countP_eq_zero.mpr fun ev hev ↦ ?_
  have hregular := h.events ev hev
  cases ev with
  | resume n span => cases hregular
  | _ => exact Bool.false_ne_true

theorem reported_iff_acts : c.Reported ↔ ∃ d, .report d ∈ c.acts := by
  constructor
  · rintro ⟨d, hd⟩
    exact ⟨d, List.mem_filter.mpr ⟨Array.mem_def.mp hd, rfl⟩⟩
  · rintro ⟨d, hd⟩
    exact ⟨d, Array.mem_def.mpr (List.mem_filter.mp hd).1⟩

theorem Clean.peek_marred (h : c.Clean) : (c.peek e r).2.Marred ∨ (c.peek e r).2.Clean := by
  by_cases hlex : (c.peek e r).1.kind = .lexError
  · exact Or.inl (Or.inr ⟨_, c.ahead?_peek e r, hlex⟩)
  · refine Or.inr (h.peek.resolve_left fun hreported ↦ h.not_reported ?_)
    rw [kind_peek] at hlex
    obtain ⟨-, hacts⟩ := peek_of_ne_lexError (e := e) (r := r) hlex
    rwa [reported_iff_acts, hacts, ← reported_iff_acts] at hreported

theorem consult_marred (h : c.Marred ∨ c.Clean) (row : Row) :
    (c.consult e r row).Marred ∨ (c.consult e r row).Clean := by
  unfold Config.consult
  split
  · rcases h with (hresumed | ⟨t, hahead, hlex⟩) | h
    · refine Or.inl (Or.inl ?_)
      rwa [recoveries_peek]
    · rw [peek_of_ahead e r hahead]
      exact Or.inl (Or.inr ⟨t, hahead, hlex⟩)
    · exact h.peek_marred
  · exact h

/-- A completed rule leaves the token ahead alone. -/
theorem post_reduce_marred (h : c.Marred ∨ c.Clean) (k : Nat) :
    (c.reduce e r k).Post (fun c' ↦ c'.Marred ∨ c'.Clean) (fun _ _ ↦ False) fun _ _ ↦ True := by
  cases hrule : e.grammar.rules[k]? with
  | none =>
    unfold Config.reduce
    rw [hrule]
    trivial
  | some p =>
    obtain ⟨⟨verdict, m⟩, hout⟩ : ∃ out, r.reduce p.action
      (.ofSlots k p.rhs.length c.stack.slots) c.memory = out := ⟨_, rfl⟩
    rw [reduce_eq hrule hout]
    cases verdict with
    | value v =>
      have hreduced : (c.reduced k p (.value v, m)).Marred ∨
          (c.reduced k p (.value v, m)).Clean := by
        rcases h with (hresumed | hahead) | h
        · refine Or.inl (Or.inl ?_)
          rwa [recoveries_reduced]
        · exact Or.inl (Or.inr hahead)
        · exact Or.inr (h.event _ rfl rfl h.quiet h.ahead)
      dsimp only
      unfold Config.goto
      split
      · trivial
      · split
        · trivial
        · refine push_cases (fun stack _ ↦ ?_) fun _ ↦ trivial
          exact hreduced.imp id fun h ↦ ⟨h.quiet, h.ahead, h.events⟩
    | rejected message =>
      exact (post_recover_recoveries _ _).imp (fun _ h ↦ Or.inl (Or.inl h)) (fun _ _ h ↦ h)
        fun _ _ h ↦ h
    | fatal cause => trivial

/-- An unexpected token is followed by recovery, unless the run is given up. -/
theorem post_fail_recoveries (n : Nat) (c : Config V σ) :
    (c.fail e r n).Post (fun c' ↦ 0 < c'.recoveries) (fun _ _ ↦ False) fun _ _ ↦ True := by
  unfold Config.fail
  dsimp only
  split
  · split
    · trivial
    · exact post_recover_recoveries _ _
  · exact post_recover_recoveries _ _

/-- If no rule mentions the token that is none, it is neither shifted nor accepted. -/
theorem post_step_marred (hg : e.tables = e.grammar.tables)
    (hlex : ∀ n n', ¬e.grammar.Edge n (.terminal .lexError) n') {x : Slot V} {rest : List (Slot V)}
    {row : Row} (hslots : c.stack.slots = x :: rest) (hrow : e.row? x.state = some row)
    (h : c.Marred ∨ c.Clean) :
    (c.step e r).Post (fun c' ↦ c'.Marred ∨ c'.Clean) (fun _ c' ↦ 0 < c'.recoveries ∨ c'.Clean)
      fun _ _ ↦ True := by
  have hconsult := consult_marred (e := e) (r := r) h row
  have hrow' : e.grammar.tables.row? x.state = some row := hg ▸ hrow
  rw [step_eq e r hslots hrow, kind_peek]
  split
  · rename_i n hdecide
    rw [consult_of_decide e r hdecide (by simp)] at hconsult ⊢
    rcases hconsult with (hresumed | ⟨t, hahead, ht⟩) | hclean
    · have hshift := Step.post_of_config (s := (c.peek e r).2.shift r n)
        (P := fun c' ↦ 0 < c'.recoveries) (by rwa [recoveries_shift])
      exact hshift.imp (fun _ h ↦ Or.inl (Or.inl h)) (fun _ _ h ↦ Or.inl h) fun _ _ _ ↦ trivial
    · rw [ahead?_peek] at hahead
      have hupcoming := c.kind_peek e r
      rw [Option.some.inj hahead, ht] at hupcoming
      have hedge : e.grammar.Edge x.state (.terminal c.upcoming) n :=
        Grammar.allows_of_decide hrow' hdecide
      rw [← hupcoming] at hedge
      exact (hlex _ _ hedge).elim
    · exact (Step.post_of_config (hclean.shift n)).imp (fun _ h ↦ Or.inr h) (fun _ _ h ↦ Or.inr h)
        fun _ _ _ ↦ trivial
  · exact (post_reduce_marred hconsult _).imp (fun _ h ↦ h) (fun _ _ h ↦ h.elim) fun _ _ h ↦ h
  · rename_i hdecide
    obtain ⟨hup, -⟩ : c.upcoming = .endOfInput ∧ e.grammar.Has x.state ⟨_, 1⟩ :=
      Grammar.allows_of_decide hrow' hdecide
    rw [consult_of_decide e r hdecide (by simp)] at hconsult ⊢
    unfold accept
    split
    · trivial
    · rcases hconsult with (hresumed | ⟨t, hahead, ht⟩) | hclean
      · exact Or.inl hresumed
      · rw [ahead?_peek] at hahead
        rw [← c.kind_peek e r, Option.some.inj hahead, ht] at hup
        cases hup
      · exact Or.inr ⟨hclean.quiet, hclean.ahead, hclean.events⟩
  · exact (post_fail_recoveries _ _).imp (fun _ h ↦ Or.inl (Or.inl h)) (fun _ _ h ↦ h.elim)
      fun _ _ h ↦ h

/-! ## Accepted texts -/

theorem shifted_eq_consumed (h : ∀ t, .discard t ∉ c.log) : c.shifted = c.consumed := by
  refine List.filterMap_congr fun ev hev ↦ ?_
  cases ev with
  | discard t => exact (h t (Array.mem_def.mpr hev)).elim
  | _ => rfl

/-- When the end of the text is next, all that is before it has been read. -/
theorem InOrder.pulled_eq {input : List Token} (h : c.InOrder input) (hpending : c.pending = []) :
    (c.pulled.takeWhile fun t ↦ t.kind ≠ .endOfInput) =
      input.takeWhile fun t ↦ t.kind ≠ .endOfInput := by
  obtain ⟨ends, -, heq, hlast, hpulled⟩ := h
  rw [← hpulled, List.takeWhile_append]
  split
  · rename_i hall
    suffices hrest : c.input.takeWhile (fun t ↦ t.kind ≠ .endOfInput) = [] by
      rw [hrest, List.append_nil]
      exact (List.takeWhile_prefix _).eq_of_length hall
    by_cases hinput : c.input = []
    · rw [hinput]
      rfl
    · have hexhausted : ¬c.exhausted = true := fun hx ↦ hinput (hlast (Or.inl hx))
      obtain rfl : ends = [] := by_contra fun hne ↦ hinput (hlast (Or.inr hne))
      rw [pending, if_neg hexhausted] at hpending
      cases hahead : c.ahead? with
      | none => rwa [hahead] at hpending
      | some t =>
        -- the token ahead is an end, and would have been read before the rest of the source
        rw [List.append_nil, ← hpulled] at heq
        have htoken : t ∈ c.pulled.takeWhile fun t ↦ t.kind ≠ .endOfInput := by
          rw [(List.takeWhile_prefix _).eq_of_length hall, ← List.append_cancel_right heq, hahead]
          simp
        rw [hahead, Option.toList_some, List.singleton_append, List.takeWhile_cons_of_pos
          (List.mem_takeWhile_imp htoken)] at hpending
        cases hpending
  · rfl

/-- A clean run has shifted the whole text. -/
theorem Clean.faultless {input : List Token} (h : c.Clean) (hin : c.InOrder input)
    (hpending : c.pending = []) (hends : ∀ t ∈ c.consumed, t.kind ≠ .endOfInput) :
    c.Faultless := by
  have hdiscarded : ∀ t, .discard t ∉ c.log := fun t ht ↦ by cases h.events _ ht
  refine ⟨fun _ _ ht ↦ (by cases h.events _ ht), fun _ _ ht ↦ (by cases h.events _ ht),
    hdiscarded, ?_⟩
  rw [shifted_eq_consumed hdiscarded, hin.consumed_eq hpending hends, hin.pulled_eq hpending]

theorem Faultless.recoveries_eq (h : c.Faultless) : c.recoveries = 0 := by
  refine Array.countP_eq_zero.mpr fun ev hev ↦ ?_
  cases ev with
  | resume n span => exact (h.resumed n span hev).elim
  | _ => exact Bool.false_ne_true

end Config

namespace Engine

variable {e : Engine α} {r : Reducer α V σ}

theorem post_marred (hg : e.tables = e.grammar.tables)
    (hlex : ∀ n n', ¬e.grammar.Edge n (.terminal .lexError) n') (input : List Token) (m : σ)
    (n : Nat) :
    (e.steps r n (e.start r input m)).Post (fun _ ↦ True) (fun _ c ↦ 0 < c.recoveries ∨ c.Clean)
      fun _ _ ↦ True := by
  have hstart : (e.start r input m).Post (fun c ↦ c.Marred ∨ c.Clean)
      (fun _ c ↦ 0 < c.recoveries ∨ c.Clean) fun _ _ ↦ True :=
    (Step.post_of_config (Config.clean_start input m)).imp (fun _ h ↦ Or.inr h)
      (fun _ _ h ↦ Or.inr h) fun _ _ _ ↦ trivial
  refine Step.Post.imp (e.post_steps r (fun c h ↦ ?_) n ((continues_start input m).and hstart))
    (fun _ _ ↦ trivial) (fun _ _ h ↦ h.2) fun _ _ _ ↦ trivial
  obtain ⟨htraced, hmarred⟩ := h
  obtain ⟨x, rest, hslots⟩ := List.exists_cons_of_ne_nil htraced.ne_nil
  have htrace := htraced
  rw [Config.Traced, hslots] at htrace
  obtain ⟨row, hrow⟩ := htrace.exists_row hg
  exact (Config.continues_step hg htraced).and
    (Config.post_step_marred hg hlex hslots hrow hmarred)

/-- A text is accepted without fault if and only if nothing has been reported. -/
theorem post_faultless (hg : e.tables = e.grammar.tables)
    (hend : ∀ n m, ¬e.grammar.Edge n (.terminal .endOfInput) m)
    (hlex : ∀ n m, ¬e.grammar.Edge n (.terminal .lexError) m) (input : List Token) (m : σ)
    (n : Nat) :
    (e.steps r n (e.start r input m)).Post (fun _ ↦ True)
      (fun _ c ↦ c.Faultless ↔ ¬c.Reported) fun _ _ ↦ True := by
  refine ((post_clean hg hend input m n).and (post_marred hg hlex input m n)).imp
    (fun _ _ ↦ trivial) ?_ fun _ _ _ ↦ trivial
  rintro v c ⟨⟨⟨⟨⟨x, y, htrace, -⟩, hin⟩, hclean⟩, hpending⟩, hmarred⟩
  constructor
  · intro hfaultless
    have hrecoveries := hfaultless.recoveries_eq
    exact (hmarred.resolve_left (by omega)).not_reported
  · intro hreported
    have hclean := hclean.resolve_left hreported
    refine hclean.faultless hin hpending (htrace.consumed_ne hend fun ev hev ↦ ?_)
    exact hclean.events ev (Array.mem_def.mpr hev)

end Engine

end PlainLedger
