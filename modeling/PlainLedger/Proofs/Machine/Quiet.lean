import Mathlib.Data.List.DropRight
import PlainLedger.Proofs.Machine.Reporting

/-!
# Quiet after errors

An unexpected token is reported if and only if it is a token, and as many tokens as the options ask
for have been shifted since the machine last went on after an error. It makes no difference whether
that error was an unexpected token or a rejected construct, or whether it was reported itself. Text
that is no token, and constructs that are rejected, are always reported.
-/

namespace PlainLedger

variable {α V σ : Type}

/-- How many tokens have been shifted since the last event that is marked, if there is one. -/
def shiftsSince (marked : Event V → Bool) (evs : List (Event V)) : Option Nat :=
  if evs.any marked then
    some ((evs.rtakeWhile fun ev ↦ !marked ev).filterMap Event.shifted?).length
  else none

theorem shiftsSince_concat (marked : Event V → Bool) (evs : List (Event V)) (ev : Event V) :
    shiftsSince marked (evs ++ [ev]) =
      if marked ev then some 0
      else (shiftsSince marked evs).map (· + ev.shifted?.toList.length) := by
  unfold shiftsSince
  rw [List.rtakeWhile_concat, List.any_append, List.any_cons, List.any_nil, Bool.or_false]
  cases hev : marked ev with
  | true => simp
  | false =>
    by_cases hany : evs.any marked = true
    · cases hshifted : ev.shifted? <;> simp [hany, hshifted]
    · simp [hany]

/-- Text that comes after a marked event holds all that has been shifted since the last one. -/
theorem exists_shiftsSince {marked : Event V → Bool} {ev : Event V} (hev : marked ev = true)
    (before later : List (Event V)) :
    ∃ k ∈ shiftsSince marked (before ++ ev :: later),
      k ≤ (later.filterMap Event.shifted?).length := by
  induction later using List.reverseRecOn with
  | nil => exact ⟨0, by rw [shiftsSince_concat, if_pos hev]; rfl, Nat.le_refl 0⟩
  | append_singleton later ev' ih =>
    obtain ⟨k, hk, hle⟩ := ih
    rw [← List.cons_append, ← List.append_assoc, shiftsSince_concat, Option.mem_def.mp hk]
    by_cases hev' : marked ev' = true
    · exact ⟨0, by rw [if_pos hev']; rfl, Nat.zero_le _⟩
    · refine ⟨k + ev'.shifted?.toList.length, by rw [if_neg hev']; rfl, ?_⟩
      rw [List.filterMap_append, List.length_append]
      refine Nat.add_le_add hle ?_
      cases hshifted : ev'.shifted? <;> simp [hshifted]

/-- The machine has not gone on after an error yet, or it has shifted enough tokens since. -/
def Alert (threshold : Nat) (evs : List (Event V)) : Prop :=
  ∀ k ∈ shiftsSince Event.isResume evs, threshold ≤ k

instance (threshold : Nat) (evs : List (Event V)) : Decidable (Alert threshold evs) :=
  inferInstanceAs (Decidable (∀ k ∈ shiftsSince Event.isResume evs, threshold ≤ k))

namespace Engine

variable (e : Engine α)

/-- What is said about a token that is none. -/
def misread (t : Token) : Diagnostic :=
  Config.diagnostic e .lexical (e.context.lineOf t.span) (Config.lexicalMessage t)

/-- What is said about a completed rule that is rejected. -/
def refusal (red : Reduction V) (message : String) : Diagnostic :=
  Config.diagnostic e .semantic (e.context.lineOf red.span) message

end Engine

namespace Event

variable (e : Engine α)

/-- What has to be said about a token that has been read. -/
def misread? : Event V → Option Diagnostic
  | .pull (some t) => if t.kind = .lexError then some (e.misread t) else none
  | _ => none

/-- What has to be said about a rule that has been completed. -/
def refusal? : Event V → Option Diagnostic
  | .reduce red (.rejected message) => some (e.refusal red message)
  | _ => none

/-- What has been said of the kind. -/
def said? (kind : Diagnostic.Kind) : Event V → Option Diagnostic
  | .report d => if d.kind = kind then some d else none
  | _ => none

end Event

/-- A record in which text that is no token and rejected constructs are reported at once, and `said`
are the reports of unexpected tokens, none of which is made while the machine is quiet. The last of
them can be `owed`: the machine has not gone on after the error yet. -/
inductive Told (e : Engine α) : List (Event V) → List (Event V) → Bool → Prop where
  | start : Told e [] [] false
  | pull {evs said : List (Event V)} {token? : Option Token} (h : Told e evs said false)
      (hlex : ∀ t ∈ token?, t.kind ≠ .lexError) : Told e (evs ++ [.pull token?]) said false
  | misread {evs said : List (Event V)} {t : Token} (h : Told e evs said false)
      (hlex : t.kind = .lexError) :
      Told e (evs ++ [.pull (some t)] ++ [.report (e.misread t)]) said false
  | shift {evs said : List (Event V)} (t : Token) (v : V) (h : Told e evs said false) :
      Told e (evs ++ [.shift t v]) said false
  | reduce {evs said : List (Event V)} (red : Reduction V) {verdict : Verdict V}
      (h : Told e evs said false) (hverdict : ∀ message, verdict ≠ .rejected message) :
      Told e (evs ++ [.reduce red verdict]) said false
  | reject {evs said : List (Event V)} (red : Reduction V) (message : String)
      (h : Told e evs said false) :
      Told e (evs ++ [.reduce red (.rejected message)] ++ [.report (e.refusal red message)]) said
        false
  | complain {evs said : List (Event V)} {d : Diagnostic} (h : Told e evs said false)
      (hd : d.kind = .grammatical) (halert : Alert e.options.recoveryShifts evs) :
      Told e (evs ++ [.report d]) (said ++ [.report d]) true
  | discard {evs said : List (Event V)} {owed : Bool} (t : Token) (h : Told e evs said owed) :
      Told e (evs ++ [.discard t]) said owed
  | pop {evs said : List (Event V)} {owed : Bool} (x : Slot V) (h : Told e evs said owed) :
      Told e (evs ++ [.pop x]) said owed
  | resume {evs said : List (Event V)} {owed : Bool} (n : Nat) (span : Span)
      (h : Told e evs said owed) : Told e (evs ++ [.resume n span]) said false
  | giveUp {evs said : List (Event V)} {owed : Bool} {d : Diagnostic} (h : Told e evs said owed)
      (hd : d.kind = .fatal) : Told e (evs ++ [.report d]) said owed

namespace Told

variable {e : Engine α} {evs said log : List (Event V)} {owed : Bool}

theorem complaints_eq (h : Told e evs said owed) : evs.filter Event.isComplaint = said := by
  induction h with
  | start => rfl
  | complain _ hd _ ih => simp [List.filter_append, ih, Event.isComplaint, hd]
  | giveUp _ hd ih => simpa [List.filter_append, Event.isComplaint, hd] using ih
  | misread _ _ ih => simpa [List.filter_append, Event.isComplaint, Engine.misread,
      Config.diagnostic] using ih
  | reject _ _ _ ih => simpa [List.filter_append, Event.isComplaint, Engine.refusal,
      Config.diagnostic] using ih
  | _ => simpa [List.filter_append, Event.isComplaint]

/-- Each token that is none is reported, in order, and nothing else is reported in that way. -/
theorem misread_eq (h : Told e evs said owed) :
    evs.filterMap (Event.said? .lexical) = evs.filterMap (Event.misread? e) := by
  induction h with
  | start => rfl
  | @pull evs _ token? _ hlex ih =>
    cases token? with
    | none =>
      simpa [List.filterMap_append, List.filterMap_cons, Event.said?, Event.misread?] using ih
    | some t =>
      simpa [List.filterMap_append, List.filterMap_cons, Event.said?, Event.misread?,
        hlex t rfl] using ih
  | misread _ hlex ih =>
    simp [List.filterMap_append, List.filterMap_cons, Event.said?, Event.misread?, Engine.misread,
      Config.diagnostic, hlex, ih]
  | reject _ _ _ ih =>
    simpa [List.filterMap_append, List.filterMap_cons, Event.said?, Event.misread?, Engine.refusal,
      Config.diagnostic] using ih
  | complain _ hd _ ih =>
    simpa [List.filterMap_append, List.filterMap_cons, Event.said?, Event.misread?, hd] using ih
  | giveUp _ hd ih =>
    simpa [List.filterMap_append, List.filterMap_cons, Event.said?, Event.misread?, hd] using ih
  | _ => simpa [List.filterMap_append, List.filterMap_cons, Event.said?, Event.misread?]

/-- Each rejected construct is reported, in order, and nothing else is reported in that way. -/
theorem refusal_eq (h : Told e evs said owed) :
    evs.filterMap (Event.said? .semantic) = evs.filterMap (Event.refusal? e) := by
  induction h with
  | start => rfl
  | @reduce evs _ red verdict _ hverdict ih =>
    cases verdict with
    | rejected message => exact (hverdict message rfl).elim
    | _ => simpa [List.filterMap_append, List.filterMap_cons, Event.said?, Event.refusal?] using ih
  | misread _ hlex ih =>
    simpa [List.filterMap_append, List.filterMap_cons, Event.said?, Event.refusal?, Engine.misread,
      Config.diagnostic] using ih
  | reject _ _ _ ih =>
    simp [List.filterMap_append, List.filterMap_cons, Event.said?, Event.refusal?, Engine.refusal,
      Config.diagnostic, ih]
  | complain _ hd _ ih =>
    simpa [List.filterMap_append, List.filterMap_cons, Event.said?, Event.refusal?, hd] using ih
  | giveUp _ hd ih =>
    simpa [List.filterMap_append, List.filterMap_cons, Event.said?, Event.refusal?, hd] using ih
  | _ => simpa [List.filterMap_append, List.filterMap_cons, Event.said?, Event.refusal?]

/-- Once the machine has gone on after the error that it reported last, it has shifted no more since
than it has shifted since the report. -/
theorem exists_resume (h : Told e evs said false) {k : Nat}
    (hk : shiftsSince Event.isComplaint evs = some k) :
    ∃ j ≤ k, shiftsSince Event.isResume evs = some j := by
  -- an event that is neither a report of the kind nor a resumption
  have hmore : ∀ {evs : List (Event V)} {ev : Event V} {k : Nat}, ev.isComplaint = false →
      ev.isResume = false →
      (∀ {k : Nat}, shiftsSince Event.isComplaint evs = some k →
        ∃ j ≤ k, shiftsSince Event.isResume evs = some j) →
      shiftsSince Event.isComplaint (evs ++ [ev]) = some k →
      ∃ j ≤ k, shiftsSince Event.isResume (evs ++ [ev]) = some j := by
    intro evs ev k hcomplaint hresume ih hk
    rw [shiftsSince_concat, hcomplaint, if_neg Bool.false_ne_true, Option.map_eq_some_iff] at hk
    obtain ⟨k, hk, rfl⟩ := hk
    obtain ⟨j, hle, hj⟩ := ih hk
    refine ⟨j + _, Nat.add_le_add_right hle ev.shifted?.toList.length, ?_⟩
    rw [shiftsSince_concat, hresume, if_neg Bool.false_ne_true, hj]
    rfl
  generalize howed : false = owed at h
  induction h generalizing k with
  | start => cases hk
  | pull _ _ ih => exact hmore rfl rfl (fun hk ↦ ih hk rfl) hk
  | misread _ _ ih => exact hmore rfl rfl (hmore rfl rfl fun hk ↦ ih hk rfl) hk
  | shift _ _ _ ih => exact hmore rfl rfl (fun hk ↦ ih hk rfl) hk
  | reduce _ _ _ ih => exact hmore rfl rfl (fun hk ↦ ih hk rfl) hk
  | reject _ _ _ ih => exact hmore rfl rfl (hmore rfl rfl fun hk ↦ ih hk rfl) hk
  | complain => cases howed
  | discard _ _ ih => exact hmore rfl rfl (fun hk ↦ ih hk howed) hk
  | pop _ _ ih => exact hmore rfl rfl (fun hk ↦ ih hk howed) hk
  | resume => exact ⟨0, Nat.zero_le k, by rw [shiftsSince_concat]; rfl⟩
  | giveUp _ hd ih =>
    exact hmore (by simp [Event.isComplaint, hd]) rfl (fun hk ↦ ih hk howed) hk

/-- Enough has been shifted between an unexpected token that is reported and the next one. -/
theorem le_of_prefix (h : Told e log said owed) {d : Diagnostic} (hd : d.kind = .grammatical)
    (hevs : evs ++ [.report d] <+: log) {k : Nat}
    (hk : shiftsSince Event.isComplaint evs = some k) : e.options.recoveryShifts ≤ k := by
  -- an event that is no report of the kind
  have hskip : ∀ {log : List (Event V)} {ev : Event V}, ev.isComplaint = false →
      evs ++ [.report d] <+: log ++ [ev] → evs ++ [.report d] <+: log := by
    intro log ev hev hevs
    refine (List.prefix_concat_iff.mp hevs).resolve_left fun heq ↦ ?_
    obtain ⟨-, hlast⟩ := List.append_inj' heq rfl
    rw [← List.head_eq_of_cons_eq hlast] at hev
    simp [Event.isComplaint, hd] at hev
  induction h with
  | start => simp at hevs
  | pull _ _ ih => exact ih (hskip rfl hevs)
  | misread _ _ ih => exact ih (hskip rfl (hskip rfl hevs))
  | shift _ _ _ ih => exact ih (hskip rfl hevs)
  | reduce _ _ _ ih => exact ih (hskip rfl hevs)
  | reject _ _ _ ih => exact ih (hskip rfl (hskip rfl hevs))
  | discard _ _ ih => exact ih (hskip rfl hevs)
  | pop _ _ ih => exact ih (hskip rfl hevs)
  | resume _ _ _ ih => exact ih (hskip rfl hevs)
  | giveUp _ hfatal ih => exact ih (hskip (by simp [Event.isComplaint, hfatal]) hevs)
  | complain h _ halert ih =>
    rcases List.prefix_concat_iff.mp hevs with heq | hevs
    · obtain ⟨rfl, -⟩ := List.append_inj' heq rfl
      obtain ⟨j, hle, hj⟩ := h.exists_resume hk
      exact (halert j hj).trans hle
    · exact ih hevs

end Told

/-! ## Steps -/

namespace Config

variable {e : Engine α} {r : Reducer α V σ} {said : List (Event V)} {c c' : Config V σ}

/-- The reports of unexpected tokens. -/
def complaints (c : Config V σ) : List (Event V) := c.log.toList.filter Event.isComplaint

/-- What the machine says about the token ahead if the state has no action for it. -/
def outcry (e : Engine α) (r : Reducer α V σ) (n : Nat) (c : Config V σ) : List (Event V) :=
  if (e.rowAt n).decide c.upcoming = none ∧ c.upcoming ≠ .lexError ∧
      Alert e.options.recoveryShifts c.log.toList then
    [.report (complaint e.context.file (e.context.lineOf (c.peek e r).1.span) c.upcoming
      (e.expected n) e.options.maxExpectedTokens)]
  else []

/-- The configuration's record is as told, and the machine is quiet for as many tokens as are left
of the threshold. -/
structure Tells (e : Engine α) (said : List (Event V)) (c : Config V σ) : Prop where
  told : Told e c.log.toList said false
  counts : c.Counts e.options.recoveryShifts (shiftsSince Event.isResume c.log.toList)

/-- The record of a step is as told. -/
abbrev Telling (e : Engine α) (said : List (Event V)) (s : Step V σ) : Prop :=
  s.Post (fun c ↦ c.Tells e said) (fun _ c ↦ ∃ owed, Told e c.log.toList said owed)
    fun _ c ↦ ∃ owed, Told e c.log.toList said owed

/-- The machine is as quiet as before after an event that neither shifts nor goes on after an
error. -/
theorem Counts.push {threshold : Nat} {evs : List (Event V)}
    (h : c.Counts threshold (shiftsSince Event.isResume evs)) {ev : Event V}
    (hquiet : c'.quiet = c.quiet) (hresume : ev.isResume = false) (hshifted : ev.shifted? = none) :
    c'.Counts threshold (shiftsSince Event.isResume (evs ++ [ev])) := by
  rw [shiftsSince_concat, hresume, if_neg Bool.false_ne_true, hshifted]
  unfold Counts at h ⊢
  rw [hquiet, h]
  cases shiftsSince Event.isResume evs <;> rfl

theorem tells_read (h : c.Tells e said) : (c.read e r).2.Tells e said := by
  unfold read
  split
  · exact h
  · split
    · constructor
      · change Told e (c.log.push _).toList said false
        rw [Array.toList_push]
        exact h.told.pull (by simp)
      · change Counts _ (shiftsSince _ (c.log.push _).toList) _
        rw [Array.toList_push]
        exact h.counts.push rfl rfl rfl
    · rename_i t rest _
      dsimp only
      split
      · rename_i hlex
        constructor
        · change Told e ((c.log.push _).push _).toList said false
          rw [Array.toList_push, Array.toList_push]
          exact h.told.misread hlex
        · change Counts _ (shiftsSince _ ((c.log.push _).push _).toList) _
          rw [Array.toList_push, Array.toList_push]
          have hpulled : Counts _ (shiftsSince _ (c.log.toList ++ [.pull (some t)])) c :=
            h.counts.push rfl rfl rfl
          exact hpulled.push rfl rfl rfl
      · rename_i hlex
        constructor
        · change Told e (c.log.push _).toList said false
          rw [Array.toList_push]
          exact h.told.pull (by simpa using hlex)
        · change Counts _ (shiftsSince _ (c.log.push _).toList) _
          rw [Array.toList_push]
          exact h.counts.push rfl rfl rfl

theorem tells_peek (h : c.Tells e said) : (c.peek e r).2.Tells e said := by
  unfold peek
  split
  · exact h
  · exact ⟨(tells_read h).told, (tells_read h).counts⟩

theorem tells_consult (h : c.Tells e said) (row : Row) : (c.consult e r row).Tells e said := by
  unfold consult
  split
  · exact tells_peek h
  · exact h

theorem telling_push (h : c.Tells e said) (n : Nat) (v : V) (span : Span) :
    Telling e said (c.push r n v span) :=
  push_cases (P := Telling e said) (fun _ _ ↦ ⟨h.told, h.counts⟩) fun _ ↦ ⟨false, h.told⟩

theorem telling_shift (h : c.Tells e said) (n : Nat) : Telling e said (c.shift r n) := by
  unfold shift
  split
  · exact ⟨false, h.told⟩
  · rename_i t _
    apply telling_push
    constructor
    · change Told e (c.log.push _).toList said false
      rw [Array.toList_push]
      exact h.told.shift t _
    · change Counts _ (shiftsSince _ (c.log.push _).toList) _
      rw [Array.toList_push, shiftsSince_concat]
      exact h.counts.shift rfl

theorem told_popped {owed : Bool} (popped : List (Slot V)) (h : Told e c.log.toList said owed) :
    Told e (popped.foldl (fun c x ↦ (c.release r x.value).record (.pop x)) c).log.toList said
      owed := by
  induction popped generalizing c with
  | nil => exact h
  | cons x popped ih =>
    apply ih
    change Told e (c.log.push _).toList said owed
    rw [Array.toList_push]
    exact h.pop x

theorem told_unwound {owed : Bool} (h : Told e c.log.toList said owed) :
    Told e (c.unwound e r).log.toList said owed := by
  apply told_popped
  exact h

/-- Recovery begins a new count. -/
theorem telling_recover {owed : Bool} (h : Told e c.log.toList said owed) (start : Span) :
    Telling e said (c.recover e r start) := by
  have hunwound := told_unwound (r := r) h
  rw [recover_eq]
  split
  · exact ⟨owed, hunwound⟩
  · split
    · exact ⟨owed, hunwound⟩
    · apply telling_push
      constructor
      · change Told e ((c.unwound e r).log.push _).toList said false
        rw [Array.toList_push]
        exact hunwound.resume _ _
      · change Counts _ (shiftsSince _ ((c.unwound e r).log.push _).toList) _
        rw [Array.toList_push, shiftsSince_concat]
        obtain ⟨m, log, heq⟩ := c.unwound_eq (e := e) (r := r)
        unfold Counts
        rw [heq]
        rfl

theorem telling_goto (h : c.Tells e said) (lhs rule : Nat) (v : V) (span : Span) :
    Telling e said (c.goto e r lhs rule v span) := by
  unfold goto
  split
  · exact ⟨false, h.told⟩
  · split
    · exact ⟨false, h.told⟩
    · exact telling_push h _ v span

theorem telling_reduce (h : c.Tells e said) (k : Nat) : Telling e said (c.reduce e r k) := by
  cases hrule : e.grammar.rules[k]? with
  | none =>
    unfold reduce
    rw [hrule]
    exact ⟨false, h.told⟩
  | some p =>
    obtain ⟨⟨verdict, m⟩, hout⟩ : ∃ out, r.reduce p.action
      (.ofSlots k p.rhs.length c.stack.slots) c.memory = out := ⟨_, rfl⟩
    rw [reduce_eq hrule hout]
    cases verdict with
    | value v =>
      apply telling_goto
      constructor
      · change Told e (c.log.push _).toList said false
        rw [Array.toList_push]
        exact h.told.reduce _ (by simp)
      · change Counts _ (shiftsSince _ (c.log.push _).toList) _
        rw [Array.toList_push]
        exact h.counts.push rfl rfl rfl
    | rejected message =>
      refine telling_recover (show Told e ((c.log.push _).push _).toList said false from ?_) _
      rw [Array.toList_push, Array.toList_push]
      exact h.told.reject _ message
    | fatal cause =>
      refine ⟨false, ?_⟩
      change Told e (c.log.push _).toList said false
      rw [Array.toList_push]
      exact h.told.reduce _ (by simp)

/-- The machine is not quiet any more when it has shifted enough tokens. -/
theorem Counts.quiet_eq_zero_iff {threshold : Nat} {evs : List (Event V)}
    (h : c.Counts threshold (shiftsSince Event.isResume evs)) :
    c.quiet = 0 ↔ Alert threshold evs := by
  unfold Counts at h
  unfold Alert
  rw [h]
  cases shiftsSince Event.isResume evs with
  | none => simp
  | some k => simp [Nat.sub_eq_zero_iff_le]

/-- A look at the token ahead is no resumption, and shifts nothing. -/
theorem shiftsSince_peek (c : Config V σ) :
    shiftsSince Event.isResume (c.peek e r).2.log.toList =
      shiftsSince Event.isResume c.log.toList := by
  obtain ⟨evs, heq, hevs⟩ := c.exists_log_peek (e := e) (r := r)
  rw [heq]
  clear heq
  induction evs using List.reverseRecOn with
  | nil => rw [List.append_nil]
  | append_singleton evs ev ih =>
    have hlook : ev.isResume = false ∧ ev.shifted? = none := by
      have hev := hevs ev (by simp)
      cases ev <;> first | exact ⟨rfl, rfl⟩ | cases hev
    rw [← List.append_assoc, shiftsSince_concat, hlook.1, if_neg Bool.false_ne_true, hlook.2,
      ih fun ev hev ↦ hevs ev (List.mem_append_left _ hev)]
    cases shiftsSince Event.isResume c.log.toList <;> rfl

theorem alert_peek (threshold : Nat) (c : Config V σ) :
    Alert threshold (c.peek e r).2.log.toList ↔ Alert threshold c.log.toList := by
  unfold Alert
  rw [shiftsSince_peek]

/-- The token ahead is reported unless the machine is quiet or the token has been reported. -/
theorem told_complain (h : c.Tells e said) {n : Nat}
    (hdecide : (e.rowAt n).decide c.upcoming = none) :
    ∃ owed, Told e ((c.peek e r).2.complain e r n (c.peek e r).1).log.toList
      (said ++ c.outcry e r n) owed := by
  have hpeek := tells_peek (r := r) h
  have hquiet := hpeek.counts.quiet_eq_zero_iff
  have halert := alert_peek (e := e) (r := r) e.options.recoveryShifts c
  unfold complain outcry
  rw [kind_peek]
  by_cases hspeaks : c.upcoming ≠ .lexError ∧ Alert e.options.recoveryShifts c.log.toList
  · have hzero : (c.peek e r).2.quiet = 0 := hquiet.mpr (halert.mpr hspeaks.2)
    rw [quiet_peek] at hzero
    rw [if_pos (by simp [hzero, Terminal.isSilent, hspeaks.1]), if_pos ⟨hdecide, hspeaks⟩]
    refine ⟨true, ?_⟩
    change Told e ((c.peek e r).2.log.push _).toList _ true
    rw [Array.toList_push]
    exact hpeek.told.complain rfl (halert.mpr hspeaks.2)
  · rw [if_neg, if_neg fun hall ↦ hspeaks hall.2, List.append_nil]
    · exact ⟨false, hpeek.told⟩
    · intro hall
      rw [Bool.and_eq_true, decide_eq_true_eq] at hall
      refine hspeaks ⟨?_, halert.mp (hquiet.mp hall.1)⟩
      simpa [Terminal.isSilent] using hall.2

theorem telling_fail (h : c.Tells e said) {n : Nat}
    (hdecide : (e.rowAt n).decide c.upcoming = none) :
    Telling e (said ++ c.outcry e r n) (c.fail e r n) := by
  obtain ⟨owed, htold⟩ := told_complain (r := r) h hdecide
  unfold fail
  dsimp only
  split
  · split
    · exact ⟨owed, htold⟩
    · refine telling_recover (show Told e (Array.push _ _).toList _ owed from ?_) _
      rw [Array.toList_push]
      exact htold.discard _
  · exact telling_recover htold _

theorem outcry_consult {n : Nat} (c : Config V σ) (row : Row) :
    (c.consult e r row).outcry e r n = c.outcry e r n := by
  unfold consult
  split
  · have hupcoming : (c.peek e r).2.upcoming = c.upcoming := by
      unfold upcoming
      rw [pending_peek]
    simp only [outcry, hupcoming, peek_peek, alert_peek]
  · rfl

/-- A step reports the token ahead if and only if it has to. -/
theorem telling_step (h : c.Tells e said) {x : Slot V} {rest : List (Slot V)}
    (hslots : c.stack.slots = x :: rest) :
    Telling e (said ++ c.outcry e r x.state) (c.step e r) := by
  have hconsult := tells_consult (r := r) h (e.rowAt x.state)
  rw [step_of_cons hslots, kind_peek]
  cases hdecide : (e.rowAt x.state).decide c.upcoming with
  | none =>
    rw [← outcry_consult c (e.rowAt x.state)]
    apply telling_fail hconsult
    unfold upcoming at hdecide ⊢
    rwa [pending_consult]
  | some a =>
    have houtcry : c.outcry e r x.state = [] := if_neg fun hall ↦ by
      rw [hdecide] at hall
      cases hall.1
    rw [houtcry, List.append_nil]
    cases a with
    | shift n => exact telling_shift hconsult n
    | reduce k => exact telling_reduce hconsult k
    | accept =>
      change Telling e said (accept _)
      unfold accept
      split
      · exact ⟨false, hconsult.told⟩
      · exact ⟨false, hconsult.told⟩

end Config

/-! ## Runs -/

namespace Engine

variable (e : Engine α) (r : Reducer α V σ) (input : List Token) (m : σ)

theorem telling_start : Config.Telling e [] (e.start r input m) := by
  unfold start
  split
  · exact ⟨false, .start⟩
  · apply Config.telling_push
    exact ⟨.start, rfl⟩

theorem exists_telling (n : Nat) :
    ∃ said, Config.Telling e said (e.steps r n (e.start r input m)) := by
  induction n with
  | zero =>
    rw [steps_zero]
    exact ⟨[], telling_start e r input m⟩
  | succ n ih =>
    obtain ⟨said, h⟩ := ih
    rw [steps_succ]
    cases hsteps : e.steps r n (e.start r input m) with
    | running c =>
      rw [hsteps] at h
      cases hslots : c.stack.slots with
      | nil =>
        refine ⟨said, ?_⟩
        change Config.Telling e said (c.step e r)
        rw [Config.step_of_nil hslots]
        exact ⟨false, h.told⟩
      | cons x rest => exact ⟨_, Config.telling_step h hslots⟩
    | accepted v c =>
      rw [hsteps] at h
      exact ⟨said, h⟩
    | aborted cause c =>
      rw [hsteps] at h
      exact ⟨said, h⟩

theorem exists_told_run (budget : Nat) :
    ∃ said owed, Told e (e.run r budget input m).2.log.toList said owed := by
  obtain ⟨said, h⟩ := exists_telling e r input m budget
  unfold run
  cases hsteps : e.steps r budget (e.start r input m) with
  | running c =>
    rw [hsteps] at h
    exact ⟨said, false, h.told⟩
  | accepted v c =>
    rw [hsteps] at h
    obtain ⟨owed, h⟩ := h
    refine ⟨said, owed, ?_⟩
    change Told e (clear r c).log.toList said owed
    rwa [log_clear]
  | aborted cause c =>
    rw [hsteps] at h
    obtain ⟨owed, h⟩ := h
    refine ⟨said, owed, ?_⟩
    change Told e ((clear r c).log.push _).toList said owed
    rw [log_clear, Array.toList_push]
    exact h.giveUp rfl

end Engine

/-- What the runs of a machine report, and when. -/
structure ReportsWhenDue (e : Engine α) (r : Reducer α V σ) (input : List Token) (m : σ) :
    Prop where
  unexpected : ∀ (n : Nat) (c : Config V σ) (x : Slot V) (rest : List (Slot V)),
    e.steps r n (e.start r input m) = .running c → c.stack.slots = x :: rest →
      (c.step e r).config.complaints = c.complaints ++ c.outcry e r x.state
  spaced : ∀ (budget : Nat) (before between : List (Event V)) (d d' : Diagnostic),
    before ++ .report d :: between ++ [.report d'] <+: (e.run r budget input m).2.log.toList →
      d.kind = .grammatical → d'.kind = .grammatical →
      e.options.recoveryShifts ≤ (between.filterMap Event.shifted?).length
  misread : ∀ budget : Nat,
    (e.run r budget input m).2.log.toList.filterMap (Event.said? .lexical) =
      (e.run r budget input m).2.log.toList.filterMap (Event.misread? e)
  refused : ∀ budget : Nat,
    (e.run r budget input m).2.log.toList.filterMap (Event.said? .semantic) =
      (e.run r budget input m).2.log.toList.filterMap (Event.refusal? e)

/-- A machine that finds no action for the token ahead reports it if and only if it is not one that
is none, and as many tokens have been shifted as the options ask for since the machine last went on
after an error, if it ever has. So as many tokens are shifted between two such reports. Each token
that is none is reported once, when it is read, and each rejected construct is reported once, when
it is rejected. -/
theorem reports_when_due (e : Engine α) (r : Reducer α V σ) (input : List Token) (m : σ) :
    ReportsWhenDue e r input m := by
  constructor
  · intro n c x rest hsteps hslots
    obtain ⟨said, h⟩ := e.exists_telling r input m n
    rw [hsteps] at h
    have hcomplaints : c.complaints = said := h.told.complaints_eq
    have hstep := Config.telling_step (r := r) h hslots
    rw [hcomplaints]
    cases hs : c.step e r with
    | running c' =>
      rw [hs] at hstep
      exact hstep.told.complaints_eq
    | accepted v c' =>
      rw [hs] at hstep
      obtain ⟨owed, htold⟩ := hstep
      exact htold.complaints_eq
    | aborted cause c' =>
      rw [hs] at hstep
      obtain ⟨owed, htold⟩ := hstep
      exact htold.complaints_eq
  · intro budget before between d d' hprefix hd hd'
    obtain ⟨said, owed, h⟩ := e.exists_told_run r input m budget
    obtain ⟨k, hk, hle⟩ := exists_shiftsSince
      (show Event.isComplaint (.report d) = true by simp [Event.isComplaint, hd]) before between
    exact (h.le_of_prefix hd' hprefix hk).trans hle
  · intro budget
    obtain ⟨said, owed, h⟩ := e.exists_told_run r input m budget
    exact h.misread_eq
  · intro budget
    obtain ⟨said, owed, h⟩ := e.exists_told_run r input m budget
    exact h.refusal_eq

end PlainLedger
