import PlainLedger.Proofs.Machine.Decision
import PlainLedger.Proofs.Machine.Faults

/-!
# Every token once

The record of a run tells what has become of each token of the source. A token is read when a row
asks for it or an error has to be reported, it is then held ahead, and it is shifted or dropped
before the next one is read. A source that has said that it has no more is not asked again: the ends
of input that the machine goes on with are made up.
-/

namespace PlainLedger

variable {α V σ : Type}

/-- An event that neither reads a token nor uses one up, and after which the machine does not go on
after an error. -/
def Event.isAside : Event V → Bool
  | .report _ => true
  | .reduce _ _ => true
  | .pop _ => true
  | _ => false

/-- What a record says about tokens: which of them is held ahead, which have not been read, whether
the source has said that it has no more, and how many have been shifted since the machine last went
on after an error, if it ever did. The source is asked only where `asks` allows it, and if the
`threshold` is not zero, a token is dropped only if none has been shifted since. -/
inductive Handled (threshold : Nat) (asks : List (Event V) → Prop) (input : List Token) :
    List (Event V) → Option Token → List Token → Bool → Option Nat → Prop where
  | start : Handled threshold asks input [] none input false none
  | pull {evs : List (Event V)} {t : Token} {rest : List Token} {since : Option Nat}
      (h : Handled threshold asks input evs none (t :: rest) false since) (hasks : asks evs) :
      Handled threshold asks input (evs ++ [.pull (some t)]) (some t) rest false since
  | dry {evs : List (Event V)} {since : Option Nat} (span : Span)
      (h : Handled threshold asks input evs none [] false since) (hasks : asks evs) :
      Handled threshold asks input (evs ++ [.pull none]) (some (.endOfInput span)) [] true since
  | again {evs : List (Event V)} {since : Option Nat} (span : Span)
      (h : Handled threshold asks input evs none [] true since) :
      Handled threshold asks input evs (some (.endOfInput span)) [] true since
  | shift {evs : List (Event V)} {t : Token} {rest : List Token} {ended : Bool}
      {since : Option Nat} (v : V)
      (h : Handled threshold asks input evs (some t) rest ended since) :
      Handled threshold asks input (evs ++ [.shift t v]) none rest ended (since.map (· + 1))
  | discard {evs : List (Event V)} {t : Token} {rest : List Token} {ended : Bool}
      {since : Option Nat} (h : Handled threshold asks input evs (some t) rest ended since)
      (hsince : 1 ≤ threshold → since = some 0) :
      Handled threshold asks input (evs ++ [.discard t]) none rest ended since
  | resume {evs : List (Event V)} {ahead? : Option Token} {rest : List Token} {ended : Bool}
      {since : Option Nat} (n : Nat) (span : Span)
      (h : Handled threshold asks input evs ahead? rest ended since) :
      Handled threshold asks input (evs ++ [.resume n span]) ahead? rest ended (some 0)
  | aside {evs : List (Event V)} {ahead? : Option Token} {rest : List Token} {ended : Bool}
      {since : Option Nat} {ev : Event V}
      (h : Handled threshold asks input evs ahead? rest ended since) (hev : ev.isAside = true) :
      Handled threshold asks input (evs ++ [ev]) ahead? rest ended since

/-- The tokens of the source that have been read, followed by ends of input that have been made up
since the source said that it has no more, are those that have been shifted or dropped, and at most
one that is held ahead. -/
structure Accounted (input : List Token) (evs : List (Event V)) : Prop where
  pulled : evs.filterMap Event.pulled? <+: input
  used : ∃ (ahead? : Option Token) (ends : List Token),
    evs.filterMap Event.consumed? ++ ahead?.toList = evs.filterMap Event.pulled? ++ ends ∧
      (∀ t ∈ ends, t.kind = .endOfInput) ∧ (ends ≠ [] → .pull none ∈ evs)

/-- The tokens that have been shifted come from the source, in its order, except for made up ends of
input that come after them. -/
theorem Accounted.shifted {input : List Token} {evs : List (Event V)} (h : Accounted input evs) :
    ∃ own made : List Token, evs.filterMap Event.shifted? = own ++ made ∧ own.Sublist input ∧
      (∀ t ∈ made, t.kind = .endOfInput) ∧ (made ≠ [] → .pull none ∈ evs) := by
  obtain ⟨ahead?, ends, heq, hkind, hnone⟩ := h.used
  have hshifted : (evs.filterMap Event.shifted?).Sublist (evs.filterMap Event.consumed?) := by
    clear h heq hnone
    induction evs with
    | nil => exact .slnil
    | cons ev evs ih =>
      cases ev <;>
        simp only [List.filterMap_cons, Event.shifted?, Event.consumed?] <;>
        first | exact ih | exact ih.cons _ | exact ih.cons_cons _
  have hall := hshifted.trans (List.sublist_append_left _ ahead?.toList)
  rw [heq] at hall
  obtain ⟨own, made, hsplit, hown, hmade⟩ := List.sublist_append_iff.mp hall
  refine ⟨own, made, hsplit, hown.trans h.pulled.sublist, ?_, ?_⟩
  · exact fun t ht ↦ hkind t (hmade.subset ht)
  · intro hne
    apply hnone
    rintro rfl
    exact hne (List.sublist_nil.mp hmade)

/-- The machine has gone on after an error, and has shifted nothing since it last did. -/
def Unmoved (evs : List (Event V)) : Prop :=
  ∃ (before later : List (Event V)) (n : Nat) (span : Span),
    evs = before ++ .resume n span :: later ∧
      ∀ ev ∈ later, ev.shifted? = none ∧ ev.isResume = false

namespace Event

variable {ev : Event V}

theorem consumed?_of_isAside (h : ev.isAside = true) : ev.consumed? = none := by
  cases ev <;> first | rfl | cases h

theorem pulled?_of_isAside (h : ev.isAside = true) : ev.pulled? = none := by
  cases ev <;> first | rfl | cases h

theorem shifted?_of_isAside (h : ev.isAside = true) : ev.shifted? = none := by
  cases ev <;> first | rfl | cases h

theorem isResume_of_isAside (h : ev.isAside = true) : ev.isResume = false := by
  cases ev <;> first | rfl | cases h

end Event

namespace Handled

variable {threshold : Nat} {asks : List (Event V) → Prop} {input rest : List Token}
  {evs log : List (Event V)} {ahead? : Option Token} {ended : Bool} {since : Option Nat}

theorem pull_none_mem_iff (h : Handled threshold asks input evs ahead? rest ended since) :
    .pull none ∈ evs ↔ ended = true := by
  induction h with
  | start => simp
  | aside _ hev ih =>
    rw [List.mem_append, ih, or_iff_left_iff_imp, List.mem_singleton]
    rintro rfl
    cases hev
  | pull _ _ ih => simpa using ih
  | dry => simp
  | again _ _ ih => exact ih
  | shift _ _ ih => simpa using ih
  | discard _ _ ih => simpa using ih
  | resume _ _ _ ih => simpa using ih

theorem rest_eq_nil (h : Handled threshold asks input evs ahead? rest true since) : rest = [] := by
  generalize hended : true = ended at h
  induction h with
  | start => cases hended
  | pull => cases hended
  | dry => rfl
  | again => rfl
  | shift _ _ ih => exact ih hended
  | discard _ _ ih => exact ih hended
  | resume _ _ _ ih => exact ih hended
  | aside _ _ ih => exact ih hended

theorem pulled_append (h : Handled threshold asks input evs ahead? rest ended since) :
    evs.filterMap Event.pulled? ++ rest = input := by
  induction h with
  | start => rfl
  | aside _ hev ih => simpa [Event.pulled?_of_isAside hev] using ih
  | pull _ _ ih => simpa [List.filterMap_cons, Event.pulled?] using ih
  | dry _ _ _ ih => simpa [List.filterMap_cons, Event.pulled?] using ih
  | again _ _ ih => exact ih
  | shift _ _ ih => simpa [List.filterMap_cons, Event.pulled?] using ih
  | discard _ _ ih => simpa [List.filterMap_cons, Event.pulled?] using ih
  | resume _ _ _ ih => simpa [List.filterMap_cons, Event.pulled?] using ih

theorem exists_used (h : Handled threshold asks input evs ahead? rest ended since) :
    ∃ ends : List Token,
      evs.filterMap Event.consumed? ++ ahead?.toList = evs.filterMap Event.pulled? ++ ends ∧
        (∀ t ∈ ends, t.kind = .endOfInput) ∧ (ends ≠ [] → ended = true) := by
  induction h with
  | start => exact ⟨[], rfl, by simp, by simp⟩
  | @pull evs t _ _ _ _ ih =>
    obtain ⟨ends, heq, -, hended⟩ := ih
    obtain rfl : ends = [] := by
      by_contra hne
      cases hended hne
    refine ⟨[], ?_, by simp, by simp⟩
    simpa [List.filterMap_cons, Event.consumed?, Event.pulled?] using heq
  | dry span _ _ ih =>
    obtain ⟨ends, heq, hkind, -⟩ := ih
    refine ⟨ends ++ [.endOfInput span], ?_, ?_, fun _ ↦ rfl⟩
    · rw [Option.toList_none, List.append_nil] at heq
      simp [List.filterMap_cons, Event.consumed?, Event.pulled?, heq]
    · simpa [or_imp, forall_and] using hkind
  | again span _ ih =>
    obtain ⟨ends, heq, hkind, -⟩ := ih
    refine ⟨ends ++ [.endOfInput span], ?_, ?_, fun _ ↦ rfl⟩
    · rw [Option.toList_none, List.append_nil] at heq
      rw [heq, List.append_assoc]
      rfl
    · simpa [or_imp, forall_and] using hkind
  | shift _ _ ih => simpa [List.filterMap_cons, Event.consumed?, Event.pulled?] using ih
  | discard _ _ ih => simpa [List.filterMap_cons, Event.consumed?, Event.pulled?] using ih
  | resume _ _ _ ih => simpa [List.filterMap_cons, Event.consumed?, Event.pulled?] using ih
  | aside _ hev ih =>
    simpa [Event.consumed?_of_isAside hev, Event.pulled?_of_isAside hev] using ih

theorem accounted (h : Handled threshold asks input evs ahead? rest ended since) :
    Accounted input evs where
  pulled := ⟨rest, h.pulled_append⟩
  used := by
    obtain ⟨ends, heq, hkind, hended⟩ := h.exists_used
    exact ⟨ahead?, ends, heq, hkind, fun hne ↦ h.pull_none_mem_iff.mpr (hended hne)⟩

/-- If tokens have been counted since the machine went on after an error, it has gone on after
one. -/
theorem exists_resume (h : Handled threshold asks input evs ahead? rest ended since) {k : Nat}
    (hk : since = some k) : ∃ (before later : List (Event V)) (n : Nat) (span : Span),
      evs = before ++ .resume n span :: later ∧ (later.filterMap Event.shifted?).length = k ∧
        ∀ ev ∈ later, ev.isResume = false := by
  -- an event after the resumption that is neither a shift nor another resumption
  have hmore : ∀ {evs : List (Event V)} {k : Nat} {ev : Event V}, ev.shifted? = none →
      ev.isResume = false →
      (∃ (before later : List (Event V)) (n : Nat) (span : Span),
        evs = before ++ .resume n span :: later ∧ (later.filterMap Event.shifted?).length = k ∧
          ∀ ev ∈ later, ev.isResume = false) →
      ∃ (before later : List (Event V)) (n : Nat) (span : Span),
        evs ++ [ev] = before ++ .resume n span :: later ∧
          (later.filterMap Event.shifted?).length = k ∧ ∀ ev ∈ later, ev.isResume = false := by
    rintro _ k ev hshifted hresume ⟨before, later, n, span, rfl, hlength, hlater⟩
    refine ⟨before, later ++ [ev], n, span, by simp, by simpa [hshifted] using hlength, ?_⟩
    simpa [or_imp, forall_and, hresume] using hlater
  induction h generalizing k with
  | start => cases hk
  | pull _ _ ih => exact hmore rfl rfl (ih hk)
  | dry _ _ _ ih => exact hmore rfl rfl (ih hk)
  | again _ _ ih => exact ih hk
  | discard _ _ ih => exact hmore rfl rfl (ih hk)
  | resume n span _ _ =>
    cases hk
    exact ⟨_, [], n, span, rfl, rfl, by simp⟩
  | aside _ hev ih =>
    exact hmore (Event.shifted?_of_isAside hev) (Event.isResume_of_isAside hev) (ih hk)
  | @shift _ t _ _ _ v _ ih =>
    obtain ⟨k, hk', rfl⟩ := Option.map_eq_some_iff.mp hk
    obtain ⟨before, later, n, span, rfl, rfl, hlater⟩ := ih hk'
    refine ⟨before, later ++ [.shift t v], n, span, by simp, by simp [Event.shifted?], ?_⟩
    simpa [or_imp, forall_and, Event.isResume] using hlater

theorem unmoved (h : Handled threshold asks input evs ahead? rest ended (some 0)) :
    Unmoved evs := by
  obtain ⟨before, later, n, span, heq, hlength, hlater⟩ := h.exists_resume rfl
  refine ⟨before, later, n, span, heq, fun ev hev ↦ ⟨?_, hlater ev hev⟩⟩
  exact List.filterMap_eq_nil_iff.mp (List.length_eq_zero_iff.mp hlength) ev hev

/-- What holds of a record and is kept by one event more holds at each moment of the record. -/
theorem exists_of_prefix (h : Handled threshold asks input log ahead? rest ended since)
    (hevs : evs <+: log) :
    ∃ ahead? rest ended since, Handled threshold asks input evs ahead? rest ended since := by
  induction h with
  | start =>
    obtain rfl := List.prefix_nil.mp hevs
    exact ⟨_, _, _, _, .start⟩
  | again _ _ ih => exact ih hevs
  | pull h hasks ih =>
    rcases List.prefix_concat_iff.mp hevs with rfl | hevs
    · exact ⟨_, _, _, _, h.pull hasks⟩
    · exact ih hevs
  | dry span h hasks ih =>
    rcases List.prefix_concat_iff.mp hevs with rfl | hevs
    · exact ⟨_, _, _, _, h.dry span hasks⟩
    · exact ih hevs
  | shift v h ih =>
    rcases List.prefix_concat_iff.mp hevs with rfl | hevs
    · exact ⟨_, _, _, _, h.shift v⟩
    · exact ih hevs
  | discard h hsince ih =>
    rcases List.prefix_concat_iff.mp hevs with rfl | hevs
    · exact ⟨_, _, _, _, h.discard hsince⟩
    · exact ih hevs
  | resume n span h ih =>
    rcases List.prefix_concat_iff.mp hevs with rfl | hevs
    · exact ⟨_, _, _, _, h.resume n span⟩
    · exact ih hevs
  | aside h hev ih =>
    rcases List.prefix_concat_iff.mp hevs with rfl | hevs
    · exact ⟨_, _, _, _, h.aside hev⟩
    · exact ih hevs

/-- The source is asked where it may be, and not once it has said that it has no more. -/
theorem asks_of_prefix {token? : Option Token}
    (h : Handled threshold asks input log ahead? rest ended since)
    (hevs : evs ++ [.pull token?] <+: log) : asks evs ∧ .pull none ∉ evs := by
  obtain ⟨ahead?, rest, ended, since, h⟩ := h.exists_of_prefix hevs
  generalize hlog : evs ++ [.pull token?] = log at h
  induction h generalizing evs with
  | start => cases List.append_ne_nil_of_right_ne_nil _ (List.cons_ne_nil _ _) hlog
  | again _ _ ih => exact ih hevs hlog
  | pull h hasks _ =>
    obtain ⟨rfl, -⟩ := List.append_inj' hlog rfl
    refine ⟨hasks, fun hmem ↦ ?_⟩
    cases h.pull_none_mem_iff.mp hmem
  | dry _ h hasks _ =>
    obtain ⟨rfl, -⟩ := List.append_inj' hlog rfl
    refine ⟨hasks, fun hmem ↦ ?_⟩
    cases h.pull_none_mem_iff.mp hmem
  | shift => cases (List.append_inj' hlog rfl).2
  | discard => cases (List.append_inj' hlog rfl).2
  | resume => cases (List.append_inj' hlog rfl).2
  | aside _ hev _ =>
    obtain ⟨-, hev'⟩ := List.append_inj' hlog rfl
    cases hev'
    cases hev

theorem unmoved_of_prefix {t : Token}
    (h : Handled threshold asks input log ahead? rest ended since)
    (hthreshold : 1 ≤ threshold) (hevs : evs ++ [.discard t] <+: log) : Unmoved evs := by
  obtain ⟨ahead?, rest, ended, since, h⟩ := h.exists_of_prefix hevs
  generalize hlog : evs ++ [.discard t] = log at h
  induction h generalizing evs with
  | start => cases List.append_ne_nil_of_right_ne_nil _ (List.cons_ne_nil _ _) hlog
  | again _ _ ih => exact ih hevs hlog
  | discard h hsince _ =>
    obtain ⟨rfl, -⟩ := List.append_inj' hlog rfl
    rw [hsince hthreshold] at h
    exact h.unmoved
  | pull => cases (List.append_inj' hlog rfl).2
  | dry => cases (List.append_inj' hlog rfl).2
  | shift => cases (List.append_inj' hlog rfl).2
  | resume => cases (List.append_inj' hlog rfl).2
  | aside _ hev _ =>
    obtain ⟨-, hev'⟩ := List.append_inj' hlog rfl
    cases hev'
    cases hev

end Handled

/-! ## Steps -/

namespace Config

/-- The record of the configuration tells what it holds of the source. -/
def Books (threshold : Nat) (asks : List (Event V) → Prop) (input : List Token)
    (s : Option Nat) (c : Config V σ) : Prop :=
  Handled threshold asks input c.log.toList c.ahead? c.input c.exhausted s

/-- The machine is quiet for as many tokens as are left of the threshold. -/
def Counts (threshold : Nat) (s : Option Nat) (c : Config V σ) : Prop :=
  c.quiet = (s.map (threshold - ·)).getD 0

variable {e : Engine α} {r : Reducer α V σ} {threshold : Nat} {asks : List (Event V) → Prop}
  {input : List Token} {s : Option Nat} {c c' : Config V σ}

/-- Each shift makes the machine less quiet by one token. -/
theorem Counts.shift (h : c.Counts threshold s) (hquiet : c'.quiet = c.quiet - 1) :
    c'.Counts threshold (s.map (· + 1)) := by
  unfold Counts at h ⊢
  rw [hquiet, h]
  cases s with
  | none => rfl
  | some k => exact Nat.sub_sub ..

theorem Books.of_same (h : c.Books threshold asks input s) (hlog : c'.log = c.log)
    (hahead : c'.ahead? = c.ahead?) (hinput : c'.input = c.input)
    (hexhausted : c'.exhausted = c.exhausted) : c'.Books threshold asks input s := by
  unfold Books
  rw [hlog, hahead, hinput, hexhausted]
  exact h

theorem Books.aside (h : c.Books threshold asks input s) (ev : Event V)
    (hev : ev.isAside = true) (hlog : c'.log = c.log.push ev) (hahead : c'.ahead? = c.ahead?)
    (hinput : c'.input = c.input) (hexhausted : c'.exhausted = c.exhausted) :
    c'.Books threshold asks input s := by
  unfold Books
  rw [hlog, hahead, hinput, hexhausted, Array.toList_push]
  exact Handled.aside h hev

theorem Books.report (h : c.Books threshold asks input s) (d : Diagnostic) :
    (c.report r d).Books threshold asks input s :=
  h.aside (.report d) rfl rfl rfl rfl rfl

theorem Books.read (h : c.Books threshold asks input s) (hahead : c.ahead? = none)
    (hasks : asks c.log.toList) :
    { (c.read e r).2 with ahead? := some (c.read e r).1 }.Books threshold asks input s := by
  unfold Books at h
  rw [hahead] at h
  by_cases hended : c.exhausted = true
  · rw [read_of_exhausted e r hended]
    rw [hended] at h
    have hrest := h.rest_eq_nil
    rw [hrest] at h
    change Handled threshold asks input c.log.toList _ c.input c.exhausted s
    rw [hrest, hended]
    exact h.again c.lastSpan.endPoint
  · rw [eq_false_of_ne_true hended] at h
    cases hinput : c.input with
    | nil =>
      rw [hinput] at h
      rw [read_of_nil e r (eq_false_of_ne_true hended) hinput]
      change Handled threshold asks input (c.log.push _).toList _ c.input true s
      rw [hinput, Array.toList_push]
      exact h.dry _ hasks
    | cons t rest =>
      rw [hinput] at h
      have hpull := h.pull hasks
      unfold Config.read
      rw [if_neg hended, hinput]
      dsimp only
      split
      · -- the token is none, and is reported
        change Handled threshold asks input ((c.log.push _).push _).toList _ rest c.exhausted s
        rw [eq_false_of_ne_true hended, Array.toList_push, Array.toList_push]
        exact hpull.aside rfl
      · change Handled threshold asks input (c.log.push _).toList _ rest c.exhausted s
        rw [eq_false_of_ne_true hended, Array.toList_push]
        exact hpull

theorem Books.peek (h : c.Books threshold asks input s)
    (hasks : c.ahead? = none → asks c.log.toList) :
    (c.peek e r).2.Books threshold asks input s := by
  cases hahead : c.ahead? with
  | some t =>
    rw [peek_of_ahead e r hahead]
    exact h
  | none =>
    rw [peek_of_none e r hahead]
    exact h.read hahead (hasks hahead)

theorem Books.push (h : c.Books threshold asks input s) (n : Nat) (v : V) (span : Span) :
    (c.push r n v span).config.Books threshold asks input s := by
  unfold Config.push
  split
  · exact h.of_same rfl rfl rfl rfl
  · exact h.of_same rfl rfl rfl rfl

theorem Books.popped (h : c.Books threshold asks input s) (popped : List (Slot V)) :
    (popped.foldl (fun c x ↦ (c.release r x.value).record (.pop x)) c).Books threshold asks input
      s := by
  induction popped generalizing c with
  | nil => exact h
  | cons x popped ih => exact ih (h.aside (.pop x) rfl rfl rfl rfl rfl)

/-- What a step keeps: the machine counts as its record says, unless the run has ended. -/
abbrev Keeps (threshold : Nat) (asks : List (Event V) → Prop) (input : List Token)
    (s : Step V σ) : Prop :=
  s.Post (fun c ↦ ∃ s, c.Books threshold asks input s ∧ c.Counts threshold s)
    (fun _ c ↦ ∃ s, c.Books threshold asks input s)
    fun _ c ↦ ∃ s, c.Books threshold asks input s

theorem keeps_push (h : c.Books threshold asks input s) (hc : c.Counts threshold s)
    (n : Nat) (v : V) (span : Span) : Keeps threshold asks input (c.push r n v span) := by
  have hpush := h.push (r := r) n v span
  unfold Config.push at hpush ⊢
  split at hpush
  · exact ⟨s, hpush, hc⟩
  · exact ⟨s, hpush⟩

theorem keeps_shift {t : Token} (h : c.Books threshold asks input s)
    (hc : c.Counts threshold s) (hahead : c.ahead? = some t) (n : Nat) :
    Keeps threshold asks input (c.shift r n) := by
  unfold Config.shift
  rw [hahead]
  dsimp only
  apply keeps_push (s := s.map (· + 1))
  · unfold Books at h ⊢
    rw [hahead] at h
    change Handled threshold asks input (c.log.push _).toList none c.input c.exhausted _
    rw [Array.toList_push]
    exact h.shift _
  · exact hc.shift rfl

theorem Books.unwound (h : c.Books threshold asks input s) :
    (c.unwound e r).Books threshold asks input s := by
  apply Books.popped
  exact h.of_same rfl rfl rfl rfl

theorem keeps_recover (h : c.Books e.options.recoveryShifts asks input s) (start : Span) :
    Keeps e.options.recoveryShifts asks input (c.recover e r start) := by
  have hunwound := h.unwound (e := e) (r := r)
  rw [recover_eq]
  split
  · exact ⟨s, hunwound⟩
  · split
    · exact ⟨s, hunwound⟩
    · apply keeps_push (s := some 0)
      · unfold Books at hunwound ⊢
        change Handled _ asks input (Array.push _ _).toList _ _ _ _
        rw [Array.toList_push]
        exact hunwound.resume _ _
      · obtain ⟨m, log, heq⟩ := c.unwound_eq (e := e) (r := r)
        unfold Counts
        rw [heq]
        rfl

theorem keeps_goto (h : c.Books threshold asks input s) (hc : c.Counts threshold s)
    (lhs rule : Nat) (v : V) (span : Span) :
    Keeps threshold asks input (c.goto e r lhs rule v span) := by
  unfold Config.goto
  split
  · exact ⟨s, h.of_same rfl rfl rfl rfl⟩
  · split
    · exact ⟨s, h.of_same rfl rfl rfl rfl⟩
    · exact keeps_push h hc _ v span

theorem keeps_reduce (h : c.Books e.options.recoveryShifts asks input s)
    (hc : c.Counts e.options.recoveryShifts s) (k : Nat) :
    Keeps e.options.recoveryShifts asks input (c.reduce e r k) := by
  cases hrule : e.grammar.rules[k]? with
  | none =>
    unfold Config.reduce
    rw [hrule]
    exact ⟨s, h⟩
  | some p =>
    have hreduced : ∀ out : Verdict V × σ,
        (c.reduced k p out).Books e.options.recoveryShifts asks input s :=
      fun out ↦ h.aside (.reduce _ out.1) rfl rfl rfl rfl rfl
    rw [reduce_eq hrule rfl]
    split
    · exact keeps_goto (hreduced _) hc _ _ _ _
    · exact keeps_recover ((hreduced _).report _) _
    · exact ⟨s, hreduced _⟩

theorem Books.complain (h : c.Books threshold asks input s) (n : Nat) (t : Token) :
    (c.complain e r n t).Books threshold asks input s := by
  unfold Config.complain
  split
  · exact h.report _
  · exact h

theorem keeps_fail (h : c.Books e.options.recoveryShifts asks input s)
    (hc : c.Counts e.options.recoveryShifts s) (n : Nat)
    (hasks : c.ahead? = none → asks c.log.toList) :
    Keeps e.options.recoveryShifts asks input (c.fail e r n) := by
  have hpeek := h.peek (e := e) (r := r) hasks
  have hcomplain := hpeek.complain (e := e) (r := r) n (c.peek e r).1
  have hquiet : ((c.peek e r).2.complain e r n (c.peek e r).1).quiet = c.quiet := by
    rw [quiet_complain, quiet_peek]
  have hahead : ((c.peek e r).2.complain e r n (c.peek e r).1).ahead? = some (c.peek e r).1 :=
    (sameReading_complain ..).ahead.trans (ahead?_peek ..)
  unfold Config.fail
  dsimp only
  rw [hquiet]
  split
  · -- nothing has been shifted s the machine went on after an error: the token is dropped
    split
    · exact ⟨s, hcomplain⟩
    · apply keeps_recover (s := s)
      unfold Books at hcomplain ⊢
      rw [hahead] at hcomplain
      change Handled _ asks input (Array.push _ _).toList none _ _ _
      rw [Array.toList_push]
      refine hcomplain.discard fun hthreshold ↦ ?_
      have hcount : c.quiet = (s.map (e.options.recoveryShifts - ·)).getD 0 := hc
      cases s with
      | none => simp only [Option.map_none, Option.getD_none] at hcount; omega
      | some k => simp only [Option.map_some, Option.getD_some] at hcount; congr 1; omega
  · exact keeps_recover hcomplain _

theorem keeps_accept (h : c.Books threshold asks input s) :
    Keeps threshold asks input c.accept := by
  unfold Config.accept
  split
  · exact ⟨s, h⟩
  · exact ⟨s, h.of_same rfl rfl rfl rfl⟩

/-- A step that the source may be asked in keeps the record in order. -/
theorem keeps_step (h : c.Books e.options.recoveryShifts asks input s)
    (hc : c.Counts e.options.recoveryShifts s)
    (hasks : ∀ x rest, c.stack.slots = x :: rest →
      (e.rowAt x.state).needsLookahead = true ∨ c.step e r = c.fail e r x.state →
        asks c.log.toList) :
    Keeps e.options.recoveryShifts asks input (c.step e r) := by
  cases hslots : c.stack.slots with
  | nil =>
    rw [step_of_nil hslots]
    exact ⟨s, h⟩
  | cons x rest =>
    have hstep := step_of_cons (e := e) (r := r) hslots
    have hconsult : (c.consult e r (e.rowAt x.state)).Books e.options.recoveryShifts asks input
        s := by
      unfold consult
      split
      · exact h.peek fun _ ↦ hasks x rest hslots (Or.inl ‹_›)
      · exact h
    have hcounts : (c.consult e r (e.rowAt x.state)).Counts e.options.recoveryShifts s := by
      unfold Counts
      rw [quiet_consult]
      exact hc
    cases hdecide : (e.rowAt x.state).decide (c.peek e r).1.kind with
    | none =>
      rw [hdecide] at hstep
      by_cases hneeds : (e.rowAt x.state).needsLookahead = true
      · rw [hstep]
        apply keeps_fail hconsult hcounts
        rw [consult, if_pos hneeds, ahead?_peek]
        exact fun hnone ↦ (Option.some_ne_none _ hnone).elim
      · have heq : c.consult e r (e.rowAt x.state) = c := if_neg hneeds
        rw [heq] at hstep
        rw [hstep]
        exact keeps_fail h hc _ fun _ ↦ hasks x rest hslots (Or.inr hstep)
    | some a =>
      rw [hstep, hdecide]
      cases a with
      | shift n =>
        have hpeek : c.consult e r (e.rowAt x.state) = (c.peek e r).2 :=
          consult_of_decide e r hdecide (by simp)
        apply keeps_shift hconsult hcounts (t := (c.peek e r).1)
        rw [hpeek, ahead?_peek]
      | reduce k => exact keeps_reduce hconsult hcounts k
      | accept => exact keeps_accept hconsult

theorem keeps_start (e : Engine α) (r : Reducer α V σ) (input : List Token) (m : σ) :
    Keeps e.options.recoveryShifts asks input (e.start r input m) := by
  unfold Engine.start
  cases Stack.create (V := V) e.options.initialStackDepth e.options.maxStackDepth with
  | error overflow => exact ⟨none, .start⟩
  | ok stack =>
    apply keeps_push (s := none)
    · exact Handled.start
    · rfl

end Config

/-! ## Runs -/

namespace Engine

variable (e : Engine α) (r : Reducer α V σ) (input : List Token) (m : σ)

/-- The source has been asked where a row needs to know what comes next, or an error has come up. -/
def Asks (evs : List (Event V)) : Prop :=
  ∃ (n : Nat) (c : Config V σ) (x : Slot V) (rest : List (Slot V)),
    e.steps r n (e.start r input m) = .running c ∧ c.log.toList = evs ∧
      c.stack.slots = x :: rest ∧
      ((e.rowAt x.state).needsLookahead = true ∨ c.step e r = c.fail e r x.state)

theorem steps_succ (n : Nat) (s : Step V σ) :
    e.steps r (n + 1) s =
      match e.steps r n s with
      | .running c => c.step e r
      | s => s := by
  rw [steps_add]
  cases e.steps r n s <;> rfl

theorem keeps_steps (n : Nat) :
    Config.Keeps e.options.recoveryShifts (e.Asks r input m) input
      (e.steps r n (e.start r input m)) := by
  induction n with
  | zero =>
    rw [steps_zero]
    exact Config.keeps_start e r input m
  | succ n ih =>
    rw [steps_succ]
    cases hsteps : e.steps r n (e.start r input m) with
    | running c =>
      rw [hsteps] at ih
      obtain ⟨since, hbooks, hcounts⟩ := ih
      exact Config.keeps_step hbooks hcounts fun x rest hslots hneeds ↦
        ⟨n, c, x, rest, hsteps, rfl, hslots, hneeds⟩
    | accepted v c =>
      rw [hsteps] at ih
      exact ih
    | aborted cause c =>
      rw [hsteps] at ih
      exact ih

theorem exists_handled_run (budget : Nat) :
    ∃ ahead? rest ended since, Handled e.options.recoveryShifts (e.Asks r input m) input
      (e.run r budget input m).2.log.toList ahead? rest ended since := by
  have hkeeps := keeps_steps e r input m budget
  unfold run
  cases hsteps : e.steps r budget (e.start r input m) with
  | running c =>
    rw [hsteps] at hkeeps
    obtain ⟨since, hbooks, -⟩ := hkeeps
    exact ⟨_, _, _, since, hbooks⟩
  | accepted v c =>
    rw [hsteps] at hkeeps
    obtain ⟨since, hbooks⟩ := hkeeps
    refine ⟨c.ahead?, c.input, c.exhausted, since, ?_⟩
    change Handled _ _ _ (clear r c).log.toList _ _ _ _
    rw [log_clear]
    exact hbooks
  | aborted cause c =>
    rw [hsteps] at hkeeps
    obtain ⟨since, hbooks⟩ := hkeeps
    refine ⟨c.ahead?, c.input, c.exhausted, since, ?_⟩
    change Handled _ _ _ ((clear r c).log.push _).toList _ _ _ _
    rw [log_clear, Array.toList_push]
    exact Handled.aside hbooks rfl

variable {e r} in
theorem Does.shifted_ne {slots slots' : List (Slot V)} {m m' : σ} {ev : Event V}
    (hend : ∀ n n', ¬e.grammar.Edge n (.terminal .endOfInput) n')
    (h : Does e r slots m ev slots' m') : ∀ t ∈ ev.shifted?, t.kind ≠ .endOfInput := by
  cases h with
  | @shift x _ _ t n _ _ hedge =>
    rintro _ ⟨⟩ hkind
    rw [hkind] at hedge
    exact hend _ _ hedge
  | _ => exact fun t ht ↦ nomatch ht

variable {e r} in
theorem shifted_ne_trace (hend : ∀ n n', ¬e.grammar.Edge n (.terminal .endOfInput) n')
    {evs : List (Event V)} {slots : List (Slot V)} {m₀ m : σ} (h : Trace e r m₀ evs slots m) :
    ∀ t ∈ evs.filterMap Event.shifted?, t.kind ≠ .endOfInput := by
  induction h with
  | start => exact fun t ht ↦ nomatch ht
  | snoc _ hev ih =>
    intro t ht
    rw [List.filterMap_append, List.mem_append] at ht
    rcases ht with ht | ht
    · exact ih t ht
    · obtain ⟨ev, hmem, hshifted⟩ := List.mem_filterMap.mp ht
      rw [List.mem_singleton.mp hmem] at hshifted
      exact Does.shifted_ne hend hev t hshifted

variable {e r} in
theorem shifted_ne_stopped (hend : ∀ n n', ¬e.grammar.Edge n (.terminal .endOfInput) n')
    {cause : Abort} {evs : List (Event V)} {slots : List (Slot V)} {m₀ m : σ}
    (h : Stopped e r m₀ cause evs slots m) :
    ∀ t ∈ evs.filterMap Event.shifted?, t.kind ≠ .endOfInput := by
  cases h with
  | start => exact fun t ht ↦ nomatch ht
  | unrecoverable _ _ h => exact shifted_ne_trace hend h
  | fatal h =>
    intro t ht
    rw [List.filterMap_append, List.mem_append] at ht
    rcases ht with ht | ht
    · exact shifted_ne_trace hend h t ht
    · cases ht
  | overflow _ h hev => exact shifted_ne_trace hend (h.snoc hev)

/-- An end of input that no rule mentions is not shifted. -/
theorem shifted_ne_run (hg : e.tables = e.grammar.tables)
    (hrules : ∀ p ∈ e.grammar.rules, .terminal .endOfInput ∉ p.rhs) (budget : Nat) :
    ∀ t ∈ (e.run r budget input m).2.log.toList.filterMap Event.shifted?,
      t.kind ≠ .endOfInput := by
  have hend := Grammar.not_edge_of_not_mem hrules
  have hsteps := continues_steps (r := r) hg budget input m
  unfold run
  cases hlast : e.steps r budget (e.start r input m) with
  | running c =>
    rw [hlast] at hsteps
    exact shifted_ne_trace hend hsteps
  | accepted v c =>
    rw [hlast] at hsteps
    obtain ⟨_, _, htrace, -⟩ := hsteps
    change ∀ t ∈ (clear r c).log.toList.filterMap _, _
    rw [log_clear]
    exact shifted_ne_trace hend htrace
  | aborted cause c =>
    rw [hlast] at hsteps
    change ∀ t ∈ ((clear r c).log.push _).toList.filterMap _, _
    rw [log_clear, Array.toList_push, List.filterMap_append]
    intro t ht
    rcases List.mem_append.mp ht with ht | ht
    · exact shifted_ne_stopped hend hsteps t ht
    · cases ht

end Engine

/-- What the record of a run says about the tokens of its source. -/
structure ReadsOnce (e : Engine α) (r : Reducer α V σ) (input : List Token) (m : σ)
    (log : List (Event V)) : Prop where
  asked : ∀ evs token?, evs ++ [.pull token?] <+: log → .pull none ∉ evs
  accounted : ∀ evs, evs <+: log → Accounted input evs
  needed : ∀ evs token?, evs ++ [.pull token?] <+: log → e.Asks r input m evs
  unmoved : 1 ≤ e.options.recoveryShifts → ∀ evs t, evs ++ [.discard t] <+: log → Unmoved evs
  shifted : e.tables = e.grammar.tables → (∀ p ∈ e.grammar.rules, .terminal .endOfInput ∉ p.rhs) →
    (log.filterMap Event.shifted?).Sublist input

/-- Tokens are neither lost nor duplicated nor read too early. The source is not asked again once it
has said that it has no more, and it is asked only where a row needs to know what comes next or an
error has come up. At every moment, the tokens that have been read are those that have been shifted
or dropped, in the same order, and at most one more. If recovery asks for a shift at all, a token is
dropped only if none has been shifted since the machine last went on after an error. -/
theorem reads_once (e : Engine α) (r : Reducer α V σ) (budget : Nat) (input : List Token) (m : σ) :
    ReadsOnce e r input m (e.run r budget input m).2.log.toList := by
  obtain ⟨ahead?, rest, ended, since, h⟩ := e.exists_handled_run r input m budget
  constructor
  · exact fun evs token? hevs ↦ (h.asks_of_prefix hevs).2
  · intro evs hevs
    obtain ⟨_, _, _, _, h⟩ := h.exists_of_prefix hevs
    exact h.accounted
  · exact fun evs token? hevs ↦ (h.asks_of_prefix hevs).1
  · exact fun hthreshold evs t hevs ↦ h.unmoved_of_prefix hthreshold hevs
  · intro hg hend
    obtain ⟨own, made, heq, hown, hmade, -⟩ := h.accounted.shifted
    have hnone : made = [] := by
      rw [List.eq_nil_iff_forall_not_mem]
      intro t ht
      have hshifted : t ∈ (e.run r budget input m).2.log.toList.filterMap Event.shifted? := by
        rw [heq]
        exact List.mem_append_right _ ht
      exact e.shifted_ne_run r input m hg hend budget t hshifted (hmade t ht)
    rw [heq, hnone, List.append_nil]
    exact hown

/-- Where a rule mentions the end of input, an end that is made up can be shifted. -/
def Grammar.endMarked : Grammar String where
  names := ["text"]
  levels := []
  rules := [⟨0, [.terminal .endOfInput], "end", none⟩]
  start := 0
  start_lt := by decide
  rank?_error := by decide
  defined := by decide

/-- The end of input is shifted although the source is empty. -/
theorem not_sublist_shifted_endMarked :
    ¬(((Grammar.endMarked.engine ⟨"main", 0⟩ {}).run (.term [] []) 4 [] #[]).2.log.toList.filterMap
      Event.shifted?).Sublist [] := by
  have hshifted : ((Grammar.endMarked.engine ⟨"main", 0⟩ {}).run
      (.term [] []) 4 [] #[]).2.log.toList.filterMap Event.shifted? =
        [.endOfInput (.point 1 1)] := by
    decide +kernel
  rw [hshifted, List.sublist_nil]
  exact List.cons_ne_nil _ _

end PlainLedger
