import PlainLedger.Proofs.Language.Passages
import PlainLedger.Proofs.Machine.Capacity
import PlainLedger.Transcript

/-!
# What messages offer

A message about an unexpected token lists the terminals that the row of the topmost state has an
action for. Where a token is unexpected the row has no default, and in the language such a row only
reads on, unless the whole text may end there. So each terminal that is listed would have been read.
-/

namespace PlainLedger

variable {α V σ τ : Type}

/-- The token stands in place of the one that comes next, and something else is remembered. -/
def Config.offer (e : Engine α) (r : Reducer α V σ) (t : Token) (m : τ) (c : Config V σ) :
    Config V τ :=
  let c := (c.peek e r).2
  { stack := c.stack
    ahead? := some t
    input := c.input
    exhausted := c.exhausted
    lastSpan := c.lastSpan
    quiet := c.quiet
    memory := m
    log := c.log }

/-- The machine goes on to read the token, which is the next one, or to accept if it is the end of
input, and nothing is out of place on the way; or it runs out of room. -/
inductive Engine.Takes (e : Engine α) (r : Reducer α V σ) (t : Token) : Config V σ → Prop where
  | shift {c c' : Config V σ} (hplace : ¬c.Errs e) (hstep : c.step e r = .running c')
      (hlog : c'.log = c.log.push (.shift t (r.ofToken t c.memory).1)) : Takes e r t c
  | accept {c c' : Config V σ} {v : V} (hplace : ¬c.Errs e) (hend : t.kind = .endOfInput)
      (hstep : c.step e r = .accepted v c') : Takes e r t c
  | overflow {c c' : Config V σ} {depth : Nat} (hplace : ¬c.Errs e)
      (hstep : c.step e r = .aborted (.stackOverflow depth) c') : Takes e r t c
  | reduce {c c' : Config V σ} (hplace : ¬c.Errs e) (hstep : c.step e r = .running c')
      (hpending : c'.pending = c.pending) (h : Takes e r t c') : Takes e r t c

namespace Config

variable {e : Engine α} {r : Reducer α V σ} {t : Token} {c : Config V σ} {x : Slot V}
  {rest : List (Slot V)} {row : Row}

theorem offer_stack (t : Token) (m : τ) (c : Config V σ) :
    (c.offer e r t m).stack = c.stack :=
  c.stack_peek e r

theorem upcoming_of_ahead (h : c.ahead? = some t) : c.upcoming = t.kind := by
  rw [upcoming, pending_of_ahead h]
  split
  · rename_i hend
    exact hend.symm
  · rfl

/-- A row that a token is out of place in has no default. -/
theorem default?_of_errs (hslots : c.stack.slots = x :: rest) (hrow : e.row? x.state = some row)
    (h : c.Errs e) : row.default? = none := by
  rw [errs_iff hslots hrow, Row.decide, Option.or_eq_none_iff] at h
  exact Option.map_eq_none_iff.mp h.2

/-- A token that the row reads is shifted at once, if there is room for it. -/
theorem takes_of_shift {n : Nat} (hslots : c.stack.slots = x :: rest)
    (hrow : e.row? x.state = some row) (hahead : c.ahead? = some t)
    (hdecide : row.decide t.kind = some (.shift n)) : e.Takes r t c := by
  have hplace : ¬c.Errs e := by
    rw [errs_iff hslots hrow, upcoming_of_ahead hahead, hdecide]
    exact nofun
  have hstep : c.step e r = (c.taken t (r.ofToken t c.memory).1 (r.ofToken t c.memory).2).push r n
      (r.ofToken t c.memory).1 t.span := by
    rw [step_eq e r hslots hrow, peek_of_ahead e r hahead, hdecide]
    dsimp only
    rw [consult_of_decide e r hdecide nofun, peek_of_ahead e r hahead, shift_eq hahead rfl]
  cases hpush : c.stack.push ⟨n, (r.ofToken t c.memory).1, t.span⟩ with
  | ok stack => exact .shift hplace (hstep.trans (push_of_ok hpush)) rfl
  | error overflow => exact .overflow hplace (hstep.trans (push_of_error hpush))

/-- Where the row accepts before the end of input, the end of input is accepted. -/
theorem takes_of_accept (hslots : c.stack.slots = x :: rest) (hrow : e.row? x.state = some row)
    (ht : t.kind = .endOfInput) (hpending : c.pending = [])
    (hdecide : row.decide .endOfInput = some .accept) : e.Takes r t c := by
  have hplace : ¬c.Errs e := by
    rw [errs_iff hslots hrow, upcoming_eq_endOfInput_iff.mpr hpending, hdecide]
    exact nofun
  have hpost := step_of_accept (r := r) hslots hrow hpending hdecide
  cases hstep : c.step e r with
  | running c' =>
    rw [hstep] at hpost
    exact hpost.elim
  | accepted v c' => exact .accept hplace ht hstep
  | aborted cause c' =>
    rw [hstep] at hpost
    exact hpost.elim

end Config

namespace Language

variable {H ε σ ω : Type}

/-- In a state without a default each terminal that messages offer is read, unless it is the end of
input and the whole text may end there. -/
theorem decide_of_offered {n : Nat} {row : Row} (hrow : tables.row? n = some row)
    (hdefault : row.default? = none) {t : Terminal} (ht : t ∈ row.expected) :
    (∃ m, row.decide t = some (.shift m)) ∨ t = .endOfInput ∧ (n = between ∨ n = closing) := by
  have hall : ∀ r ∈ listedTables.rows.zipIdx, r.1.default? = none → ∀ t ∈ r.1.expected,
      (r.1.decide t).isSome = true ∧ ReadsOrFails r.1 t ∨
        t = .endOfInput ∧ (r.2 = between ∨ r.2 = closing) := by
    decide +kernel
  have hrow : listedTables.rows[n]? = some row := tables_eq ▸ hrow
  refine (hall (row, n) (List.mem_zipIdx_iff_getElem?.mpr hrow) hdefault t ht).imp_left ?_
  rintro ⟨hsome, hreads⟩
  obtain ⟨a, hdecide⟩ := Option.isSome_iff_exists.mp hsome
  rw [ReadsOrFails, hdecide] at hreads
  cases a with
  | shift m => exact ⟨m, hdecide⟩
  | reduce k => exact hreads.elim
  | accept => exact hreads.elim

/-- Whatever the text and whatever has been made of it so far: wherever a token is unexpected, a
token of any kind that is listed in its place would have been read, and the end of input, if it is
listed, would have been accepted. This does not depend on what is made of the text from there on. -/
theorem takes_expected (i : Interpretation H ε σ ω) (ctx : Context) (options : Options)
    (tokens : List Token) (state : σ) {n : Nat} {c : Config (Value H) (Session σ)}
    (hn : (engine ctx options).steps (reducer i ctx) n
      ((engine ctx options).start (reducer i ctx) tokens ⟨state, #[]⟩) = .running c)
    (herrs : c.Errs (engine ctx options)) {x : Slot (Value H)} (hx : x ∈ c.stack.top?) {t : Token}
    (ht : t.kind ∈ (engine ctx options).expected x.state) {ε' τ ω' : Type}
    (j : Interpretation H ε' τ ω') (s : Session τ) :
    (engine ctx options).Takes (reducer j ctx) t
      (c.offer (engine ctx options) (reducer i ctx) t s) := by
  obtain ⟨rest, hslots⟩ : ∃ rest, c.stack.slots = x :: rest :=
    ⟨_, List.eq_cons_of_mem_head? hx⟩
  have htrace := Engine.continues_steps (e := engine ctx options)
    (r := reducer i ctx) tables_engine n
    tokens ⟨state, #[]⟩
  have hbounded := (engine ctx options).post_bounded (reducer i ctx) n tokens ⟨state, #[]⟩
  rw [hn] at htrace hbounded
  change Trace _ _ _ _ c.stack.slots _ at htrace
  rw [hslots] at htrace
  obtain ⟨xs, hspelled⟩ := htrace.spelled
  obtain ⟨row, hrow⟩ := htrace.exists_row tables_engine
  have hexpected : t.kind ∈ row.expected := by
    rw [Engine.expected, hrow] at ht
    exact ht
  have hoffer : (c.offer (engine ctx options) (reducer i ctx) t s).stack.slots = x :: rest := by
    rw [Config.offer_stack, hslots]
  rcases decide_of_offered hrow (Config.default?_of_errs hslots hrow herrs) hexpected with
    ⟨m, hshift⟩ | ⟨hend, hstate⟩
  · exact Config.takes_of_shift hoffer hrow rfl hshift
  have hpending : (c.offer (engine ctx options) (reducer i ctx) t s).pending = [] :=
    Config.upcoming_eq_endOfInput_iff.mp ((Config.upcoming_of_ahead rfl).trans hend)
  rcases hstate with hx | hx
  · -- The list of declarations makes a ledger, and then the end of input is still ahead.
    obtain ⟨b, rfl, hxs⟩ := below_between hspelled hx
    have hb : b.state = opening := by
      rw [hxs] at hspelled
      cases hspelled with
      | push hs _ _ => exact hs.state_eq_zero.1
    have hroom : 2 ≤ c.stack.capacity := by
      have hlength := hbounded.length
      rwa [hslots] at hlength
    obtain ⟨c', span, hstep, hslots', hpending', -⟩ := exists_closed j ctx options hoffer hx hb
      (by rwa [Config.offer_stack]) hpending
    obtain ⟨k, hdecide⟩ := decide_between_end (hx ▸ hrow)
    obtain ⟨row', hrow', haccept⟩ := exists_row_closing
    refine .reduce ?_ hstep (hpending'.trans hpending.symm)
      (Config.takes_of_accept hslots' hrow' hend hpending' haccept)
    rw [Config.errs_iff hoffer hrow, Config.upcoming_eq_endOfInput_iff.mpr hpending, hdecide]
    exact nofun
  · exact Config.takes_of_accept hoffer hrow hend hpending (decide_closing (hx ▸ hrow))

/-- What comes of a line on which an account is closed without a name, before its end. -/
def namelessClose : Step (Value Transcript.Handle) (Session Transcript) :=
  (engine ⟨"main", 0⟩ {}).steps (reducer Transcript.interpretation ⟨"main", 0⟩) 3
    ((engine ⟨"main", 0⟩ {}).start (reducer Transcript.interpretation ⟨"main", 0⟩)
      [.ofText .date "2024-01-01" .start, .bare .closeWord .start, .bare .eol .start] ⟨{}, #[]⟩)

theorem errs_namelessClose :
    namelessClose.isEnd = false ∧ namelessClose.config.Errs (engine ⟨"main", 0⟩ {}) ∧
      ∃ x ∈ namelessClose.config.stack.top?,
        Terminal.account ∈ (engine ⟨"main", 0⟩ {}).expected x.state := by
  unfold namelessClose engine
  rw [tables_eq]
  decide +kernel

/-- An account is read in place of the end of the line. -/
theorem takes_expected_namelessClose :
    ∃ c x, namelessClose = .running c ∧ c.Errs (engine ⟨"main", 0⟩ {}) ∧ x ∈ c.stack.top? ∧
      Terminal.account ∈ (engine ⟨"main", 0⟩ {}).expected x.state ∧
      (engine ⟨"main", 0⟩ {}).Takes (reducer Transcript.interpretation ⟨"main", 0⟩)
        (.ofText .account "Assets:A" .start)
        (c.offer (engine ⟨"main", 0⟩ {}) (reducer Transcript.interpretation ⟨"main", 0⟩)
          (.ofText .account "Assets:A" .start) ⟨{}, #[]⟩) := by
  obtain ⟨hrunning, herrs, x, hx, hexpected⟩ := errs_namelessClose
  cases hlast : namelessClose with
  | running c =>
    rw [hlast] at herrs hx
    have htakes := takes_expected (t := .ofText .account "Assets:A" .start)
      Transcript.interpretation ⟨"main", 0⟩ {} _ {} hlast herrs hx hexpected
      Transcript.interpretation ⟨{}, #[]⟩
    exact ⟨c, x, rfl, herrs, hx, hexpected, htakes⟩
  | accepted v c =>
    rw [hlast] at hrunning
    cases hrunning
  | aborted cause c =>
    rw [hlast] at hrunning
    cases hrunning

end Language

end PlainLedger
