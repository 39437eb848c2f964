import PlainLedger.Proofs.Automaton.Follow
import PlainLedger.Proofs.Machine.Image
import PlainLedger.Proofs.Machine.Membership
import PlainLedger.Proofs.Machine.Room

/-!
# Machines without defaults

A machine that is attentive looks at the next token before each step, and its rows say everything:
no default has been taken out of them. As long as the tokens are where they may be, a machine with
defaults keeps abreast of it: both shift the same tokens and complete the same rules.
-/

namespace PlainLedger

variable {α V σ : Type}

namespace Grammar

variable {g : Grammar α} {n : Nat} {row : Row}

/-- Some state goes on with the token. -/
def Reads (g : Grammar α) (t : Terminal) : Prop := ∃ n m, g.Edge n (.terminal t) m

/-- The tables with every row as it is before its default is taken out. -/
def fullTables (g : Grammar α) : Tables where
  rows := ((g.fullRows g.flows g.states g.lookaheads).zip g.states).map fun ((actions, _), s) ↦
    { Row.ofEntries actions s.edges with actions, default? := none }
  conflicts := g.tables.conflicts

theorem exists_fullRow (h : g.tables.row? n = some row) :
    ∃ full, g.fullTables.row? n = some full ∧ full.gotos = row.gotos ∧
      ∀ t, full.decide t = g.fullAction? n t := by
  obtain ⟨S, la, hS, hla, rfl⟩ := tables_row?.mp h
  have hzip : (g.states.zip g.lookaheads)[n]? = some (S, la) :=
    List.getElem?_zip_eq_some.mpr ⟨hS, hla⟩
  have hentries : (g.fullRows g.flows g.states g.lookaheads)[n]? =
      some (g.fullRow g.flows n S la) := by
    rw [fullRows, List.getElem?_map, List.getElem?_zipIdx, Nat.zero_add, hzip]
    rfl
  refine ⟨{ Row.ofEntries (g.fullRow g.flows n S la).1 S.edges with
    actions := (g.fullRow g.flows n S la).1, default? := none }, ?_, rfl, fun t ↦ ?_⟩
  · have hpair : ((g.fullRows g.flows g.states g.lookaheads).zip g.states)[n]? =
        some (g.fullRow g.flows n S la, S) := List.getElem?_zip_eq_some.mpr ⟨hentries, hS⟩
    rw [Tables.row?, fullTables, List.getElem?_map, hpair]
    rfl
  · rw [fullAction?, hentries]
    exact Option.or_none

end Grammar

/-- The machine that looks at the next token before each step. -/
def Engine.attentive (e : Engine α) : Engine α := { e with tables := e.grammar.fullTables }

/-- The token that is shifted, or the rule that is completed. -/
def Event.deed? : Event V → Option (Token ⊕ Nat)
  | .shift t _ => some (.inl t)
  | .reduce red _ => some (.inr red.rule)
  | _ => none

instance {P : Config V σ → Prop} {A : V → Config V σ → Prop} {B : Abort → Config V σ → Prop}
    [DecidablePred P] [∀ v, DecidablePred (A v)] [∀ cause, DecidablePred (B cause)] (s : Step V σ) :
    Decidable (s.Post P A B) :=
  match s with
  | .running c => inferInstanceAs (Decidable (P c))
  | .accepted v c => inferInstanceAs (Decidable (A v c))
  | .aborted cause c => inferInstanceAs (Decidable (B cause c))

namespace Stack

/-- The slots have a place in the room, and the room is under the ceiling. -/
structure Bounded (s : Stack V) : Prop where
  positive : 1 ≤ s.capacity
  length : s.slots.length ≤ s.capacity
  capacity : s.capacity ≤ s.ceiling

variable {s s' : Stack V} {x : Slot V}

theorem Bounded.push (h : s.Bounded) (hpush : s.push x = .ok s') :
    s'.Bounded ∧ s'.ceiling = s.ceiling := by
  have hcapacity := h.capacity
  rcases h.length.lt_or_eq with hlt | heq
  · rw [push_of_lt hlt] at hpush
    cases hpush
    exact ⟨⟨h.positive, hlt, hcapacity⟩, rfl⟩
  · by_cases hfull : s.ceiling ≤ s.capacity
    · rw [push_of_full heq hfull] at hpush
      cases hpush
    · have hpositive := h.positive
      by_cases hfits : min (2 * s.capacity) s.ceiling < addressable
      · rw [push_of_grow heq (Nat.not_le.mp hfull) hfits] at hpush
        cases hpush
        refine ⟨⟨?_, ?_, ?_⟩, rfl⟩
        · change 1 ≤ min (2 * s.capacity) s.ceiling
          omega
        · change s.slots.length + 1 ≤ min (2 * s.capacity) s.ceiling
          omega
        · exact Nat.min_le_right ..
      · have hlength : s.length = s.capacity := heq
        unfold Stack.push grow reserve at hpush
        rw [if_pos hlength, if_neg hfull, if_neg hfits] at hpush
        cases hpush

theorem Bounded.drop (h : s.Bounded) (n : Nat) : Bounded { s with slots := s.slots.drop n } where
  positive := h.positive
  length := by
    rw [List.length_drop]
    exact (Nat.sub_le ..).trans h.length
  capacity := h.capacity

theorem bounded_create {initial most : Nat} (h : create initial most = .ok s) : s.Bounded := by
  unfold create at h
  rw [reserve_eq_ok h]
  refine ⟨?_, Nat.zero_le _, Nat.min_le_right ..⟩
  change 1 ≤ min (max initial 1) (max most 1)
  omega

end Stack

namespace Config

variable {e : Engine α} {r : Reducer α V σ} {c c' : Config V σ}

/-- The tokens that have been shifted and the rules that have been completed, in order. -/
def deeds (c : Config V σ) : List (Token ⊕ Nat) := c.log.toList.filterMap Event.deed?

/-- The token that comes next is out of place. -/
def Errs (e : Engine α) (c : Config V σ) : Prop :=
  ∃ x ∈ c.stack.top?, ∃ row ∈ e.row? x.state, row.decide c.upcoming = none

instance (e : Engine α) (c : Config V σ) : Decidable (c.Errs e) :=
  inferInstanceAs (Decidable (∃ x ∈ c.stack.top?, ∃ row ∈ e.row? x.state,
    row.decide c.upcoming = none))

theorem errs_iff {x : Slot V} {rest : List (Slot V)} {row : Row}
    (hslots : c.stack.slots = x :: rest) (hrow : e.row? x.state = some row) :
    c.Errs e ↔ row.decide c.upcoming = none := by
  have htop : c.stack.top? = some x := by simp [Stack.top?, hslots]
  unfold Errs
  rw [htop]
  simp [hrow]

theorem deeds_record (ev : Event V) (c : Config V σ) :
    (c.record ev).deeds = c.deeds ++ ev.deed?.toList := by
  unfold deeds record
  rw [Array.toList_push, List.filterMap_append]
  cases h : ev.deed? <;> simp [h]

theorem deeds_report (d : Diagnostic) (c : Config V σ) : (c.report r d).deeds = c.deeds :=
  (deeds_record (.report d) c).trans (List.append_nil _)

theorem deeds_read (c : Config V σ) : (c.read e r).2.deeds = c.deeds := by
  have hpull : ∀ (token? : Option Token) (c : Config V σ),
      (c.record (.pull token?)).deeds = c.deeds :=
    fun _ _ ↦ (deeds_record _ _).trans (List.append_nil _)
  unfold read
  split
  · rfl
  · split
    · exact hpull none _
    · dsimp only
      split
      · exact (deeds_report (r := r) _ _).trans (hpull _ _)
      · exact hpull _ _

theorem deeds_peek (c : Config V σ) : (c.peek e r).2.deeds = c.deeds := by
  cases h : c.ahead? with
  | some t => rw [peek_of_ahead e r h]
  | none =>
    rw [peek_of_none e r h]
    exact deeds_read c

/-! ## A look ahead -/

/-- The second is the first, or what it is once the next token has been looked at. -/
structure Looked (r : Reducer α V σ) (c c' : Config V σ) : Prop where
  stack : c'.stack = c.stack
  pending : c'.pending = c.pending
  deeds : c'.deeds = c.deeds
  memory : c'.memory = c.memory ∨ c.upcoming = .lexError ∧ ∃ d, c'.memory = r.report d c.memory

theorem looked_peek (c : Config V σ) : Looked r c (c.peek e r).2 := by
  refine ⟨c.stack_peek e r, c.pending_peek e r, c.deeds_peek, ?_⟩
  rw [← c.kind_peek e r]
  cases hahead : c.ahead? with
  | some t =>
    rw [peek_of_ahead e r hahead]
    exact Or.inl rfl
  | none =>
    rw [peek_of_none e r hahead]
    unfold read
    split
    · exact Or.inl rfl
    · split
      · exact Or.inl rfl
      · dsimp only
        split
        · rename_i hkind
          exact Or.inr ⟨hkind, _, rfl⟩
        · exact Or.inl rfl

theorem looked_consult (row : Row) (c : Config V σ) : Looked r c (c.consult e r row) := by
  unfold consult
  split
  · exact c.looked_peek
  · exact ⟨rfl, rfl, rfl, Or.inl rfl⟩

/-- A completed rule that has a value leads on with it. -/
theorem reduce_eq_push {x y : Slot V} {rest below : List (Slot V)} {row : Row} {k n : Nat}
    {p : Rule α} {v : V} {m : σ} (hslots : c.stack.slots = x :: rest)
    (hrule : e.grammar.rules[k]? = some p) (hbelow : (x :: rest).drop p.rhs.length = y :: below)
    (hrow : e.row? y.state = some row) (hgoto : row.goto? p.lhs = some n)
    (hverdict : r.reduce p.action (.ofSlots k p.rhs.length c.stack.slots) c.memory =
      (.value v, m)) :
    c.reduce e r k = (c.reduced k p (.value v, m)).push r n v
      (Reduction.ofSlots k p.rhs.length c.stack.slots).span := by
  have htop : (c.reduced k p (.value v, m)).stack.top? = some y := by
    change (c.stack.slots.drop p.rhs.length).head? = some y
    rw [hslots, hbelow, List.head?_cons]
  rw [reduce_eq hrule hverdict]
  dsimp only
  unfold goto
  rw [htop]
  dsimp only
  rw [hrow, Option.bind_some, hgoto]

end Config

/-! ## Reducers -/

namespace Reducer

/-- What is the same remains the same when a token is read and when a rule is completed, and the
same comes of it. -/
structure Steady (r : Reducer α V σ) (same : σ → σ → Prop) : Prop where
  refl (m : σ) : same m m
  value {m m' : σ} (t : Token) (h : same m m') : (r.ofToken t m).1 = (r.ofToken t m').1
  token {m m' : σ} (t : Token) (h : same m m') : same (r.ofToken t m).2 (r.ofToken t m').2
  verdict {m m' : σ} (a : α) (red : Reduction V) (h : same m m') :
    (r.reduce a red m).1 = (r.reduce a red m').1
  reduce {m m' : σ} (a : α) (red : Reduction V) (h : same m m') :
    same (r.reduce a red m).2 (r.reduce a red m').2

theorem steady_eq (r : Reducer α V σ) : r.Steady Eq where
  refl _ := rfl
  value t h := by rw [h]
  token t h := by rw [h]
  verdict a red h := by rw [h]
  reduce a red h := by rw [h]

/-- What is the same remains the same when something is reported. -/
def Deaf (r : Reducer α V σ) (same : σ → σ → Prop) : Prop :=
  ∀ d m m', same m m' → same (r.report d m) m' ∧ same m (r.report d m')

end Reducer

/-! ## Machines abreast -/

/-- Two machines have done the same and have the same before them. Tokens of the text that are not
before them are such as the grammar reads. If `P` then they hold the same values, and remember what
is the same. -/
structure Abreast (g : Grammar α) (r : Reducer α V σ) (same : σ → σ → Prop) (P : Prop)
    (text : List Token) (c d : Config V σ) : Prop where
  shape : c.stack.map (fun _ ↦ ()) = d.stack.map fun _ ↦ ()
  bounded : c.stack.Bounded
  pending : c.pending = d.pending
  past : ∀ t ∈ text, t ∈ c.pending ∨ g.Reads t.kind
  deeds : c.deeds = d.deeds
  alike : P → c.stack = d.stack ∧ same c.memory d.memory
  silent : P → r.Deaf same ∨ ∀ t ∈ c.pending, t.kind ≠ .lexError

/-- The steps lead on abreast, or end in the same way. -/
def Step.Abreast (g : Grammar α) (r : Reducer α V σ) (same : σ → σ → Prop) (P : Prop)
    (text : List Token) : Step V σ → Step V σ → Prop
  | .running c, .running d => PlainLedger.Abreast g r same P text c d
  | .accepted v c, .accepted w d =>
    (P → v = w) ∧ c.deeds = d.deeds ∧ ∀ t ∈ text, g.Reads t.kind
  | .aborted cause c, .aborted cause' d => cause = cause' ∧ c.deeds = d.deeds
  | _, _ => False

namespace Abreast

variable {e : Engine α} {r : Reducer α V σ} {same : σ → σ → Prop} {P : Prop} {text : List Token}
  {c c' d d' : Config V σ}

theorem upcoming {g : Grammar α} (h : Abreast g r same P text c d) : d.upcoming = c.upcoming := by
  unfold Config.upcoming
  rw [h.pending]

theorem slots {g : Grammar α} (h : Abreast g r same P text c d) :
    c.stack.slots.map (Slot.map fun _ ↦ ()) = d.stack.slots.map (Slot.map fun _ ↦ ()) :=
  congrArg Stack.slots h.shape

theorem exists_slots {g : Grammar α} (h : Abreast g r same P text c d) {n : Nat} {x : Slot V}
    {rest : List (Slot V)} (hslots : c.stack.slots.drop n = x :: rest) :
    ∃ y rest', d.stack.slots.drop n = y :: rest' ∧ y.state = x.state := by
  have hmap := h.slots
  replace hmap := congrArg (List.drop n) hmap
  rw [← List.map_drop, ← List.map_drop, hslots, List.map_cons] at hmap
  obtain ⟨y, rest', hy, hxy, -⟩ := List.map_eq_cons_iff.mp hmap.symm
  have hstate := congrArg Slot.state hxy
  exact ⟨y, rest', hy, hstate⟩

theorem look {g : Grammar α} (h : Abreast g r same P text c d) (hc : c.Looked r c')
    (hd : d.Looked r d') : Abreast g r same P text c' d' where
  shape := by rw [hc.stack, hd.stack, h.shape]
  bounded := by
    rw [hc.stack]
    exact h.bounded
  pending := by rw [hc.pending, hd.pending, h.pending]
  past := by
    rw [hc.pending]
    exact h.past
  deeds := by rw [hc.deeds, hd.deeds, h.deeds]
  alike hP := by
    obtain ⟨hstack, hsame⟩ := h.alike hP
    refine ⟨by rw [hc.stack, hd.stack, hstack], ?_⟩
    rcases h.silent hP with hdeaf | hsilent
    · have hsame' : same c'.memory d.memory := by
        rcases hc.memory with heq | ⟨-, _, heq⟩
        · rwa [heq]
        · rw [heq]
          exact (hdeaf _ _ _ hsame).1
      rcases hd.memory with heq | ⟨-, _, heq⟩
      · rwa [heq]
      · rw [heq]
        exact (hdeaf _ _ _ hsame').2
    · have hlex : c.upcoming ≠ .lexError := by
        unfold Config.upcoming
        cases hp : c.pending with
        | nil => exact (by decide : Terminal.endOfInput ≠ .lexError)
        | cons t ts => exact hsilent t (by rw [hp]; exact List.mem_cons_self ..)
      have hcm := hc.memory.resolve_right fun h' ↦ hlex h'.1
      have hdm := hd.memory.resolve_right fun h' ↦ hlex (h.upcoming ▸ h'.1)
      rwa [hcm, hdm]
  silent hP := by
    rw [hc.pending]
    exact h.silent hP

/-! ## The parts of a step -/

theorem push {g : Grammar α} (h : Abreast g r same P text c d) (n : Nat) (span : Span) {v w : V}
    (hv : P → v = w) :
    Step.Abreast g r same P text (c.push r n v span) (d.push r n w span) := by
  have heq : (c.stack.push ⟨n, v, span⟩).map (Stack.map fun _ ↦ ()) =
      (d.stack.push ⟨n, w, span⟩).map (Stack.map fun _ ↦ ()) := by
    rw [← Stack.push_map, ← Stack.push_map, h.shape]
    rfl
  unfold Config.push
  cases hc : c.stack.push ⟨n, v, span⟩ with
  | ok s =>
    cases hd : d.stack.push ⟨n, w, span⟩ with
    | ok s' =>
      rw [hc, hd] at heq
      refine ⟨Except.ok.inj heq, (h.bounded.push hc).1, h.pending, h.past, h.deeds, fun hP ↦ ?_,
        h.silent⟩
      obtain ⟨hstack, hsame⟩ := h.alike hP
      rw [hstack, hv hP, hd] at hc
      exact ⟨(Except.ok.inj hc).symm, hsame⟩
    | error overflow =>
      rw [hc, hd] at heq
      cases heq
  | error overflow =>
    cases hd : d.stack.push ⟨n, w, span⟩ with
    | ok s' =>
      rw [hc, hd] at heq
      cases heq
    | error overflow' =>
      rw [hc, hd] at heq
      cases heq
      exact ⟨rfl, h.deeds⟩

theorem shift (h : Abreast e.grammar r same P text c d) (hsteady : r.Steady same) {t : Token}
    {ts : List Token} (hpending : c.pending = t :: ts) (hreads : e.grammar.Reads t.kind) (n : Nat) :
    Step.Abreast e.grammar r same P text ((c.peek e r).2.shift r n)
      ((d.peek e.attentive r).2.shift r n) := by
  have hlooked := h.look (c.looked_peek (e := e)) (d.looked_peek (e := e.attentive))
  have hct : (c.peek e r).1 = t := by
    rcases c.pending_eq_of_peek e r with ⟨us, hus⟩ | ⟨hnil, -⟩
    · exact (List.cons.inj (hus.symm.trans hpending)).1
    · rw [hpending] at hnil
      cases hnil
  have hpending' : d.pending = t :: ts := h.pending.symm.trans hpending
  have hdt : (d.peek e.attentive r).1 = t := by
    rcases d.pending_eq_of_peek e.attentive r with ⟨us, hus⟩ | ⟨hnil, -⟩
    · exact (List.cons.inj (hus.symm.trans hpending')).1
    · rw [hpending'] at hnil
      cases hnil
  have hahead : (c.peek e r).2.ahead? = some t := by rw [Config.ahead?_peek, hct]
  have hahead' : (d.peek e.attentive r).2.ahead? = some t := by rw [Config.ahead?_peek, hdt]
  obtain ⟨v, m, hvalue⟩ : ∃ v m, r.ofToken t (c.peek e r).2.memory = (v, m) := ⟨_, _, rfl⟩
  obtain ⟨w, m', hvalue'⟩ : ∃ w m', r.ofToken t (d.peek e.attentive r).2.memory = (w, m') :=
    ⟨_, _, rfl⟩
  have hsame (hP : P) : v = w ∧ same m m' := by
    have hv := hsteady.value t (hlooked.alike hP).2
    have hm := hsteady.token t (hlooked.alike hP).2
    rw [hvalue, hvalue'] at hv hm
    exact ⟨hv, hm⟩
  rw [Config.shift_eq hahead hvalue, Config.shift_eq hahead' hvalue']
  refine push ?_ n t.span fun hP ↦ (hsame hP).1
  have hc := Config.pending_consume e r hpending ((c.peek e r).2.taken t v m) rfl rfl rfl
  have hd := Config.pending_consume e.attentive r hpending' ((d.peek e.attentive r).2.taken t w m')
    rfl rfl rfl
  refine ⟨hlooked.shape, hlooked.bounded, hc.trans hd.symm, ?_, ?_,
    fun hP ↦ ⟨(hlooked.alike hP).1, (hsame hP).2⟩, fun hP ↦ ?_⟩
  · intro u hu
    rw [hc]
    rcases h.past u hu with hmem | hreads'
    · rw [hpending] at hmem
      rcases List.mem_cons.mp hmem with rfl | hmem
      · exact Or.inr hreads
      · exact Or.inl hmem
    · exact Or.inr hreads'
  · apply (Config.deeds_record (.shift t v) { (c.peek e r).2 with memory := m }).trans
    have hdeeds := Config.deeds_record (.shift t w) { (d.peek e.attentive r).2 with memory := m' }
    exact (congrArg (· ++ [_]) hlooked.deeds).trans hdeeds.symm
  · refine (h.silent hP).imp_right fun hsilent u hu ↦ hsilent u ?_
    rw [hc] at hu
    rw [hpending]
    exact List.mem_cons_of_mem _ hu

theorem reduce (h : Abreast e.grammar r same P text c d) (hr : r.Total) (hsteady : r.Steady same)
    {x y : Slot V} {rest below : List (Slot V)} {row full : Row} {k n : Nat} {p : Rule α}
    (hslots : c.stack.slots = x :: rest) (hrule : e.grammar.rules[k]? = some p)
    (hbelow : (x :: rest).drop p.rhs.length = y :: below) (hrow : e.row? y.state = some row)
    (hgoto : row.goto? p.lhs = some n) (hfull : e.attentive.row? y.state = some full)
    (hgoto' : full.goto? p.lhs = some n) :
    Step.Abreast e.grammar r same P text (c.reduce e r k) (d.reduce e.attentive r k) := by
  obtain ⟨x', rest', hslots', -⟩ := h.exists_slots (n := 0) hslots
  rw [List.drop_zero] at hslots'
  obtain ⟨y', below', hbelow', hy⟩ := h.exists_slots (n := p.rhs.length) (hslots ▸ hbelow)
  rw [hslots'] at hbelow'
  rw [← hy] at hfull
  obtain ⟨v, m, hv⟩ := hr p.action (.ofSlots k p.rhs.length c.stack.slots) c.memory
  obtain ⟨w, m', hw⟩ := hr p.action (.ofSlots k p.rhs.length d.stack.slots) d.memory
  have hspan : (Reduction.ofSlots k p.rhs.length c.stack.slots).span =
      (Reduction.ofSlots k p.rhs.length d.stack.slots).span := by
    have hred := congrArg (Reduction.ofSlots k p.rhs.length) h.slots
    rw [Reduction.ofSlots_map, Reduction.ofSlots_map] at hred
    have hspan := congrArg Reduction.span hred
    exact hspan
  have hout : P → v = w ∧ same m m' := by
    intro hP
    obtain ⟨hstack, hsame⟩ := h.alike hP
    have hverdict := hsteady.verdict p.action (.ofSlots k p.rhs.length c.stack.slots) hsame
    have hmemory := hsteady.reduce p.action (.ofSlots k p.rhs.length c.stack.slots) hsame
    rw [hv, hstack, hw] at hverdict hmemory
    exact ⟨Verdict.value.inj hverdict, hmemory⟩
  rw [Config.reduce_eq_push hslots hrule hbelow hrow hgoto hv,
    Config.reduce_eq_push (e := e.attentive) hslots' hrule hbelow' hfull hgoto' hw, hspan]
  refine push ?_ n _ fun hP ↦ (hout hP).1
  refine ⟨?_, h.bounded.drop _, h.pending, h.past, ?_, fun hP ↦ ⟨?_, (hout hP).2⟩, h.silent⟩
  · have hdrop := congrArg (List.drop p.rhs.length) h.slots
    rw [← List.map_drop, ← List.map_drop] at hdrop
    have hcapacity := congrArg Stack.capacity h.shape
    have hceiling := congrArg Stack.ceiling h.shape
    exact (Stack.mk.injEq ..).mpr ⟨hdrop, hcapacity, hceiling⟩
  · apply (Config.deeds_record (.reduce (.ofSlots k p.rhs.length c.stack.slots) (.value v)) c).trans
    rw [h.deeds]
    exact (Config.deeds_record (.reduce (.ofSlots k p.rhs.length d.stack.slots) (.value w)) d).symm
  · change { c.stack with slots := c.stack.slots.drop p.rhs.length } =
      { d.stack with slots := d.stack.slots.drop p.rhs.length }
    rw [(h.alike hP).1]

theorem accept {g : Grammar α} (h : Abreast g r same P text c d) (hpending : c.pending = [])
    {x : Slot V} {rest : List (Slot V)} (hslots : c.stack.slots = x :: rest) :
    Step.Abreast g r same P text c.accept d.accept := by
  obtain ⟨x', rest', hslots', -⟩ := h.exists_slots (n := 0) hslots
  rw [List.drop_zero] at hslots'
  unfold Config.accept
  rw [Stack.pop?, hslots, Stack.pop?, hslots']
  refine ⟨fun hP ↦ ?_, h.deeds, fun t ht ↦ ?_⟩
  · have hstack := congrArg Stack.slots (h.alike hP).1
    rw [hslots, hslots'] at hstack
    rw [(List.cons.inj hstack).1]
  · refine (h.past t ht).resolve_left ?_
    rw [hpending]
    exact List.not_mem_nil

/-- Before a token that is not out of place both machines do the same. -/
theorem step (hg : e.tables = e.grammar.tables)
    (hend : ∀ n m, ¬e.grammar.Edge n (.terminal .endOfInput) m) (hr : r.Total)
    (hsteady : r.Steady same) (h : Abreast e.grammar r same P text c d) {xs : List Symbol}
    (hpath : e.grammar.Path (c.stack.slots.map Slot.state) xs) (hd : ¬d.Errs e.attentive) :
    ¬c.Errs e ∧
      Step.Abreast e.grammar r same P text (c.step e r) (d.step e.attentive r) := by
  obtain ⟨x, rest, hslots⟩ : ∃ x rest, c.stack.slots = x :: rest :=
    List.exists_cons_of_ne_nil fun hnil ↦ hpath.ne_nil (by rw [hnil, List.map_nil])
  obtain ⟨x', rest', hslots', hx⟩ := h.exists_slots (n := 0) hslots
  rw [List.drop_zero] at hslots'
  rw [hslots, List.map_cons] at hpath
  obtain ⟨S, hS⟩ := hpath.exists_state
  obtain ⟨row, hrow⟩ := Grammar.exists_row hS
  obtain ⟨full, hfull, -, hentry⟩ := Grammar.exists_fullRow hrow
  obtain ⟨a, ha⟩ : ∃ a, e.grammar.fullAction? x.state c.upcoming = some a := by
    refine Option.ne_none_iff_exists'.mp fun hnone ↦ hd ⟨x', ?_, full, ?_, ?_⟩
    · rw [Stack.top?, hslots', List.head?_cons, Option.mem_some_iff]
    · rw [hx]
      exact hfull
    · rw [hentry, h.upcoming, hnone]
  have hdecide : row.decide c.upcoming = some a := by
    rw [Grammar.decide_eq_fullAction? hrow, ha, Option.some_or]
  have hdecide' : full.decide d.upcoming = some a := by rw [hentry, h.upcoming, ha]
  have hallows := Grammar.allows_of_decide hrow hdecide
  have hrow' := hrow
  rw [← hg] at hrow'
  have hfull' : e.attentive.row? x'.state = some full := by
    rw [hx]
    exact hfull
  constructor
  · rw [Config.errs_iff hslots hrow', hdecide]
    exact Option.some_ne_none a
  rw [Config.step_eq e r hslots hrow', Config.step_eq e.attentive r hslots' hfull',
    Config.kind_peek, Config.kind_peek, hdecide, hdecide']
  cases a with
  | shift n =>
    dsimp only
    rw [Config.consult_of_decide e r hdecide (by simp),
      Config.consult_of_decide e.attentive r hdecide' (by simp)]
    rcases c.pending_eq_of_peek e r with ⟨ts, hpending⟩ | ⟨-, hk⟩
    · refine h.shift hsteady hpending ⟨x.state, n, ?_⟩ n
      rw [Config.kind_peek]
      exact hallows
    · rw [Config.kind_peek] at hk
      rw [hk] at hallows
      exact (hend _ _ hallows).elim
  | reduce k =>
    obtain ⟨p, hrule, hhas⟩ := hallows
    obtain ⟨-, -, s, ss, n, hdrop, -, T, hT, htarget⟩ := hpath.reduce hrule hhas
    rw [← List.map_cons (f := Slot.state), ← List.map_drop] at hdrop
    obtain ⟨y, below, hbelow, rfl, -⟩ := List.map_eq_cons_iff.mp hdrop
    obtain ⟨rowy, hrowy⟩ := Grammar.exists_row hT
    obtain ⟨fully, hfully, hgotos, -⟩ := Grammar.exists_fullRow hrowy
    have hgoto := (Grammar.goto?_eq_some_iff hrowy).mpr ⟨T, hT, htarget⟩
    have hgoto' : fully.goto? p.lhs = some n := by
      rw [← hgoto]
      unfold Row.goto?
      rw [hgotos]
    rw [← hg] at hrowy
    have hlook := h.look (c.looked_consult (e := e) row) (d.looked_consult (e := e.attentive) full)
    refine hlook.reduce hr hsteady ?_ hrule hbelow hrowy hgoto hfully hgoto'
    rw [Config.stack_consult, hslots]
  | accept =>
    have hpending : c.pending = [] := Config.upcoming_eq_endOfInput_iff.mp hallows.1
    have hlook := h.look (c.looked_consult (e := e) row) (d.looked_consult (e := e.attentive) full)
    have hslots₁ : (c.consult e r row).stack.slots = x :: rest := by
      rw [Config.stack_consult, hslots]
    exact hlook.accept ((c.pending_consult e r row).trans hpending) hslots₁

end Abreast

/-! ## Runs abreast -/

namespace Engine

variable {e : Engine α} {r : Reducer α V σ} {same : σ → σ → Prop} {P : Prop}

/-- In the first `n` steps no token is out of place. -/
def Flawless (e : Engine α) (r : Reducer α V σ) (s : Step V σ) (n : Nat) : Prop :=
  ∀ k < n, (e.steps r k s).Post (fun c ↦ ¬c.Errs e) (fun _ _ ↦ True) fun _ _ ↦ True

theorem Flawless.mono {s : Step V σ} {n k : Nat} (h : e.Flawless r s n) (hle : k ≤ n) :
    e.Flawless r s k := fun i hi ↦ h i (hi.trans_le hle)

theorem Flawless.succ {s : Step V σ} {n : Nat} (h : e.Flawless r s n)
    (hn : (e.steps r n s).Post (fun c ↦ ¬c.Errs e) (fun _ _ ↦ True) fun _ _ ↦ True) :
    e.Flawless r s (n + 1) := by
  intro k hk
  rcases Nat.lt_succ_iff_lt_or_eq.mp hk with hlt | rfl
  · exact h k hlt
  · exact hn

theorem abreast_start {input : List Token} {m : σ} (hsteady : r.Steady same)
    (hsilent : P → r.Deaf same ∨ ∀ t ∈ textOf input, t.kind ≠ .lexError) :
    Step.Abreast e.grammar r same P (textOf input) (e.start r input m)
      (e.attentive.start r input m) := by
  have hsame : e.attentive.start r input m = e.start r input m := rfl
  rw [hsame]
  unfold start
  cases hcreate : Stack.create (V := V) e.options.initialStackDepth e.options.maxStackDepth with
  | error overflow => exact ⟨rfl, rfl⟩
  | ok stack =>
    refine Abreast.push ?_ 0 .start fun _ ↦ rfl
    exact ⟨rfl, Stack.bounded_create hcreate, rfl, fun t ht ↦ Or.inl ht, rfl,
      fun _ ↦ ⟨rfl, hsteady.refl m⟩, hsilent⟩

/-- As long as no token is out of place the two machines keep abreast. -/
theorem abreast_steps (hg : e.tables = e.grammar.tables)
    (hend : ∀ n m, ¬e.grammar.Edge n (.terminal .endOfInput) m) (hr : r.Total)
    (hsteady : r.Steady same) {input : List Token} {m : σ}
    (hsilent : P → r.Deaf same ∨ ∀ t ∈ textOf input, t.kind ≠ .lexError) {n : Nat}
    (h : e.attentive.Flawless r (e.attentive.start r input m) n) :
    e.Flawless r (e.start r input m) n ∧
      Step.Abreast e.grammar r same P (textOf input) (e.steps r n (e.start r input m))
        (e.attentive.steps r n (e.attentive.start r input m)) := by
  induction n with
  | zero =>
    rw [steps_zero, steps_zero]
    exact ⟨fun k hk ↦ (Nat.not_lt_zero k hk).elim, abreast_start hsteady hsilent⟩
  | succ n ih =>
    obtain ⟨hflawless, habreast⟩ := ih (h.mono n.le_succ)
    have hflaw := h n n.lt_succ_self
    have htraced := continues_steps (r := r) hg n input m
    rw [steps_add, steps_add]
    suffices hone : (e.steps r n (e.start r input m)).Post (fun c ↦ ¬c.Errs e) (fun _ _ ↦ True)
          (fun _ _ ↦ True) ∧
        Step.Abreast e.grammar r same P (textOf input)
          (e.steps r 1 (e.steps r n (e.start r input m)))
          (e.attentive.steps r 1 (e.attentive.steps r n (e.attentive.start r input m))) from
      ⟨hflawless.succ hone.1, hone.2⟩
    generalize e.steps r n (e.start r input m) = s at habreast htraced ⊢
    generalize e.attentive.steps r n (e.attentive.start r input m) = s' at habreast hflaw ⊢
    cases s with
    | running c =>
      cases s' with
      | running d =>
        obtain ⟨xs, hxs⟩ := Trace.spelled htraced
        exact Abreast.step hg hend hr hsteady habreast hxs.path hflaw
      | accepted w d => exact habreast.elim
      | aborted cause d => exact habreast.elim
    | accepted v c =>
      cases s' with
      | running d => exact habreast.elim
      | accepted w d => exact ⟨trivial, habreast⟩
      | aborted cause d => exact habreast.elim
    | aborted cause c =>
      cases s' with
      | running d => exact habreast.elim
      | accepted w d => exact habreast.elim
      | aborted cause' d => exact ⟨trivial, habreast⟩

end Engine

end PlainLedger
