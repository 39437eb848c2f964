import PlainLedger.Proofs.Automaton.Leads
import PlainLedger.Proofs.Machine.Trace

/-!
# Walking along a forest

Where the tables lead along a forest, the machine walks it: it shifts the leaves, and completes the
rules after their children and from left to right. It stops on the way only if the stack has no room
or the reducer has no value for a completed rule.
-/

namespace PlainLedger

variable {α V σ : Type}

/-- Tokens are only looked at. -/
def Event.isPull : Event V → Bool
  | .pull _ => true
  | _ => false

/-- Nothing goes wrong at this event. -/
def Event.isRegular : Event V → Bool
  | .pull _ => true
  | .shift _ _ => true
  | .reduce _ (.value _) => true
  | _ => false

/-- What the machine has done apart from looking at tokens. -/
def Config.acts (c : Config V σ) : List (Event V) := c.log.toList.filter fun ev ↦ !ev.isPull

/-- The slot without its state. -/
def Slot.bare (x : Slot V) : Slot V := { x with state := 0 }

theorem Reduction.ofSlots_bare (k n : Nat) (slots : List (Slot V)) :
    ofSlots k n (slots.map Slot.bare) =
      { ofSlots k n slots with below := (slots.drop n).map Slot.bare } := by
  have hspan : Slot.span ∘ Slot.bare = (Slot.span : Slot V → Span) := rfl
  have hvalue : Slot.value ∘ Slot.bare = (Slot.value : Slot V → V) := rfl
  simp only [ofSlots, Config.reductionSpan, ← List.map_take, ← List.map_drop, ← List.map_reverse,
    List.map_map, List.head?_map, Option.map_map, hspan, hvalue]

/-- The reducer does not look at the states of slots. -/
def Reducer.Stateless (r : Reducer α V σ) : Prop :=
  ∀ a k n slots m, r.reduce a (.ofSlots k n (slots.map Slot.bare)) m =
    r.reduce a (.ofSlots k n slots) m

/-- The reducer walks along the forest, children before their parents and from left to right. Its
values are put on the slots, and taken off when their parent is completed. -/
inductive Walks {g : Grammar α} (r : Reducer α V σ) :
    {xs : List Symbol} → Forest g xs → List (Slot V) → σ → List (Event V) → List (Slot V) → σ →
      Prop where
  | nil (slots : List (Slot V)) (m : σ) : Walks r .nil slots m [] slots m
  | leaf {xs : List Symbol} {rest : Forest g xs} {slots slots' : List (Slot V)} {m m₁ m' : σ}
      {evs : List (Event V)} {v : V} (t : Token) (n : Nat) (hvalue : r.ofToken t m = (v, m₁))
      (hrest : Walks r rest (⟨n, v, t.span⟩ :: slots) m₁ evs slots' m') :
      Walks r (.leaf (.token t) rest) slots m (.shift t v :: evs) slots' m'
  | node {xs : List Symbol} {k : Nat} {p : Rule α} {h : g.rules[k]? = some p}
      {children : Forest g p.rhs} {rest : Forest g xs} {slots slots₁ slots' : List (Slot V)}
      {m m₁ m₂ m' : σ} {evs evs' : List (Event V)} {v : V} (n : Nat)
      (hchildren : Walks r children slots m evs slots₁ m₁)
      (hverdict : r.reduce p.action (.ofSlots k p.rhs.length slots₁) m₁ = (.value v, m₂))
      (hrest : Walks r rest
        (⟨n, v, (Reduction.ofSlots k p.rhs.length slots₁).span⟩ :: slots) m₂ evs'
        slots' m') :
      Walks r (.node k h children rest) slots m
        (evs ++ .reduce (.ofSlots k p.rhs.length slots₁) (.value v) :: evs') slots' m'

/-- The walk along the forest comes to a rule that the reducer has no value for. -/
inductive Balks {g : Grammar α} (r : Reducer α V σ) :
    {xs : List Symbol} → Forest g xs → List (Slot V) → σ → Prop where
  | leaf {xs : List Symbol} {rest : Forest g xs} {slots : List (Slot V)} {m m₁ : σ} {v : V}
      (t : Token) (n : Nat) (hvalue : r.ofToken t m = (v, m₁))
      (hrest : Balks r rest (⟨n, v, t.span⟩ :: slots) m₁) :
      Balks r (.leaf (.token t) rest) slots m
  | children {xs : List Symbol} {k : Nat} {p : Rule α} {h : g.rules[k]? = some p}
      {children : Forest g p.rhs} {rest : Forest g xs} {slots : List (Slot V)} {m : σ}
      (hchildren : Balks r children slots m) : Balks r (.node k h children rest) slots m
  | here {xs : List Symbol} {k : Nat} {p : Rule α} {h : g.rules[k]? = some p}
      {children : Forest g p.rhs} {rest : Forest g xs} {slots slots₁ : List (Slot V)}
      {m m₁ : σ} {evs : List (Event V)} (hchildren : Walks r children slots m evs slots₁ m₁)
      (hverdict : ∀ v m₂, r.reduce p.action (.ofSlots k p.rhs.length slots₁) m₁ ≠ (.value v, m₂)) :
      Balks r (.node k h children rest) slots m
  | rest {xs : List Symbol} {k : Nat} {p : Rule α} {h : g.rules[k]? = some p}
      {children : Forest g p.rhs} {rest : Forest g xs} {slots slots₁ : List (Slot V)}
      {m m₁ m₂ : σ} {evs : List (Event V)} {v : V} (n : Nat)
      (hchildren : Walks r children slots m evs slots₁ m₁)
      (hverdict : r.reduce p.action (.ofSlots k p.rhs.length slots₁) m₁ = (.value v, m₂))
      (hrest : Balks r rest (⟨n, v, (Reduction.ofSlots k p.rhs.length slots₁).span⟩ :: slots) m₂) :
      Balks r (.node k h children rest) slots m

namespace Walks

variable {g : Grammar α} {r : Reducer α V σ} {xs : List Symbol} {f : Forest g xs}
  {slots slots' : List (Slot V)} {m m' : σ} {evs : List (Event V)}

/-- On a walk nothing goes wrong. -/
theorem isRegular (h : Walks r f slots m evs slots' m') : ∀ ev ∈ evs, ev.isRegular = true := by
  induction h with
  | nil => simp
  | leaf t n _ _ ih => exact List.forall_mem_cons.mpr ⟨rfl, ih⟩
  | node n _ _ _ ihc ihr =>
    exact List.forall_mem_append.mpr ⟨ihc, List.forall_mem_cons.mpr ⟨rfl, ihr⟩⟩

/-- A walk leaves one slot for each tree. -/
theorem drop_eq (h : Walks r f slots m evs slots' m') : slots'.drop xs.length = slots := by
  induction h with
  | nil => rfl
  | leaf t n _ _ ih =>
    rw [List.length_cons, ← List.drop_drop, ih]
    rfl
  | node n _ _ _ _ ih =>
    rw [List.length_cons, ← List.drop_drop, ih]
    rfl

/-- What a walk along a forest comes to, by its first tree. -/
def Begun (r : Reducer α V σ) (slots : List (Slot V)) (m : σ) (evs : List (Event V))
    (slots' : List (Slot V)) (m' : σ) : {xs : List Symbol} → Forest g xs → Prop
  | _, .nil => evs = [] ∧ slots' = slots ∧ m' = m
  | _, .leaf (.token t) rest => ∃ n v m₁ evs', evs = .shift t v :: evs' ∧
      r.ofToken t m = (v, m₁) ∧ Walks r rest (⟨n, v, t.span⟩ :: slots) m₁ evs' slots' m'
  | _, .leaf (.skipped _) _ => False
  | _, .node (p := p) k _ children rest => ∃ n evs₁ slots₁ m₁ v m₂ evs₂,
      evs = evs₁ ++ .reduce (.ofSlots k p.rhs.length slots₁) (.value v) :: evs₂ ∧
      Walks r children slots m evs₁ slots₁ m₁ ∧
      r.reduce p.action (.ofSlots k p.rhs.length slots₁) m₁ = (.value v, m₂) ∧
      Walks r rest (⟨n, v, (Reduction.ofSlots k p.rhs.length slots₁).span⟩ :: slots) m₂ evs₂ slots'
        m'

theorem begun (h : Walks r f slots m evs slots' m') : Begun r slots m evs slots' m' f := by
  cases h with
  | nil => exact ⟨rfl, rfl, rfl⟩
  | leaf t n hvalue hrest => exact ⟨n, _, _, _, rfl, hvalue, hrest⟩
  | node n hchildren hverdict hrest =>
    exact ⟨n, _, _, _, _, _, _, rfl, hchildren, hverdict, hrest⟩

section Append

variable {ys : List Symbol} {f' : Forest g ys}

theorem append {slots₁ : List (Slot V)} {m₁ : σ} {evs' : List (Event V)}
    (h : Walks r f slots m evs slots₁ m₁) (h' : Walks r f' slots₁ m₁ evs' slots' m') :
    Walks r (f.append f') slots m (evs ++ evs') slots' m' := by
  induction h with
  | nil => exact h'
  | leaf t n hvalue _ ih => exact .leaf t n hvalue (ih h')
  | @node _ _ _ _ _ _ _ _ _ _ _ _ _ evs₁ _ _ n hchildren hverdict _ _ ih =>
    rw [List.append_assoc evs₁]
    exact .node n hchildren hverdict (ih h')

theorem exists_of_append (h : Walks r (f.append f') slots m evs slots' m') :
    ∃ evs₁ slots₁ m₁ evs₂, evs = evs₁ ++ evs₂ ∧ Walks r f slots m evs₁ slots₁ m₁ ∧
      Walks r f' slots₁ m₁ evs₂ slots' m' := by
  induction f generalizing slots m evs with
  | nil => exact ⟨[], slots, m, evs, rfl, .nil slots m, h⟩
  | leaf x rest ih =>
    cases x with
    | skipped span => exact h.begun.elim
    | token t =>
      obtain ⟨n, v, m₀, evs, rfl, hvalue, hrest⟩ := h.begun
      obtain ⟨evs₁, slots₁, m₁, evs₂, rfl, h₁, h₂⟩ := ih hrest
      exact ⟨_, slots₁, m₁, evs₂, rfl, .leaf t n hvalue h₁, h₂⟩
  | node k hrule children rest _ ih =>
    obtain ⟨n, evs₀, slots₀, m₀, v, m', evs, rfl, hchildren, hverdict, hrest⟩ := h.begun
    obtain ⟨evs₁, slots₁, m₁, evs₂, rfl, h₁, h₂⟩ := ih hrest
    refine ⟨_, slots₁, m₁, evs₂, ?_, .node n hchildren hverdict h₁, h₂⟩
    rw [List.append_assoc, List.cons_append]

end Append

/-! ## States do not matter -/

section Stateless

variable {slots₁ slots₂ slots₂' : List (Slot V)} {m₁ m₂ : σ} {evs₁ evs₂ : List (Event V)}

/-- Where a rule stands is seen from where the slots stand. -/
theorem span_ofSlots_congr (k k' n : Nat) (h : slots₁.map Slot.span = slots₂.map Slot.span) :
    (Reduction.ofSlots k n slots₁).span = (Reduction.ofSlots k' n slots₂).span := by
  have htaken : (slots₁.take n).reverse.map Slot.span = (slots₂.take n).reverse.map Slot.span := by
    rw [List.map_reverse, List.map_reverse, List.map_take, List.map_take, h]
  have hbelow : (slots₁.drop n).head?.map Slot.span = (slots₂.drop n).head?.map Slot.span := by
    rw [← List.head?_map, ← List.head?_map, List.map_drop, List.map_drop, h]
  simp only [Reduction.ofSlots, Config.reductionSpan, htaken, hbelow]

theorem span_ofSlots_of_bare (k n : Nat) (h : slots₁.map Slot.bare = slots₂.map Slot.bare) :
    (Reduction.ofSlots k n slots₁).span = (Reduction.ofSlots k n slots₂).span := by
  refine span_ofSlots_congr k k n ?_
  have hspan := congrArg (List.map Slot.span) h
  rwa [List.map_map, List.map_map] at hspan

/-- A walk comes to the same, whatever the states of the slots are. -/
theorem unique (hr : r.Stateless) (h : Walks r f slots m evs slots' m')
    (h' : Walks r f slots₂ m evs₂ slots₂' m₂) (hbare : slots.map Slot.bare = slots₂.map Slot.bare) :
    slots'.map Slot.bare = slots₂'.map Slot.bare ∧ m' = m₂ := by
  induction h generalizing slots₂ evs₂ slots₂' m₂ with
  | nil =>
    obtain ⟨-, rfl, rfl⟩ := h'.begun
    exact ⟨hbare, rfl⟩
  | leaf t n hvalue _ ih =>
    obtain ⟨n', v, m₁, evs, -, hvalue', hrest⟩ := h'.begun
    cases hvalue.symm.trans hvalue'
    exact ih hrest (congrArg (_ :: ·) hbare)
  | @node xs k p _ children rest slots slots₀ slots' m m₀ m₁ m' evs evs' v n _ hverdict _ ihc ihr =>
    obtain ⟨n', evs₀, slots₁, m₂, v', m₃, evs₁, -, hchildren, hverdict', hrest⟩ := h'.begun
    obtain ⟨hbare₁, rfl⟩ := ihc hchildren hbare
    rw [← hr, hbare₁, hr, hverdict'] at hverdict
    cases hverdict
    refine ihr hrest ?_
    rw [List.map_cons, List.map_cons, hbare, Slot.bare, Slot.bare,
      span_ofSlots_of_bare k _ hbare₁]

/-- Where the reducer can walk it does not balk. -/
theorem not_balks (hr : r.Stateless) (h : Walks r f slots m evs slots' m')
    (hbare : slots.map Slot.bare = slots₂.map Slot.bare) : ¬Balks r f slots₂ m := by
  intro hbalks
  induction hbalks generalizing slots evs slots' m' with
  | leaf t n hvalue _ ih =>
    obtain ⟨n', v, m₁, evs, -, hvalue', hrest⟩ := h.begun
    cases hvalue.symm.trans hvalue'
    exact ih hrest (congrArg (_ :: ·) hbare)
  | children _ ih =>
    obtain ⟨n', evs₀, slots₁, m₂, v', m₃, evs₁, -, hchildren, -⟩ := h.begun
    exact ih hchildren hbare
  | here hchildren hverdict =>
    obtain ⟨n', evs₀, slots₁, m₂, v', m₃, evs₁, -, hchildren', hverdict', -⟩ := h.begun
    obtain ⟨hbare₁, rfl⟩ := hchildren'.unique hr hchildren hbare
    rw [← hr, hbare₁, hr] at hverdict'
    exact hverdict _ _ hverdict'
  | @rest xs k p _ children rest slots₂ slots₀ m m₁ m₂ evs₂ v n hchildren hverdict _ ih =>
    obtain ⟨n', evs₀, slots₁, m₂, v', m₃, evs₁, -, hchildren', hverdict', hrest⟩ := h.begun
    obtain ⟨hbare₁, rfl⟩ := hchildren'.unique hr hchildren hbare
    rw [← hr, hbare₁, hr, hverdict] at hverdict'
    cases hverdict'
    refine ih hrest ?_
    rw [List.map_cons, List.map_cons, hbare, Slot.bare, Slot.bare,
      span_ofSlots_of_bare k _ hbare₁]

end Stateless

end Walks

namespace Config

variable {e : Engine α} {r : Reducer α V σ} {c : Config V σ} {x : Slot V} {rest : List (Slot V)}
  {row : Row}

theorem acts_record (ev : Event V) (c : Config V σ) :
    (c.record ev).acts = c.acts ++ if ev.isPull then [] else [ev] := by
  unfold acts record
  rw [Array.toList_push, List.filter_append]
  cases h : ev.isPull <;> simp [h]

/-- Looking at a token that is one changes nothing else. -/
theorem peek_of_ne_lexError (hlex : c.upcoming ≠ .lexError) :
    (c.peek e r).2.memory = c.memory ∧ (c.peek e r).2.acts = c.acts := by
  rw [← c.kind_peek e r] at hlex
  cases hahead : c.ahead? with
  | some t =>
    rw [peek_of_ahead e r hahead]
    exact ⟨rfl, rfl⟩
  | none =>
    rw [peek_of_none e r hahead] at hlex ⊢
    by_cases hx : c.exhausted = true
    · rw [read_of_exhausted e r hx]
      exact ⟨rfl, rfl⟩
    · cases hi : c.input with
      | nil =>
        rw [read_of_nil e r (eq_false_of_ne_true hx) hi]
        exact ⟨rfl, (acts_record (.pull none) c).trans (List.append_nil _)⟩
      | cons t ts =>
        have hpull := (acts_record (.pull (some t)) { c with input := ts }).trans
          (List.append_nil _)
        unfold read at hlex ⊢
        rw [if_neg hx, hi] at hlex ⊢
        dsimp only at hlex ⊢
        rw [if_neg hlex]
        exact ⟨rfl, hpull⟩

theorem consult_of_ne_lexError (row : Row) (hlex : c.upcoming ≠ .lexError) :
    (c.consult e r row).memory = c.memory ∧ (c.consult e r row).acts = c.acts := by
  unfold consult
  split
  · exact peek_of_ne_lexError hlex
  · exact ⟨rfl, rfl⟩

/-- A token is read. -/
theorem step_of_shift {t : Token} {ts : List Token} {n : Nat} {v : V} {m : σ}
    (hslots : c.stack.slots = x :: rest) (hrow : e.row? x.state = some row)
    (hpending : c.pending = t :: ts) (hdecide : row.decide t.kind = some (.shift n))
    (hlex : t.kind ≠ .lexError) (hvalue : r.ofToken t c.memory = (v, m)) :
    (c.step e r).Post
      (fun c' ↦ c'.stack.slots = ⟨n, v, t.span⟩ :: x :: rest ∧ c'.pending = ts ∧
        c'.memory = m ∧ c'.acts = c.acts ++ [.shift t v])
      (fun _ _ ↦ False) (fun cause _ ↦ ∃ d, cause = .stackOverflow d) := by
  have hpeek : (c.peek e r).1 = t := by
    rcases c.pending_eq_of_peek e r with ⟨ts', hts⟩ | ⟨hnil, -⟩
    · exact (List.cons.inj (hts.symm.trans hpending)).1
    · rw [hpending] at hnil
      cases hnil
  have hupcoming : c.upcoming = t.kind := by rw [← c.kind_peek e r, hpeek]
  obtain ⟨hmemory, hacts⟩ := peek_of_ne_lexError (e := e) (r := r) (hupcoming ▸ hlex)
  rw [step_eq e r hslots hrow, hpeek, hdecide]
  dsimp only
  rw [consult_of_decide e r hdecide (by simp)]
  unfold shift
  rw [ahead?_peek, hpeek]
  dsimp only
  rw [hmemory, hvalue]
  refine post_push r ?_ fun d ↦ ⟨d, rfl⟩
  intro stack hpush
  refine ⟨?_, ?_, rfl, ?_⟩
  · rw [← hslots, ← c.stack_peek e r]
    exact Stack.slots_push hpush
  · exact pending_consume e r hpending _ rfl rfl rfl
  · rw [← hacts]
    exact acts_record (.shift t v) { (c.peek e r).2 with memory := m }

/-- A rule is completed that the reducer has a value for. -/
theorem step_of_reduce {y : Slot V} {below : List (Slot V)} {k n : Nat} {p : Rule α} {row' : Row}
    {v : V} {m : σ} (hslots : c.stack.slots = x :: rest) (hrow : e.row? x.state = some row)
    (hdecide : row.decide c.upcoming = some (.reduce k)) (hlex : c.upcoming ≠ .lexError)
    (hrule : e.grammar.rules[k]? = some p) (hbelow : (x :: rest).drop p.rhs.length = y :: below)
    (hrow' : e.row? y.state = some row') (hgoto : row'.goto? p.lhs = some n)
    (hverdict : r.reduce p.action (.ofSlots k p.rhs.length (x :: rest)) c.memory = (.value v, m)) :
    (c.step e r).Post
      (fun c' ↦ c'.stack.slots =
          ⟨n, v, (Reduction.ofSlots k p.rhs.length (x :: rest)).span⟩ :: y :: below ∧
        c'.pending = c.pending ∧ c'.memory = m ∧
        c'.acts = c.acts ++ [.reduce (.ofSlots k p.rhs.length (x :: rest)) (.value v)])
      (fun _ _ ↦ False) (fun cause _ ↦ ∃ d, cause = .stackOverflow d) := by
  obtain ⟨hmemory, hacts⟩ := consult_of_ne_lexError (e := e) (r := r) row hlex
  have hstack : (c.consult e r row).stack.slots = x :: rest := by rw [stack_consult, hslots]
  have hout : r.reduce p.action (.ofSlots k p.rhs.length (c.consult e r row).stack.slots)
      (c.consult e r row).memory = (.value v, m) := by rw [hstack, hmemory, hverdict]
  rw [step_eq e r hslots hrow, kind_peek, hdecide]
  dsimp only
  rw [reduce_eq hrule hout, hstack]
  dsimp only
  have hdropped : ((c.consult e r row).reduced k p (.value v, m)).stack.slots = y :: below := by
    rw [← hbelow, ← hstack]
    rfl
  refine post_goto e r hdropped hrow' hgoto (post_push r ?_ fun d ↦ ⟨d, rfl⟩)
  intro stack hpush
  refine ⟨?_, c.pending_consult e r row, rfl, ?_⟩
  · rw [← hdropped]
    exact Stack.slots_push hpush
  · rw [← hacts, ← hstack]
    exact acts_record (.reduce _ (.value v)) (c.consult e r row)

/-- A text that has been read to its end is accepted. -/
theorem step_of_accept (hslots : c.stack.slots = x :: rest) (hrow : e.row? x.state = some row)
    (hpending : c.pending = []) (hdecide : row.decide .endOfInput = some .accept) :
    (c.step e r).Post (fun _ ↦ False)
      (fun v c' ↦ v = x.value ∧ c'.stack.slots = rest ∧ c'.memory = c.memory ∧ c'.acts = c.acts)
      (fun _ _ ↦ False) := by
  have hupcoming : c.upcoming = .endOfInput := upcoming_eq_endOfInput_iff.mpr hpending
  have hlex : c.upcoming ≠ .lexError := by
    rw [hupcoming]
    decide
  obtain ⟨hmemory, hacts⟩ := consult_of_ne_lexError (e := e) (r := r) row hlex
  rw [step_eq e r hslots hrow, kind_peek, hupcoming, hdecide]
  dsimp only
  unfold accept
  rw [Stack.pop?, stack_consult, hslots]
  exact ⟨rfl, rfl, hmemory, hacts⟩

end Config

/-- The reducer has a value for every rule that is completed on a stack of values which the symbols
may have, and it is one that the left-hand side may have. -/
def Engine.Obliging (e : Engine α) (r : Reducer α V σ) (T : Symbol → V → Prop) : Prop :=
  ∀ (k : Nat) (p : Rule α) (x : Slot V) (rest : List (Slot V)) (ys : List Symbol) (m : σ),
    e.grammar.rules[k]? = some p → Spelled e.grammar T (x :: rest) ys →
    e.grammar.Has x.state ⟨k, p.rhs.length⟩ →
    ∃ v m', r.reduce p.action (.ofSlots k p.rhs.length (x :: rest)) m = (.value v, m') ∧
      T (.nonterminal p.lhs) v

namespace Engine

variable {e : Engine α} {r : Reducer α V σ}

/-- A run goes on where another one has got to. -/
theorem post_steps_trans {P P' : Config V σ → Prop} {A : V → Config V σ → Prop}
    {B : Abort → Config V σ → Prop} {n : Nat} {s : Step V σ} (h : (e.steps r n s).Post P A B)
    (hnext : ∀ c, P c → ∃ n, (e.steps r n (.running c)).Post P' A B) :
    ∃ n, (e.steps r n s).Post P' A B := by
  cases hs : e.steps r n s with
  | running c =>
    rw [hs] at h
    obtain ⟨n', h'⟩ := hnext c h
    refine ⟨n + n', ?_⟩
    rw [steps_add, hs]
    exact h'
  | accepted v c =>
    rw [hs] at h
    refine ⟨n, ?_⟩
    rw [hs]
    exact h
  | aborted cause c =>
    rw [hs] at h
    refine ⟨n, ?_⟩
    rw [hs]
    exact h

theorem post_steps_one {P : Config V σ → Prop} {A : V → Config V σ → Prop}
    {B : Abort → Config V σ → Prop} {c : Config V σ} (h : (c.step e r).Post P A B) :
    (e.steps r 1 (.running c)).Post P A B := by
  rw [steps_succ_running, steps_zero]
  exact h

end Engine

theorem Forest.first_of_leaves {g : Grammar α} {xs : List Symbol} {f : Forest g xs}
    {ts us : List Token} {t : Terminal} (hleaves : f.leaves = ts.map Leaf.token)
    (ht : (us.head?.map Token.kind).getD .endOfInput = t) :
    ((ts ++ us).head?.map Token.kind).getD .endOfInput = f.first t := by
  unfold first
  rw [hleaves]
  cases ts with
  | nil => exact ht
  | cons t ts => rfl

/-- Where a machine has got to when it has walked along a forest. -/
def Config.Trod {g : Grammar α} (r : Reducer α V σ) {xs : List Symbol} (f : Forest g xs) (n : Nat)
    (ts : List Token) (c c' : Config V σ) : Prop :=
  ∃ evs x rest, Walks r f c.stack.slots c.memory evs c'.stack.slots c'.memory ∧
    c'.acts = c.acts ++ evs ∧ c'.pending = ts ∧ c'.stack.slots = x :: rest ∧ x.state = n

/-- The machine is about to complete a rule that the reducer has no value for. -/
def Config.Refused (e : Engine α) (r : Reducer α V σ) (c : Config V σ) : Prop :=
  ∃ x rest row k p, c.stack.slots = x :: rest ∧ e.row? x.state = some row ∧
    row.decide c.upcoming = some (.reduce k) ∧ c.upcoming ≠ .lexError ∧
    e.grammar.rules[k]? = some p ∧
    ∀ v m, r.reduce p.action (.ofSlots k p.rhs.length c.stack.slots) c.memory ≠ (.value v, m)

/-- What is true of slots, of the symbols that they stand for and of the text that is left, and
remains true when a token is read and when a rule is completed. -/
structure Engine.Carries (e : Engine α) (r : Reducer α V σ)
    (K : List (Slot V) → List Symbol → List Token → Prop) : Prop where
  shift {x : Slot V} {rest : List (Slot V)} {ys : List Symbol} {t : Token} {ts : List Token}
    {n : Nat} {v : V} {m m' : σ} (h : K (x :: rest) ys (t :: ts))
    (hedge : e.grammar.Edge x.state (.terminal t.kind) n) (hvalue : r.ofToken t m = (v, m')) :
    K (⟨n, v, t.span⟩ :: x :: rest) (.terminal t.kind :: ys) ts
  reduce {x y : Slot V} {rest below : List (Slot V)} {ys : List Symbol} {ts : List Token}
    {k n : Nat}
    {p : Rule α} {v : V} {m m' : σ} (h : K (x :: rest) ys ts) (hrule : e.grammar.rules[k]? = some p)
    (hhas : e.grammar.Has x.state ⟨k, p.rhs.length⟩)
    (hbelow : (x :: rest).drop p.rhs.length = y :: below)
    (hedge : e.grammar.Edge y.state (.nonterminal p.lhs) n)
    (hverdict : r.reduce p.action (.ofSlots k p.rhs.length (x :: rest)) m = (.value v, m')) :
    K (⟨n, v, (Reduction.ofSlots k p.rhs.length (x :: rest)).span⟩ :: y :: below)
      (.nonterminal p.lhs :: ys.drop p.rhs.length) ts

/-- Where the tables lead along a forest, the machine walks along it, unless the stack overflows or
the reducer has no value for a rule. -/
theorem Leads.walks_or_balks {e : Engine α} {r : Reducer α V σ}
    {K : List (Slot V) → List Symbol → List Token → Prop} (hg : e.tables = e.grammar.tables)
    (hK : e.Carries r K) {xs : List Symbol} {n n' : Nat} {f : Forest e.grammar xs} {t : Terminal}
    (h : Leads e.grammar n f t n') {c : Config V σ} {x : Slot V} {rest : List (Slot V)}
    {ys : List Symbol} {ts us : List Token} (hs : K c.stack.slots ys (ts ++ us))
    (hslots : c.stack.slots = x :: rest) (hx : x.state = n)
    (hleaves : f.leaves = ts.map Leaf.token) (hpending : c.pending = ts ++ us)
    (hlex : ∀ t ∈ c.pending, t.kind ≠ .lexError)
    (ht : (us.head?.map Token.kind).getD .endOfInput = t) :
    ∃ N, (e.steps r N (.running c)).Post
      (fun c' ↦ c.Trod r f n' us c' ∧ K c'.stack.slots (xs.reverse ++ ys) us ∨
        Balks r f c.stack.slots c.memory ∧ c'.Refused e r ∧
          ∃ ys' ts', K c'.stack.slots ys' ts')
      (fun _ _ ↦ False) fun cause _ ↦ ∃ d, cause = .stackOverflow d := by
  induction h generalizing c x rest ys ts us with
  | nil n t =>
    refine ⟨0, ?_⟩
    rw [Engine.steps_zero]
    cases List.map_eq_nil_iff.mp hleaves.symm
    exact Or.inl ⟨⟨[], x, rest, .nil _ _, (List.append_nil _).symm, hpending, hslots, hx⟩, hs⟩
  | @leaf xs n m n' leaf f t row hrow hdecide _ ih =>
    obtain ⟨t₀, ts, rfl, rfl, hrest⟩ := List.map_eq_cons_iff.mp hleaves.symm
    rw [List.cons_append] at hpending hs
    have hlex₀ : t₀.kind ≠ .lexError := hlex t₀ (by rw [hpending]; exact List.mem_cons_self ..)
    have hedge : e.grammar.Edge x.state (.terminal t₀.kind) m := by
      rw [hx]
      exact Grammar.allows_of_decide hrow hdecide
    rw [← hg, ← hx] at hrow
    obtain ⟨v, m₁, hvalue⟩ : ∃ v m₁, r.ofToken t₀ c.memory = (v, m₁) := ⟨_, _, rfl⟩
    have hstep := Engine.post_steps_one (Config.step_of_shift hslots hrow hpending hdecide hlex₀
      hvalue)
    refine Engine.post_steps_trans hstep ?_
    rintro c₁ ⟨hslots₁, hpending₁, hmemory₁, hacts₁⟩
    have hs₁ : K c₁.stack.slots (.terminal t₀.kind :: ys) (ts ++ us) := by
      rw [hslots₁]
      rw [hslots] at hs
      exact hK.shift hs hedge hvalue
    have hlex₁ : ∀ t ∈ c₁.pending, t.kind ≠ .lexError := by
      intro t ht
      refine hlex t ?_
      rw [hpending₁] at ht
      rw [hpending]
      exact List.mem_cons_of_mem _ ht
    obtain ⟨N, hN⟩ := ih hs₁ hslots₁ rfl hrest.symm hpending₁ hlex₁ ht
    refine ⟨N, hN.imp ?_ (fun _ _ h ↦ h) (fun _ _ h ↦ h)⟩
    rw [hslots₁, hmemory₁, ← hslots]
    rintro c' (⟨⟨evs, x', rest', hwalks, hacts, htrod⟩, hs'⟩ | ⟨hbalks, hrefused⟩)
    · rw [hslots₁, hmemory₁, ← hslots] at hwalks
      refine Or.inl ⟨⟨_, x', rest', .leaf t₀ m hvalue hwalks, ?_, htrod⟩, ?_⟩
      · rw [hacts, hacts₁, List.append_assoc]
        rfl
      · rw [List.reverse_cons, List.append_assoc]
        exact hs'
    · exact Or.inr ⟨.leaf t₀ m hvalue hbalks, hrefused⟩
  | @node xs n n₁ m n' k p hrule children f t row _ hrow hdecide hedge _ ihc ihr =>
    obtain ⟨ts₁, ts₂, rfl, hleaves₁, hleaves₂⟩ := List.map_eq_append_iff.mp hleaves.symm
    rw [List.append_assoc] at hpending hs
    have hfirst := Forest.first_of_leaves hleaves₂.symm ht
    obtain ⟨N₁, hN₁⟩ := ihc hs hslots hx hleaves₁.symm hpending hlex hfirst
    refine Engine.post_steps_trans hN₁ ?_
    rintro c₁ (⟨⟨evs₁, x₁, rest₁, hwalks₁, hacts₁, hpending₁, hslots₁, rfl⟩, hs₁⟩ |
      ⟨hbalks, hrefused⟩)
    swap
    · refine ⟨0, ?_⟩
      rw [Engine.steps_zero]
      exact Or.inr ⟨.children hbalks, hrefused⟩
    have hlex₁ : ∀ t ∈ c₁.pending, t.kind ≠ .lexError := by
      intro t ht
      refine hlex t ?_
      rw [hpending₁] at ht
      rw [hpending]
      exact List.mem_append_right _ ht
    have hupcoming : c₁.upcoming = f.first t := by
      rw [Config.upcoming, hpending₁]
      exact hfirst
    have hlexup : c₁.upcoming ≠ .lexError := by
      unfold Config.upcoming
      cases hp : c₁.pending with
      | nil => exact (by decide : Terminal.endOfInput ≠ .lexError)
      | cons t ts => exact hlex₁ t (by rw [hp]; exact List.mem_cons_self ..)
    obtain ⟨p', hrule', hhas⟩ := Grammar.allows_of_decide hrow hdecide
    cases Option.some.inj (hrule.symm.trans hrule')
    have hbelow : (x₁ :: rest₁).drop p.rhs.length = x :: rest := by
      rw [← hslots₁, ← hslots]
      exact hwalks₁.drop_eq
    rw [← hg] at hrow
    rw [← hupcoming] at hdecide
    by_cases hverdict : ∃ v m', r.reduce p.action (.ofSlots k p.rhs.length c₁.stack.slots)
        c₁.memory = (.value v, m')
    swap
    · have hno : ∀ v m', r.reduce p.action (.ofSlots k p.rhs.length c₁.stack.slots) c₁.memory ≠
          (.value v, m') := fun v m' h ↦ hverdict ⟨v, m', h⟩
      refine ⟨0, ?_⟩
      rw [Engine.steps_zero]
      exact Or.inr ⟨.here hwalks₁ hno,
        ⟨x₁, rest₁, row, k, p, hslots₁, hrow, hdecide, hlexup, hrule, hno⟩, _, _, hs₁⟩
    obtain ⟨v, m', hverdict⟩ := hverdict
    rw [hslots₁] at hverdict
    obtain ⟨S, hS, htarget⟩ := id hedge
    obtain ⟨row', hrow'⟩ := Grammar.exists_row hS
    have hgoto := (Grammar.goto?_eq_some_iff hrow').mpr hedge
    rw [← hg, ← hx] at hrow'
    have hstep := Engine.post_steps_one (Config.step_of_reduce hslots₁ hrow hdecide hlexup hrule
      hbelow hrow' hgoto hverdict)
    refine Engine.post_steps_trans hstep ?_
    rintro c₂ ⟨hslots₂, hpending₂, hmemory₂, hacts₂⟩
    have hs₂ : K c₂.stack.slots (.nonterminal p.lhs :: ys) (ts₂ ++ us) := by
      rw [hslots₂]
      rw [hslots₁] at hs₁
      rw [← hx] at hedge
      have hs₂ := hK.reduce hs₁ hrule hhas hbelow hedge hverdict
      rwa [List.drop_left' p.rhs.length_reverse] at hs₂
    have hlex₂ : ∀ t ∈ c₂.pending, t.kind ≠ .lexError := by
      rw [hpending₂]
      exact hlex₁
    obtain ⟨N, hN⟩ := ihr hs₂ hslots₂ rfl hleaves₂.symm (hpending₂.trans hpending₁) hlex₂ ht
    refine ⟨N, hN.imp ?_ (fun _ _ h ↦ h) (fun _ _ h ↦ h)⟩
    rw [← hslots₁] at hverdict
    rw [hslots₂, hmemory₂, ← hslots, ← hslots₁]
    rintro c' (⟨⟨evs, x', rest', hwalks, hacts, htrod⟩, hs'⟩ | ⟨hbalks, hrefused⟩)
    · rw [hslots₂, hmemory₂, ← hslots, ← hslots₁] at hwalks
      refine Or.inl ⟨⟨_, x', rest', .node m hwalks₁ hverdict hwalks, ?_, htrod⟩, ?_⟩
      · rw [hacts, hacts₂, hacts₁, hslots₁]
        simp
      · rw [List.reverse_cons, List.append_assoc]
        exact hs'
    · exact Or.inr ⟨.rest m hwalks₁ hverdict hbalks, hrefused⟩

/-- Slots that stand for symbols, and a text of tokens whose values their kinds may have. -/
theorem Engine.Obliging.carries {e : Engine α} {r : Reducer α V σ} {T : Symbol → V → Prop}
    (hr : e.Obliging r T) : e.Carries r fun slots ys ts ↦
      Spelled e.grammar T slots ys ∧ ∀ t ∈ ts, ∀ m, T (.terminal t.kind) (r.ofToken t m).1 where
  shift {_ _ _ t _ _ v m _} h hedge hvalue := by
    obtain ⟨hs, hts⟩ := h
    rw [List.forall_mem_cons] at hts
    have hv : T (.terminal t.kind) v := by
      have ht := hts.1 m
      rwa [hvalue] at ht
    exact ⟨hs.push hedge hv, hts.2⟩
  reduce h hrule hhas hbelow hedge hverdict := by
    obtain ⟨hs, hts⟩ := h
    obtain ⟨v, m', hverdict', hv⟩ := hr _ _ _ _ _ _ hrule hs hhas
    obtain ⟨-, -, -, y, below, hbelow', -, hs'⟩ := hs.reduce hrule hhas
    cases hbelow.symm.trans hbelow'
    cases hverdict.symm.trans hverdict'
    exact ⟨hs'.push hedge hv, hts⟩

/-- An obliging reducer refuses no rule that is completed on such a stack. -/
theorem Engine.Obliging.not_refused {e : Engine α} {r : Reducer α V σ} {T : Symbol → V → Prop}
    (hg : e.tables = e.grammar.tables) (hr : e.Obliging r T) {c : Config V σ} {ys : List Symbol}
    (hs : Spelled e.grammar T c.stack.slots ys) : ¬c.Refused e r := by
  rintro ⟨x, rest, row, k, p, hslots, hrow, hdecide, -, hrule, hno⟩
  rw [hslots] at hs hno
  rw [Engine.row?, hg] at hrow
  obtain ⟨p', hrule', hhas⟩ := Grammar.allows_of_decide hrow hdecide
  cases Option.some.inj (hrule.symm.trans hrule')
  obtain ⟨v, m, hverdict, -⟩ := hr k p x rest ys c.memory hrule hs hhas
  exact hno v m hverdict

/-- Where a machine has got to when it has walked along a forest, with slots for its symbols. -/
def Config.Walked (e : Engine α) (r : Reducer α V σ) (T : Symbol → V → Prop) {xs : List Symbol}
    (f : Forest e.grammar xs) (n : Nat) (ys : List Symbol) (ts : List Token) (c c' : Config V σ) :
    Prop :=
  ∃ evs x rest, Walks r f c.stack.slots c.memory evs c'.stack.slots c'.memory ∧
    c'.acts = c.acts ++ evs ∧ c'.pending = ts ∧ c'.stack.slots = x :: rest ∧ x.state = n ∧
    Spelled e.grammar T c'.stack.slots (xs.reverse ++ ys)

/-- Where the tables lead along a forest, the machine walks along it, unless the stack overflows. -/
theorem Leads.walks {e : Engine α} {r : Reducer α V σ} {T : Symbol → V → Prop}
    (hg : e.tables = e.grammar.tables) (hr : e.Obliging r T) {xs : List Symbol} {n n' : Nat}
    {f : Forest e.grammar xs} {t : Terminal} (h : Leads e.grammar n f t n') {c : Config V σ}
    {x : Slot V} {rest : List (Slot V)} {ys : List Symbol} {ts us : List Token}
    (hs : Spelled e.grammar T c.stack.slots ys) (hslots : c.stack.slots = x :: rest)
    (hx : x.state = n) (hleaves : f.leaves = ts.map Leaf.token)
    (hts : ∀ t ∈ ts ++ us, ∀ m, T (.terminal t.kind) (r.ofToken t m).1)
    (hpending : c.pending = ts ++ us) (hlex : ∀ t ∈ c.pending, t.kind ≠ .lexError)
    (ht : (us.head?.map Token.kind).getD .endOfInput = t) :
    ∃ N, (e.steps r N (.running c)).Post (Config.Walked e r T f n' ys us c) (fun _ _ ↦ False)
      (fun cause _ ↦ ∃ d, cause = .stackOverflow d) := by
  obtain ⟨N, hN⟩ := h.walks_or_balks hg hr.carries ⟨hs, hts⟩ hslots hx hleaves hpending hlex ht
  refine ⟨N, hN.imp ?_ (fun _ _ h ↦ h) (fun _ _ h ↦ h)⟩
  rintro c' (⟨⟨evs, x', rest', hwalks, hacts, hpending', hslots', hx'⟩, hs', -⟩ |
    ⟨-, hrefused, ys', ts', hs', -⟩)
  · exact ⟨evs, x', rest', hwalks, hacts, hpending', hslots', hx', hs'⟩
  · exact (hr.not_refused hg hs' hrefused).elim

end PlainLedger
