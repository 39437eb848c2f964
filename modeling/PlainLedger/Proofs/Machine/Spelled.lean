import PlainLedger.Proofs.Machine.Moves

/-!
# Stacks that spell symbols

Above its bottom, each slot of a parse stack stands for one symbol of the grammar: the automaton
goes from the state below to the state of the slot over that symbol, and the value in the slot is
one that the symbol may have. Every move keeps this, so a completed rule always finds the values of
its right-hand side on top of the stack.
-/

namespace PlainLedger

variable {α V σ : Type}

/-- The slots spell the symbols, the last one first, with values that `T` gives to them. -/
inductive Spelled (g : Grammar α) (T : Symbol → V → Prop) : List (Slot V) → List Symbol → Prop where
  | bottom {x : Slot V} (hx : x.state = 0) : Spelled g T [x] []
  | push {x y : Slot V} {slots : List (Slot V)} {X : Symbol} {xs : List Symbol}
      (h : Spelled g T (y :: slots) xs) (he : g.Edge y.state X x.state) (hv : T X x.value) :
      Spelled g T (x :: y :: slots) (X :: xs)

namespace Spelled

variable {g : Grammar α} {T : Symbol → V → Prop} {slots : List (Slot V)} {xs : List Symbol}

theorem path (h : Spelled g T slots xs) : g.Path (slots.map Slot.state) xs := by
  induction h with
  | bottom hx =>
    rw [List.map_singleton, hx]
    exact .start
  | push _ he _ ih => exact .step ih he

theorem ne_nil (h : Spelled g T slots xs) : slots ≠ [] := by
  cases h <;> exact List.cons_ne_nil _ _

theorem length_eq (h : Spelled g T slots xs) : slots.length = xs.length + 1 := by
  simpa using h.path.length_eq

theorem drop (h : Spelled g T slots xs) {d : Nat} (hd : d ≤ xs.length) :
    Spelled g T (slots.drop d) (xs.drop d) := by
  induction h generalizing d with
  | bottom hx =>
    cases Nat.le_zero.mp hd
    exact .bottom hx
  | push h he hv ih =>
    cases d with
    | zero => exact .push h he hv
    | succ d => exact ih (Nat.le_of_succ_le_succ hd)

/-- What is left when slots are taken off, as long as some slot is left. -/
theorem of_append {popped rest : List (Slot V)} {x : Slot V}
    (h : Spelled g T (popped ++ x :: rest) xs) :
    Spelled g T (x :: rest) (xs.drop popped.length) := by
  have hlen := h.length_eq
  rw [List.length_append, List.length_cons] at hlen
  have hdrop := h.drop (d := popped.length) (by omega)
  rwa [List.drop_left] at hdrop

/-- The values of the topmost slots are values of the last symbols. -/
theorem values (h : Spelled g T slots xs) {d : Nat} (hd : d ≤ xs.length) :
    List.Forall₂ T (xs.take d).reverse ((slots.take d).reverse.map Slot.value) := by
  induction h generalizing d with
  | bottom =>
    cases Nat.le_zero.mp hd
    exact .nil
  | push _ _ hv ih =>
    cases d with
    | zero => exact .nil
    | succ d =>
      simp only [List.take_succ_cons, List.reverse_cons, List.map_append, List.map_cons,
        List.map_nil]
      exact List.rel_append (ih (Nat.le_of_succ_le_succ hd)) (.cons hv .nil)

theorem state_eq_zero {x : Slot V} (h : Spelled g T [x] xs) : x.state = 0 ∧ xs = [] := by
  cases h with
  | bottom hx => exact ⟨hx, rfl⟩

/-- Nothing is written below the state in which a text begins. -/
theorem eq_nil_of_start {x : Slot V} {rest : List (Slot V)} (h : Spelled g T (x :: rest) xs)
    (hx : x.state = 0) : rest = [] ∧ xs = [] := by
  simpa using h.path.eq_nil_of_start hx

/-- A completed rule finds its right-hand side on top of the stack; the slot below predicts the
rule. -/
theorem reduce {x : Slot V} {rest : List (Slot V)} {k : Nat} {p : Rule α}
    (h : Spelled g T (x :: rest) xs) (hrule : g.rules[k]? = some p)
    (hhas : g.Has x.state ⟨k, p.rhs.length⟩) :
    p.rhs.length ≤ xs.length ∧ (xs.take p.rhs.length).reverse = p.rhs ∧
      List.Forall₂ T p.rhs (Reduction.ofSlots k p.rhs.length (x :: rest)).values ∧
      ∃ y below, (x :: rest).drop p.rhs.length = y :: below ∧ g.Has y.state ⟨k, 0⟩ ∧
        Spelled g T (y :: below) (xs.drop p.rhs.length) := by
  obtain ⟨hle, htake, s, ss, t, hdrop, hpred, -⟩ := h.path.reduce hrule hhas
  rw [← List.map_cons (f := Slot.state), ← List.map_drop] at hdrop
  obtain ⟨y, below, hbelow, rfl, rfl⟩ := List.map_eq_cons_iff.mp hdrop
  refine ⟨hle, htake, ?_, y, below, hbelow, hpred, ?_⟩
  · have := h.values hle
    rwa [htake] at this
  · rw [← hbelow]
    exact h.drop hle

/-- What a row decides to complete is on top of the stack, and the slot below predicts it. -/
theorem of_decide {x y : Slot V} {rest below : List (Slot V)} {row : Row} {t : Terminal} {k : Nat}
    {p : Rule α} (hs : Spelled g T (x :: rest) xs) (hrow : g.tables.row? x.state = some row)
    (hdecide : row.decide t = some (.reduce k)) (hrule : g.rules[k]? = some p)
    (hbelow : (x :: rest).drop p.rhs.length = y :: below) :
    (p.rhs.length ≤ xs.length ∧ (xs.take p.rhs.length).reverse = p.rhs) ∧
      List.Forall₂ T p.rhs (Reduction.ofSlots k p.rhs.length (x :: rest)).values ∧
      g.Has y.state ⟨k, 0⟩ ∧ Spelled g T (y :: below) (xs.drop p.rhs.length) := by
  obtain ⟨p', hrule', hhas⟩ := Grammar.allows_of_decide hrow hdecide
  cases Option.some.inj (hrule.symm.trans hrule')
  obtain ⟨hle, htake, hvalues, y', below', hbelow', hpred, hs'⟩ := hs.reduce hrule hhas
  cases hbelow.symm.trans hbelow'
  exact ⟨⟨hle, htake⟩, hvalues, hpred, hs'⟩

end Spelled

namespace Config

variable {e : Engine α} {r : Reducer α V σ} {T : Symbol → V → Prop} {c c' : Config V σ}
  {xs : List Symbol}

theorem edge_of_errorShift? (hg : e.tables = e.grammar.tables) {n m : Nat}
    (h : e.errorShift? n = some m) : e.grammar.Edge n (.terminal .error) m := by
  obtain ⟨row, hrow, hm⟩ := Option.bind_eq_some_iff.mp h
  rw [Engine.row?, hg] at hrow
  exact Grammar.edge_of_errorShift? hrow hm

theorem edge_of_goto? (hg : e.tables = e.grammar.tables) {n m lhs : Nat} {row : Row}
    (hrow : e.row? n = some row) (h : row.goto? lhs = some m) :
    e.grammar.Edge n (.nonterminal lhs) m := by
  rw [Engine.row?, hg] at hrow
  exact (Grammar.goto?_eq_some_iff hrow).mp h

theorem edge_of_shift (hg : e.tables = e.grammar.tables) {n m : Nat} {row : Row} {t : Terminal}
    (hrow : e.row? n = some row) (h : row.decide t = some (.shift m)) :
    e.grammar.Edge n (.terminal t) m := by
  rw [Engine.row?, hg] at hrow
  exact Grammar.allows_of_decide hrow h

/-- Recovery leaves a stack that spells symbols, the last one of them the error. -/
theorem Recovers.spelled (hg : e.tables = e.grammar.tables) {slots : List (Slot V)}
    {pending : List Token} {m : σ} (h : Recovers e r slots pending m (.running c'))
    (hs : Spelled e.grammar T slots xs) (herror : T (.terminal .error) r.blank) :
    ∃ xs', Spelled e.grammar T c'.stack.slots xs' := by
  cases h with
  | resume hslots hpopped hshift hslots' hpending hquiet hmemory =>
    subst hslots
    rw [hslots']
    exact ⟨_, .push hs.of_append (edge_of_errorShift? hg hshift) herror⟩

/-- A move keeps the stack spelled, if the reducer gives tokens and completed rules the values that
their symbols may have. -/
theorem Moves.spelled (hg : e.tables = e.grammar.tables) (h : Moves e r c (.running c'))
    (hs : Spelled e.grammar T c.stack.slots xs) (herror : T (.terminal .error) r.blank)
    (htoken : ∀ t ∈ c.pending, ∀ m, T (.terminal t.kind) (r.ofToken t m).1)
    (hreduce : ∀ (k : Nat) (p : Rule α) red m v m', e.grammar.rules[k]? = some p →
      List.Forall₂ T p.rhs red.values → r.reduce p.action red m = (.value v, m') →
      T (.nonterminal p.lhs) v) :
    ∃ xs', Spelled e.grammar T c'.stack.slots xs' := by
  cases h with
  | @shift x rest row t ts n _ v m hslots hrow hpending hdecide hvalue hslots' _ _ _ _ =>
    have hv := htoken t (hpending ▸ List.mem_cons_self ..) (c.peek e r).2.memory
    rw [hvalue] at hv
    rw [hslots] at hs
    rw [hslots']
    exact ⟨_, .push hs (edge_of_shift hg hrow hdecide) hv⟩
  | @reduce x y rest below row row' k n p v m _ hslots hrow hdecide hrule hbelow hrow' hgoto
      hverdict hslots' _ _ _ _ =>
    rw [hslots] at hs
    rw [Engine.row?, hg] at hrow
    obtain ⟨-, hvalues, -, hs'⟩ := hs.of_decide hrow hdecide hrule hbelow
    rw [hslots']
    exact ⟨_, .push hs' (edge_of_goto? hg hrow' hgoto)
      (hreduce k p _ _ v m hrule hvalues hverdict)⟩
  | @reject x y rest below row k p message m d _ hslots hrow hdecide hrule hbelow _ _ hrecover =>
    rw [hslots] at hs
    rw [Engine.row?, hg] at hrow
    obtain ⟨-, -, -, hs'⟩ := hs.of_decide hrow hdecide hrule hbelow
    exact hrecover.spelled hg hs' herror
  | skip hslots _ _ _ _ _ hrecover =>
    rw [hslots] at hs
    exact hrecover.spelled hg hs herror
  | fail hslots _ _ _ _ hrecover =>
    rw [hslots] at hs
    exact hrecover.spelled hg hs herror

end Config

end PlainLedger
