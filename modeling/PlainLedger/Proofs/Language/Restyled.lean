import PlainLedger.Proofs.Language.Calls
import PlainLedger.Proofs.Language.Respelled

/-!
# Restyled readings are carried out alike

An interpretation that does not heed the messages it is given answers the same where a reading has
been restyled. The stacks hold the same values, and what stands on them begins and ends on the same
lines, except that a line end with a comment begins where the comment does, and the fields of a
transaction end where their last pipe does.
-/

namespace PlainLedger

section Read

variable {α V σ : Type} {g : Grammar α} {r : Reducer α V σ} {xs : List Symbol} {f : Forest g xs}
  {u : Terminal} {t : Token} {slots slots' : List (Slot V)} {m m₁ m' : σ} {evs : List (Event V)}
  {v : V}

theorem Walks.of_read {ht : t.kind = u} (h : Walks r (.read t ht f) slots m evs slots' m')
    (hvalue : r.ofToken t m = (v, m₁)) :
    ∃ n evs', Walks r f (⟨n, v, t.span⟩ :: slots) m₁ evs' slots' m' := by
  subst ht
  obtain ⟨n, v', m₂, evs', -, hvalue', h⟩ := h.begun
  cases hvalue.symm.trans hvalue'
  exact ⟨n, evs', h⟩

theorem Walks.read (ht : t.kind = u) (n : Nat) (hvalue : r.ofToken t m = (v, m₁))
    (h : Walks r f (⟨n, v, t.span⟩ :: slots) m₁ evs slots' m') :
    ∃ evs', Walks r (.read t ht f) slots m evs' slots' m' := by
  subst ht
  exact ⟨_, .leaf t n hvalue h⟩

end Read

namespace Language

variable {H ε σ ω : Type}

/-! ## Interpretations that do not heed messages -/

/-- What the interpretation makes on request does not depend on the messages it has been given. What
it remembers is the `same` apart from them. -/
structure Interpretation.Heedless (i : Interpretation H ε σ ω) (same : σ → σ → Prop) : Prop where
  equivalence : Equivalence same
  report (d : Diagnostic) (s : σ) : same (i.report d s) s
  release {s s' : σ} (a : H) (hs : same s s') : same (i.release a s) (i.release a s')
  construct {s s' : σ} (c : Construction H) (hs : same s s') :
    (i.construct c s).1 = (i.construct c s').1 ∧ same (i.construct c s).2 (i.construct c s').2
  declare {s s' : σ} (d : Declaration) (hs : same s s') :
    (i.declare d s).1 = (i.declare d s').1 ∧ same (i.declare d s).2 (i.declare d s').2

/-- The calls of an interpretation apart from messages. -/
def Exchange.requests (calls : List (Exchange H ε)) : List (Exchange H ε) :=
  calls.filter fun x ↦ x.reported?.isNone

theorem Exchange.requests_append (calls calls' : List (Exchange H ε)) :
    requests (calls ++ calls') = requests calls ++ requests calls' :=
  List.filter_append ..

/-- Watched, such an interpretation is asked for the same as well. -/
theorem Interpretation.Heedless.watched {i : Interpretation H ε σ ω} {same : σ → σ → Prop}
    (hi : i.Heedless same) : i.watched.Heedless fun s s' ↦
      same s.1 s'.1 ∧ Exchange.requests s.2 = Exchange.requests s'.2 where
  equivalence := {
    refl s := ⟨hi.equivalence.refl s.1, rfl⟩
    symm h := ⟨hi.equivalence.symm h.1, h.2.symm⟩
    trans h h' := ⟨hi.equivalence.trans h.1 h'.1, h.2.trans h'.2⟩ }
  report d s := ⟨hi.report d s.1, (Exchange.requests_append ..).trans (List.append_nil _)⟩
  release a hs := ⟨hi.release a hs.1, hs.2⟩
  construct c hs := by
    obtain ⟨hanswer, hstate⟩ := hi.construct c hs.1
    refine ⟨hanswer, hstate, ?_⟩
    simp only [Interpretation.watched, Exchange.requests_append, hs.2, hanswer]
  declare d hs := by
    obtain ⟨hanswer, hstate⟩ := hi.declare d hs.1
    refine ⟨hanswer, hstate, ?_⟩
    simp only [Interpretation.watched, Exchange.requests_append, hs.2, hanswer]

/-! ## Messages -/

/-- The second messages are the first ones without `n` warnings of pipes, and with `k` warnings of
slashes more. -/
inductive Retold (file : String) : Nat → Nat → List Diagnostic → List Diagnostic → Prop where
  | nil : Retold file 0 0 [] []
  | same {n k : Nat} {ds ds' : List Diagnostic} (d : Diagnostic) (h : Retold file n k ds ds') :
      Retold file n k (ds ++ [d]) (ds' ++ [d])
  | pipe {n k : Nat} {ds ds' : List Diagnostic} (line : Line) (h : Retold file n k ds ds') :
      Retold file (n + 1) k (ds ++ [⟨file, line, .deprecated, pipeWarning⟩]) ds'
  | slash {n k : Nat} {ds ds' : List Diagnostic} (line : Line) (h : Retold file n k ds ds') :
      Retold file n (k + 1) ds (ds' ++ [⟨file, line, .deprecated, slashWarning⟩])

/-- Warnings are no errors. -/
theorem Retold.hasErrors_eq {file : String} {n k : Nat} {ds ds' : List Diagnostic}
    (h : Retold file n k ds ds') : hasErrors ds' = hasErrors ds := by
  have hwarning : ∀ line message,
      (⟨file, line, .deprecated, message⟩ : Diagnostic).isError = false := fun _ _ ↦ rfl
  unfold hasErrors
  induction h with
  | nil => rfl
  | same d _ ih => rw [List.any_append, List.any_append, ih]
  | pipe line _ ih => simp [List.any_append, ih, hwarning]
  | slash line _ ih => simp [List.any_append, ih, hwarning]

/-- What is remembered is the same apart from messages, and the messages have been retold. -/
structure Abreast (same : σ → σ → Prop) (file : String) (n k : Nat) (s s' : Session σ) : Prop where
  state : same s.state s'.state
  told : Retold file n k s.diagnostics.toList s'.diagnostics.toList

namespace Abreast

variable {i : Interpretation H ε σ ω} {ctx : Context} {same : σ → σ → Prop} {file : String}
  {n k : Nat} {s s' : Session σ}

theorem releaseAll (hi : i.Heedless same) (h : Abreast same file n k s s') (hs : List H) :
    Abreast same file n k (s.releaseAll i hs) (s'.releaseAll i hs) := by
  induction hs generalizing s s' with
  | nil => exact h
  | cons a hs ih =>
    have hnext : Abreast same file n k { s with state := i.release a s.state }
        { s' with state := i.release a s'.state } := ⟨hi.release a h.state, h.told⟩
    exact ih hnext

theorem report (hi : i.Heedless same) (h : Abreast same file n k s s') (d : Diagnostic) :
    Abreast same file n k (s.report i d) (s'.report i d) := by
  refine ⟨hi.equivalence.trans (hi.report d _) (hi.equivalence.trans h.state
    (hi.equivalence.symm (hi.report d _))), ?_⟩
  simp only [Session.report, Array.toList_push]
  exact .same d h.told

theorem pipe (hi : i.Heedless same) (h : Abreast same file n k s s') (line : Line) :
    Abreast same file (n + 1) k (s.report i ⟨file, line, .deprecated, pipeWarning⟩) s' := by
  refine ⟨hi.equivalence.trans (hi.report _ _) h.state, ?_⟩
  simp only [Session.report, Array.toList_push]
  exact .pipe line h.told

theorem slash (hi : i.Heedless same) (h : Abreast same file n k s s') (line : Line) :
    Abreast same file n (k + 1) s (s'.report i ⟨file, line, .deprecated, slashWarning⟩) := by
  refine ⟨hi.equivalence.trans h.state (hi.equivalence.symm (hi.report _ _)), ?_⟩
  simp only [Session.report, Array.toList_push]
  exact .slash line h.told

theorem perform (hi : i.Heedless same) (h : Abreast same file n k s s') (origin : Provenance)
    (plan : Plan H) : (s.perform i origin plan).1 = (s'.perform i origin plan).1 ∧
      Abreast same file n k (s.perform i origin plan).2 (s'.perform i origin plan).2 := by
  cases plan with
  | keep v => exact ⟨rfl, h⟩
  | warn message v => exact ⟨rfl, h.report hi _⟩
  | construct c =>
    obtain ⟨hanswer, hstate⟩ := hi.construct c h.state
    exact ⟨congrArg (Session.outcome i Value.handle) hanswer, hstate, h.told⟩
  | declare d =>
    obtain ⟨hanswer, hstate⟩ := hi.declare d h.state
    exact ⟨congrArg (Session.outcome i fun _ ↦ .nothing) hanswer, hstate, h.told⟩
  | measure c tolerance? =>
    obtain ⟨hanswer, hstate⟩ := hi.construct c h.state
    have hnext : Abreast same file n k { s with state := (i.construct c s.state).2 }
        { s' with state := (i.construct c s'.state).2 } := ⟨hstate, h.told⟩
    unfold Session.perform
    dsimp only
    rw [← hanswer]
    cases (i.construct c s.state).1 with
    | ok a => exact ⟨rfl, hnext⟩
    | error reason => exact ⟨rfl, hnext.releaseAll hi _⟩

/-- The same rule is completed on either side. -/
theorem reduce (hi : i.Heedless same) (h : Abreast same file n k s s') {p : Production}
    {red red' : Reduction (Value H)} (hrule : red.rule = red'.rule)
    (hvalues : red.values = red'.values)
    (hflag : txnFlag? p red.below = txnFlag? p red'.below)
    (horigin : ctx.provenance red.span = ctx.provenance red'.span) :
    ((reducer i ctx).reduce p red s).1 = ((reducer i ctx).reduce p red' s').1 ∧
      Abreast same file n k ((reducer i ctx).reduce p red s).2
        ((reducer i ctx).reduce p red' s').2 := by
  dsimp only [reducer]
  rw [hrule, hvalues, hflag, horigin]
  split
  · exact ⟨rfl, h.releaseAll hi _⟩
  · exact (h.releaseAll hi _).perform hi _ _

end Abreast

/-! ## Walks along two readings in a row -/

section Walks

variable {r : Reducer Production (Value H) σ} {xs ys : List Symbol} {T : Reading xs}
  {T' : Reading ys} {slots slots₁ slots' : List (Slot (Value H))} {m m₁ m' : σ}
  {evs evs' : List (Event (Value H))}

theorem Reading.exists_of_walks (h : Walks r (T.append T').forest slots m evs slots' m') :
    ∃ evs₁ slots₁ m₁ evs₂, Walks r T.forest slots m evs₁ slots₁ m₁ ∧
      Walks r T'.forest slots₁ m₁ evs₂ slots' m' := by
  induction T generalizing slots m evs with
  | nil => exact ⟨[], slots, m, evs, .nil slots m, h⟩
  | token t ht rest ih =>
    obtain ⟨n, evs, hrest⟩ := h.of_read rfl
    obtain ⟨evs₁, slots₁, m₁, evs₂, h₁, h₂⟩ := ih hrest
    obtain ⟨evs, hwalks⟩ := Walks.read ht n rfl h₁
    exact ⟨evs, slots₁, m₁, evs₂, hwalks, h₂⟩
  | phrase k hrule hp children rest _ ih =>
    obtain ⟨n, evs₀, slots₀, m₀, v, m', evs, -, hchildren, hverdict, hrest⟩ := h.begun
    obtain ⟨evs₁, slots₁, m₁, evs₂, h₁, h₂⟩ := ih hrest
    exact ⟨_, slots₁, m₁, evs₂, .node n hchildren hverdict h₁, h₂⟩
  | expr e he rest ih =>
    obtain ⟨evs₀, slots₀, m₀, evs, -, hexpr, hrest⟩ := Walks.exists_of_append h
    obtain ⟨evs₁, slots₁, m₁, evs₂, h₁, h₂⟩ := ih hrest
    exact ⟨_, slots₁, m₁, evs₂, hexpr.append h₁, h₂⟩

theorem Reading.exists_walks (h : Walks r T.forest slots m evs slots₁ m₁)
    (h' : Walks r T'.forest slots₁ m₁ evs' slots' m') :
    ∃ evs, Walks r (T.append T').forest slots m evs slots' m' := by
  induction T generalizing slots m evs with
  | nil =>
    obtain ⟨-, rfl, rfl⟩ := h.begun
    exact ⟨evs', h'⟩
  | token t ht rest ih =>
    obtain ⟨n, evs, hrest⟩ := h.of_read rfl
    obtain ⟨evs, hwalks⟩ := ih hrest
    exact Walks.read ht n rfl hwalks
  | phrase k hrule hp children rest _ ih =>
    obtain ⟨n, evs₀, slots₀, m₀, v, m', evs, -, hchildren, hverdict, hrest⟩ := h.begun
    obtain ⟨evs, hwalks⟩ := ih hrest
    exact ⟨_, .node n hchildren hverdict hwalks⟩
  | expr e he rest ih =>
    obtain ⟨evs₀, slots₀, m₀, evs, -, hexpr, hrest⟩ := Walks.exists_of_append h
    obtain ⟨evs, hwalks⟩ := ih hrest
    exact ⟨_, hexpr.append hwalks⟩

end Walks

/-! ## Stacks -/

/-- What may begin on another line once a comment is left out. None of it is used. -/
def endingSymbols : List Symbol := [Category.eol, .emptyLine, .directive].map Category.symbol

/-- Two slots for the symbol, before and after a text is respelled. -/
structure AlikeAt (x : Symbol) (a a' : Slot (Value H)) : Prop where
  value : a.value = a'.value
  first : x ∉ endingSymbols → a.span.firstLine = a'.span.firstLine
  last : x ≠ Category.txnFields.symbol → a.span.lastLine = a'.span.lastLine

/-- Two stacks for the symbols, before and after a text is respelled. -/
inductive Alike : List Symbol → List (Slot (Value H)) → List (Slot (Value H)) → Prop where
  | nil : Alike [] [] []
  | cons {x : Symbol} {xs : List Symbol} {a a' : Slot (Value H)}
      {slots slots' : List (Slot (Value H))} (ha : AlikeAt x a a') (h : Alike xs slots slots') :
    Alike (x :: xs) (a :: slots) (a' :: slots')

namespace Alike

variable {x y : Symbol} {xs ys : List Symbol} {slots slots' : List (Slot (Value H))}

theorem values_eq (h : Alike xs slots slots') : slots.map Slot.value = slots'.map Slot.value := by
  induction h with
  | nil => rfl
  | cons ha _ ih => rw [List.map_cons, List.map_cons, ha.value, ih]

theorem drop (h : Alike xs slots slots') (n : Nat) :
    Alike (xs.drop n) (slots.drop n) (slots'.drop n) := by
  induction h generalizing n with
  | nil => simpa using .nil
  | cons ha h ih =>
    cases n with
    | zero => exact .cons ha h
    | succ n => exact ih n

theorem length_eq (h : Alike xs slots slots') :
    slots.length = xs.length ∧ slots'.length = xs.length := by
  induction h with
  | nil => exact ⟨rfl, rfl⟩
  | cons _ _ ih => exact ⟨congrArg (· + 1) ih.1, congrArg (· + 1) ih.2⟩

/-- What takes up some symbols begins and ends on the same lines on either side. -/
theorem span (h : Alike (xs ++ ys) slots slots') (hne : xs ≠ []) (m m' : Nat) :
    (∀ z ∈ xs.getLast?, z ∉ endingSymbols →
        (Reduction.ofSlots m xs.length slots).span.firstLine =
          (Reduction.ofSlots m' xs.length slots').span.firstLine) ∧
      ∀ z ∈ xs.head?, z ≠ Category.txnFields.symbol →
        (Reduction.ofSlots m xs.length slots).span.lastLine =
          (Reduction.ofSlots m' xs.length slots').span.lastLine := by
  induction xs generalizing slots slots' with
  | nil => exact (hne rfl).elim
  | cons x xs ih =>
    cases h with
    | cons ha h =>
    cases xs with
    | nil =>
      refine ⟨?_, ?_⟩
      · rintro z ⟨⟩
        exact ha.first
      · rintro z ⟨⟩
        exact ha.last
    | cons x' xs =>
      have hle : xs.length + 1 ≤ (x' :: xs ++ ys).length := by simp
      obtain ⟨hfirst, -⟩ := ih h (List.cons_ne_nil _ _)
      simp only [List.length_cons] at hfirst ⊢
      rw [span_ofSlots_succ m _ (h.length_eq.1 ▸ hle),
        span_ofSlots_succ m' _ (h.length_eq.2 ▸ hle)]
      refine ⟨?_, ?_⟩
      · intro z hz
        exact hfirst z (by rwa [List.getLast?_cons_cons] at hz)
      · rintro z ⟨⟩
        exact ha.last

end Alike

theorem txnFlag?_of_values {p : Production} {below below' : List (Slot (Value H))}
    (h : below.map Slot.value = below'.map Slot.value) : txnFlag? p below = txnFlag? p below' := by
  have hat : (below[3]?).map Slot.value = (below'[3]?).map Slot.value := by
    rw [← List.getElem?_map, ← List.getElem?_map, h]
  unfold txnFlag?
  split
  · generalize (below[3]? : Option (Slot (Value H))) = a at hat ⊢
    generalize (below'[3]? : Option (Slot (Value H))) = a' at hat ⊢
    cases a with
    | none =>
      cases a' with
      | none => rfl
      | some a' => cases hat
    | some a =>
      cases a' with
      | none => cases hat
      | some a' =>
        obtain ⟨n, v, span⟩ := a
        obtain ⟨n', v', span'⟩ := a'
        obtain rfl : v = v' := Option.some.inj hat
        cases v <;> rfl
  · rfl

/-! ## What stands after the fields of a transaction -/

/-- What comes after the fields of a transaction is written as something. -/
def Joins (x y : Symbol) : Prop :=
  x = Category.txnFields.symbol → y = Category.eol.symbol ∨ y.terminal?.isSome = true

instance (x y : Symbol) : Decidable (Joins x y) := by
  unfold Joins
  infer_instance

/-- What is checked of each rule, so that lines stay as they are. -/
structure KeepsLines (p : Rule Production) : Prop where
  joins : p.rhs.IsChain Joins
  eol : p.lhs = Category.eol.index → ∃ x ∈ p.rhs.head?, x.terminal?.isSome = true
  first : ∀ x ∈ p.rhs.head?, x ∈ endingSymbols → .nonterminal p.lhs ∈ endingSymbols
  last : ∀ x ∈ p.rhs.getLast?, x ≠ Category.txnFields.symbol
  action : .nonterminal p.lhs ∈ endingSymbols → p.action = .discard
  comment : .terminal .comment ∈ p.rhs → .nonterminal p.lhs ∈ endingSymbols

instance (p : Rule Production) : Decidable (KeepsLines p) :=
  decidable_of_iff (_ ∧ _ ∧ _ ∧ _ ∧ _ ∧ _)
    ⟨fun h ↦ ⟨h.1, h.2.1, h.2.2.1, h.2.2.2.1, h.2.2.2.2.1, h.2.2.2.2.2⟩,
      fun h ↦ ⟨h.joins, h.eol, h.first, h.last, h.action, h.comment⟩⟩

theorem keepsLines {m : Nat} {p : Rule Production} (hrule : grammar.rules[m]? = some p) :
    KeepsLines p := by
  have hall : ∀ p ∈ grammar.rules, KeepsLines p := by decide +kernel
  exact hall p (List.mem_of_getElem? hrule)

section Completed

variable {i : Interpretation H ε σ ω} {ctx : Context} {same : σ → σ → Prop} {n k m : Nat}
  {p : Rule Production} {y : Symbol} {ys : List Symbol} {slots slots' : List (Slot (Value H))}
  {s s' s₁ : Session σ}

theorem KeepsLines.chain (hp : KeepsLines p) (hy : Joins y (.nonterminal p.lhs)) :
    (y :: p.rhs).IsChain Joins := by
  refine List.isChain_cons.mpr ⟨fun x hx hfields ↦ ?_, hp.joins⟩
  rcases hy hfields with heol | hterminal
  · obtain ⟨x', hx', hterminal⟩ := hp.eol (Symbol.nonterminal.inj heol)
    cases hx.symm.trans hx'
    exact Or.inr hterminal
  · cases hterminal

/-- A rule that is completed on either side stands on the same lines. -/
theorem Alike.completed (hp : KeepsLines p) (hy : Joins y (.nonterminal p.lhs))
    (h : Alike (p.rhs.reverse ++ y :: ys) slots slots') (m m' j j' : Nat) (v : Value H) :
    AlikeAt (.nonterminal p.lhs) ⟨j, v, (Reduction.ofSlots m p.rhs.length slots).span⟩
      ⟨j', v, (Reduction.ofSlots m' p.rhs.length slots').span⟩ := by
  by_cases hnil : p.rhs = []
  · have hne : y ≠ Category.txnFields.symbol := by
      rintro rfl
      rcases hy rfl with heol | hterminal
      · obtain ⟨x, hx, -⟩ := hp.eol (Symbol.nonterminal.inj heol)
        rw [hnil] at hx
        cases hx
      · cases hterminal
    rw [hnil] at h ⊢
    cases h with
    | cons ha _ => exact ⟨rfl, fun _ ↦ ha.last hne, fun _ ↦ ha.last hne⟩
  · have hspan := h.span (by simpa using hnil) m m'
    rw [List.length_reverse, List.getLast?_reverse, List.head?_reverse] at hspan
    refine ⟨rfl, fun hline ↦ ?_, fun _ ↦ ?_⟩
    · have hx := List.head?_eq_some_head hnil
      exact hspan.1 _ hx fun hmem ↦ hline (hp.first _ hx hmem)
    · have hx := List.getLast?_eq_some_getLast hnil
      exact hspan.2 _ hx (hp.last _ hx)

theorem Alike.values_ofSlots (h : Alike ys slots slots') (m m' n : Nat) :
    (Reduction.ofSlots m n slots).values = (Reduction.ofSlots m' n slots').values := by
  simp only [Reduction.ofSlots, List.map_reverse, List.map_take, h.values_eq]

/-- To end a line comes to nothing. -/
theorem reduce_discard (i : Interpretation H ε σ ω) (ctx : Context) (red : Reduction (Value H))
    (s : Session σ) : (reducer i ctx).reduce .discard red s =
      (.value .nothing, s.releaseAll i (red.values.flatMap Value.handles)) := rfl

theorem reduce_discard_of_nil (i : Interpretation H ε σ ω) (ctx : Context)
    {red : Reduction (Value H)} (h : red.values.flatMap Value.handles = []) (s : Session σ) :
    (reducer i ctx).reduce .discard red s = (.value .nothing, s) := by
  rw [reduce_discard, h]
  rfl

/-- What comes of a completed rule is the same on either side. -/
theorem Abreast.complete (hi : i.Heedless same) (h : Abreast same ctx.file n k s s')
    (hp : KeepsLines p) (hy : Joins y (.nonterminal p.lhs))
    (hslots : Alike (p.rhs.reverse ++ y :: ys) slots slots') {v : Value H}
    (hverdict : (reducer i ctx).reduce p.action (.ofSlots m p.rhs.length slots) s =
      (.value v, s₁)) :
    ∃ s₁', (reducer i ctx).reduce p.action (.ofSlots m p.rhs.length slots') s' = (.value v, s₁') ∧
      Abreast same ctx.file n k s₁ s₁' := by
  have hvalues := hslots.values_ofSlots m m p.rhs.length
  by_cases hline : .nonterminal p.lhs ∈ endingSymbols
  · rw [hp.action hline, reduce_discard, hvalues] at hverdict
    rw [hp.action hline, reduce_discard]
    cases hverdict
    exact ⟨_, rfl, h.releaseAll hi _⟩
  · have hfirst := (hslots.completed hp hy m m 0 0 v).first hline
    have horigin : ctx.provenance (Reduction.ofSlots m p.rhs.length slots).span =
        ctx.provenance (Reduction.ofSlots m p.rhs.length slots').span :=
      congrArg (fun line ↦ (⟨ctx.file, ctx.reported line⟩ : Provenance)) hfirst
    have hrule : (Reduction.ofSlots m p.rhs.length slots).rule =
        (Reduction.ofSlots m p.rhs.length slots').rule := rfl
    have hflag : txnFlag? p.action (Reduction.ofSlots m p.rhs.length slots).below =
        txnFlag? p.action (Reduction.ofSlots m p.rhs.length slots').below :=
      txnFlag?_of_values (hslots.drop p.rhs.length).values_eq
    obtain ⟨hvalue, hnext⟩ := h.reduce hi hrule hvalues hflag horigin
    rw [hverdict] at hvalue hnext
    exact ⟨((reducer i ctx).reduce p.action (.ofSlots m p.rhs.length slots') s').2,
      Prod.ext hvalue.symm rfl, hnext⟩

/-- A pipe is warned of, and the fields before it are the value. -/
theorem eq_report_of_pipe {red : Reduction (Value H)} {v₀ v₁ v : Value H}
    (hvalues : red.values = [v₀, v₁]) (hhandles : v₁.handles = [])
    (hverdict : (reducer i ctx).reduce .fieldPipe red s = (.value v, s₁)) :
    v = v₀ ∧ s₁ = s.report i ⟨ctx.file, ctx.lineOf red.span, .deprecated, pipeWarning⟩ := by
  dsimp only [reducer] at hverdict
  rw [hvalues] at hverdict
  cases v₀ with
  | fields f =>
    change (_, Session.report i _ (s.releaseAll i ([v₁].flatMap Value.handles))) = _ at hverdict
    rw [List.flatMap_singleton, hhandles] at hverdict
    cases hverdict
    exact ⟨rfl, rfl⟩
  | _ => cases hverdict

/-- Where a comma can be read, a slash is warned of, and is read in the same way. -/
theorem Abreast.slashed (hi : i.Heedless same) (h : Abreast same ctx.file n k s s')
    {red red' : Reduction (Value H)} {v₁ v₂ v₂' v₃ v : Value H} (hred : red.values = [v₁, v₂, v₃])
    (hred' : red'.values = [v₁, v₂', v₃]) (hcomma : v₂.handles = []) (hslash : v₂'.handles = [])
    (hverdict : (reducer i ctx).reduce .lotListComma red s = (.value v, s₁)) :
    ∃ s₁', (reducer i ctx).reduce .lotListSlash red' s' = (.value v, s₁') ∧
      Abreast same ctx.file n (k + 1) s₁ s₁' := by
  dsimp only [reducer] at hverdict ⊢
  rw [hred] at hverdict
  rw [hred']
  cases v₁ with
  | components xs =>
    cases v₃ with
    | component x =>
      change (_, s.releaseAll i ([v₂].flatMap Value.handles)) = _ at hverdict
      change ∃ s₁', (_, Session.report i _ (s'.releaseAll i ([v₂'].flatMap Value.handles))) = _ ∧ _
      rw [List.flatMap_singleton, hcomma] at hverdict
      rw [List.flatMap_singleton, hslash]
      cases hverdict
      exact ⟨_, rfl, h.slash hi _⟩
    | _ => cases hverdict
  | _ => cases hverdict

end Completed

/-! ## The walk along a restyled reading -/

/-- The walk along the forest comes to a stack and a memory that are like the given ones. -/
def WalksLike (i : Interpretation H ε σ ω) (ctx : Context) (same : σ → σ → Prop) (n k : Nat)
    {xs : List Symbol} (f : Forest grammar xs) (ys : List Symbol) (slots : List (Slot (Value H)))
    (s : Session σ) (slots₁ : List (Slot (Value H))) (s₁ : Session σ) : Prop :=
  ∃ evs slots' s', Walks (reducer i ctx) f slots s evs slots' s' ∧ Alike ys slots₁ slots' ∧
    Abreast same ctx.file n k s₁ s'

section Walks

variable {i : Interpretation H ε σ ω} {ctx : Context} {same : σ → σ → Prop} {n k a b : Nat}
  {xs ys : List Symbol} {y : Symbol} {slots slots' slots₁ : List (Slot (Value H))}
  {s s' s₁ : Session σ} {evs : List (Event (Value H))}

theorem alikeAt_token {u : Terminal} (j j' : Nat) (t : Token) :
    AlikeAt (.terminal u) (⟨j, Value.ofToken t, t.span⟩ : Slot (Value H))
      ⟨j', Value.ofToken t, t.span⟩ :=
  ⟨rfl, fun _ ↦ rfl, fun _ ↦ rfl⟩

theorem handles_ofToken (t : Token) : (Value.ofToken t : Value H).handles = [] := by
  unfold Value.ofToken
  split <;> rfl

/-- Along one forest the walk comes to the same from either stack. -/
theorem walksLike_of_walks (hi : i.Heedless same) {f : Forest grammar xs}
    (hw : Walks (reducer i ctx) f slots s evs slots₁ s₁) (hslots : Alike (y :: ys) slots slots')
    (hxs : (y :: xs).IsChain Joins) (hs : Abreast same ctx.file a b s s') :
    WalksLike i ctx same a b f (xs.reverse ++ y :: ys) slots' s' slots₁ s₁ := by
  induction hw generalizing y ys slots' s' with
  | nil slots s => exact ⟨[], slots', s', .nil _ _, hslots, hs⟩
  | leaf t j hvalue _ ih =>
    cases hvalue
    obtain ⟨evs, slots₁', s₁', hwalks, halike, habreast⟩ :=
      ih (.cons (alikeAt_token j 0 t) hslots) hxs.tail hs
    refine ⟨_, slots₁', s₁', .leaf t 0 rfl hwalks, ?_, habreast⟩
    rw [List.reverse_cons, List.append_assoc]
    exact halike
  | @node xs m p hrule children rest slots slots₀ slots₁ s s₀ s₂ s₁ evs evs' v j _ hverdict _ ihc
      ihr =>
    have hy := (List.isChain_cons_cons.mp hxs).1
    have hp := keepsLines hrule
    obtain ⟨evs₀, slots₀', s₀', hchildren, halike₀, habreast₀⟩ := ihc hslots (hp.chain hy) hs
    obtain ⟨s₂', hverdict', habreast₂⟩ := habreast₀.complete hi hp hy halike₀ hverdict
    obtain ⟨evs₁, slots₁', s₁', hrest, halike, habreast⟩ :=
      ihr (.cons (halike₀.completed hp hy m m j 0 v) hslots) hxs.tail habreast₂
    refine ⟨_, slots₁', s₁', .node 0 hchildren hverdict' hrest, ?_, habreast⟩
    rw [List.reverse_cons, List.append_assoc]
    exact halike

/-! ## Lots -/

/-- What lots are made of. -/
def InLot : Symbol → Prop
  | .terminal _ => True
  | .nonterminal n => settles true n = true

instance : (x : Symbol) → Decidable (InLot x)
  | .terminal _ => .isTrue trivial
  | .nonterminal n => inferInstanceAs (Decidable (settles true n = true))

theorem inLot_of_rule {m : Nat} {p : Rule Production} (hrule : grammar.rules[m]? = some p)
    (hp : InLot (.nonterminal p.lhs)) : p.action.isPosting = false ∧ ∀ x ∈ p.rhs, InLot x := by
  have hall : ∀ p ∈ grammar.rules, InLot (.nonterminal p.lhs) →
      p.action.isPosting = false ∧ ∀ x ∈ p.rhs, InLot x := by decide +kernel
  exact hall p (List.mem_of_getElem? hrule) hp

/-- Along what lots are made of, the walk does not depend on the values below. -/
theorem exists_rebased {f : Forest grammar xs} (hxs : ∀ x ∈ xs, InLot x)
    (hw : Walks (reducer i ctx) f slots s evs slots₁ s₁)
    (hspans : slots.map Slot.span = slots'.map Slot.span) :
    ∃ own evs', slots₁ = own ++ slots ∧ own.length = xs.length ∧
      Walks (reducer i ctx) f slots' s evs' (own ++ slots') s₁ := by
  have hpush : ∀ {slots slots' : List (Slot (Value H))} (x : Slot (Value H)),
      slots.map Slot.span = slots'.map Slot.span →
        (x :: slots).map Slot.span = (x :: slots').map Slot.span :=
    fun x h ↦ congrArg (x.span :: ·) h
  induction hw generalizing slots' with
  | nil slots s => exact ⟨[], [], rfl, rfl, .nil _ _⟩
  | leaf t j hvalue _ ih =>
    obtain ⟨own, evs', rfl, hlength, hwalks⟩ := ih (List.forall_mem_cons.mp hxs).2 (hpush _ hspans)
    rw [List.append_cons] at hwalks
    refine ⟨_, _, List.append_cons .., ?_, .leaf t j hvalue hwalks⟩
    rw [List.length_append, hlength]
    rfl
  | @node xs m p hrule children rest slots slots₀ slots₁ s s₀ s₂ s₁ evs evs' v j _ hverdict _ ihc
      ihr =>
    obtain ⟨hlot, hrest⟩ := List.forall_mem_cons.mp hxs
    obtain ⟨hposting, hrhs⟩ := inLot_of_rule hrule hlot
    obtain ⟨own₀, evs₀, rfl, hlength₀, hchildren⟩ := ihc hrhs hspans
    have hspan : (Reduction.ofSlots m p.rhs.length (own₀ ++ slots)).span =
        (Reduction.ofSlots m p.rhs.length (own₀ ++ slots')).span :=
      Walks.span_ofSlots_congr m m _ (by rw [List.map_append, List.map_append, hspans])
    have hvalues : (Reduction.ofSlots m p.rhs.length (own₀ ++ slots)).values =
        (Reduction.ofSlots m p.rhs.length (own₀ ++ slots')).values := by
      simp only [Reduction.ofSlots, List.take_left' hlength₀]
    have hflag : ∀ below : List (Slot (Value H)), txnFlag? p.action below = none :=
      fun _ ↦ if_neg (by rw [hposting]; decide)
    have hverdict' : (reducer i ctx).reduce p.action
        (.ofSlots m p.rhs.length (own₀ ++ slots')) s₀ = (.value v, s₂) := by
      rw [← hverdict]
      dsimp only [reducer]
      rw [hspan, hvalues, hflag, hflag]
      rfl
    obtain ⟨own, evs', rfl, hlength, hwalks⟩ := ihr hrest (hpush _ hspans)
    rw [List.append_cons, hspan] at hwalks
    refine ⟨_, _, ?_, ?_, .node j hchildren hverdict' hwalks⟩
    · rw [hspan, List.append_cons]
    · rw [List.length_append, hlength]
      rfl

/-- Along the second reading the walk comes to the same as along the first one. -/
def Retraces (i : Interpretation H ε σ ω) (ctx : Context) (same : σ → σ → Prop) (n k : Nat)
    {xs : List Symbol} (T T' : Reading xs) : Prop :=
  ∀ ⦃a b : Nat⦄ ⦃y : Symbol⦄ ⦃ys : List Symbol⦄ ⦃slots slots' slots₁ : List (Slot (Value H))⦄
    ⦃s s' s₁ : Session σ⦄ ⦃evs : List (Event (Value H))⦄,
    Walks (reducer i ctx) T.forest slots s evs slots₁ s₁ → Alike (y :: ys) slots slots' →
      (y :: xs).IsChain Joins → Abreast same ctx.file a b s s' →
        WalksLike i ctx same (a + n) (b + k) T'.forest (xs.reverse ++ y :: ys) slots' s' slots₁ s₁

namespace Retraces

variable {n₁ k₁ n₂ k₂ n₃ k₃ m m' : Nat} {t u : Token} {rest rest' : Reading xs}

theorem nil : Retraces i ctx same 0 0 (.nil : Reading []) .nil := by
  intro a b y ys slots slots' slots₁ s s' s₁ evs hw hslots _ hs
  obtain ⟨-, rfl, rfl⟩ := hw.begun
  exact ⟨[], slots', s', .nil _ _, hslots, hs⟩

theorem token {v : Terminal} (ht : t.kind = v) (ih : Retraces i ctx same n k rest rest') :
    Retraces i ctx same n k (.token t ht rest) (.token t ht rest') := by
  intro a b y ys slots slots' slots₁ s s' s₁ evs hw hslots hxs hs
  obtain ⟨j, evs, hrest⟩ := hw.of_read rfl
  obtain ⟨evs, slots₁', s₁', hwalks, halike, habreast⟩ :=
    ih hrest (.cons (alikeAt_token j 0 t) hslots) hxs.tail hs
  obtain ⟨evs, hwalks⟩ := Walks.read ht 0 rfl hwalks
  refine ⟨evs, slots₁', s₁', hwalks, ?_, habreast⟩
  rw [List.reverse_cons, List.append_assoc]
  exact halike

theorem expr (hi : i.Heedless same) (e : Expr) (he : e.Parenthesized)
    (ih : Retraces i ctx same n k rest rest') :
    Retraces i ctx same n k (.expr e he rest) (.expr e he rest') := by
  intro a b y ys slots slots' slots₁ s s' s₁ evs hw hslots hxs hs
  have hy := (List.isChain_cons_cons.mp hxs).1
  obtain ⟨evs₀, slots₀, s₀, evs, -, hexpr, hrest⟩ := Walks.exists_of_append hw
  obtain ⟨evs₀, slots₀', s₀', hexpr', halike₀, habreast₀⟩ :=
    walksLike_of_walks hi hexpr hslots (List.isChain_cons_cons.mpr ⟨hy, .singleton _⟩) hs
  obtain ⟨evs₁, slots₁', s₁', hwalks, halike, habreast⟩ := ih hrest halike₀ hxs.tail habreast₀
  refine ⟨_, slots₁', s₁', hexpr'.append hwalks, ?_, habreast⟩
  rw [List.reverse_cons, List.append_assoc]
  exact halike

theorem phrase (hi : i.Heedless same) {p : Rule Production} {hrule : grammar.rules[m]? = some p}
    {hp : p.lhs ≠ Category.numberExpr.index} {children children' : Reading p.rhs}
    (ihc : Retraces i ctx same n₁ k₁ children children')
    (ihr : Retraces i ctx same n₂ k₂ rest rest') :
    Retraces i ctx same (n₁ + n₂) (k₁ + k₂) (.phrase m hrule hp children rest)
      (.phrase m hrule hp children' rest') := by
  intro a b y ys slots slots' slots₁ s s' s₁ evs hw hslots hxs hs
  obtain ⟨j, evs₀, slots₀, s₀, v, s₂, evs₁, -, hchildren, hverdict, hrest⟩ := hw.begun
  have hy := (List.isChain_cons_cons.mp hxs).1
  have hp := keepsLines hrule
  obtain ⟨evs₀, slots₀', s₀', hchildren', halike₀, habreast₀⟩ :=
    ihc hchildren hslots (hp.chain hy) hs
  obtain ⟨s₂', hverdict', habreast₂⟩ := habreast₀.complete hi hp hy halike₀ hverdict
  obtain ⟨evs₁, slots₁', s₁', hwalks, halike, habreast⟩ :=
    ihr hrest (.cons (halike₀.completed hp hy m m j 0 v) hslots) hxs.tail habreast₂
  refine ⟨_, slots₁', s₁', .node 0 hchildren' hverdict' hwalks, ?_, ?_⟩
  · rw [List.reverse_cons, List.append_assoc]
    exact halike
  · rwa [Nat.add_assoc, Nat.add_assoc] at habreast

theorem comment {c : Category} {hrule : grammar.rules[m]? = some (commentedRule c)}
    {hrule' : grammar.rules[m']? = some (uncommentedRule c)}
    {hp : c.index ≠ Category.numberExpr.index} (ht : t.kind = .comment) (hu : u.kind = .eol)
    (ih : Retraces i ctx same n k rest rest') :
    Retraces i ctx same n k
      (.phrase (p := commentedRule c) m hrule hp (.token t ht (.token u hu .nil)) rest)
      (.phrase (p := uncommentedRule c) m' hrule' hp (.token u hu .nil) rest') := by
  intro a b y ys slots slots' slots₁ s s' s₁ evs hw hslots hxs hs
  obtain ⟨j, evs₀, slots₀, s₀, v, s₂, evs₁, -, hchildren, hverdict, hrest⟩ := hw.begun
  obtain ⟨j₁, evs₂, htail⟩ := hchildren.of_read rfl
  obtain ⟨j₂, evs₃, hnil⟩ := htail.of_read rfl
  obtain ⟨-, rfl, rfl⟩ := hnil.begun
  have hline : .nonterminal c.index ∈ endingSymbols :=
    (keepsLines hrule).comment (List.mem_cons_self ..)
  have hempty : ([Value.ofToken t, Value.ofToken u] : List (Value H)).flatMap Value.handles = [] ∧
      ([Value.ofToken u] : List (Value H)).flatMap Value.handles = [] := by
    simp [handles_ofToken]
  cases (reduce_discard_of_nil i ctx hempty.1 _).symm.trans hverdict
  have hverdict' : (reducer i ctx).reduce .discard
      (.ofSlots m' 1 (⟨0, Value.ofToken u, u.span⟩ :: slots')) s' = (.value .nothing, s') :=
    reduce_discard_of_nil i ctx hempty.2 s'
  obtain ⟨evs₄, hu'⟩ := Walks.read (r := reducer i ctx) hu 0 rfl
    (.nil (⟨0, Value.ofToken u, u.span⟩ :: slots') s')
  have hended : AlikeAt (.nonterminal c.index) (⟨j, .nothing, (Reduction.ofSlots m 2
      (⟨j₂, Value.ofToken u, u.span⟩ :: ⟨j₁, Value.ofToken t, t.span⟩ :: slots)).span⟩ :
        Slot (Value H)) ⟨0, .nothing, u.span⟩ :=
    ⟨rfl, fun hnot ↦ (hnot hline).elim, fun _ ↦ rfl⟩
  obtain ⟨evs₁, slots₁', s₁', hwalks, halike, habreast⟩ :=
    ih hrest (.cons hended hslots) hxs.tail hs
  refine ⟨_, slots₁', s₁', .node 0 hu' hverdict' hwalks, ?_, habreast⟩
  rw [List.reverse_cons, List.append_assoc]
  exact halike

theorem pipe (hi : i.Heedless same) {hrule : grammar.rules[m]? = some pipeRule}
    {hp : pipeRule.lhs ≠ Category.numberExpr.index}
    {fields fields' : Reading [Category.txnFields.symbol]} (ht : t.kind = .pipe)
    (ihf : Retraces i ctx same n₁ k₁ fields fields')
    (ihr : Retraces i ctx same n₂ k₂ rest rest') :
    Retraces i ctx same (n₁ + n₂ + 1) (k₁ + k₂)
      (.phrase m hrule hp (fields.append (.token t ht .nil)) rest) (fields'.append rest') := by
  intro a b y ys slots slots' slots₁ s s' s₁ evs hw hslots hxs hs
  obtain ⟨j, evs₀, slots₀, s₀, v, s₂, evs₁, -, hchildren, hverdict, hrest⟩ := hw.begun
  obtain ⟨evs₂, slots₂, s₃, evs₃, hfields, htoken⟩ := Reading.exists_of_walks hchildren
  obtain ⟨j₁, evs₄, hnil⟩ := htoken.of_read rfl
  obtain ⟨-, rfl, rfl⟩ := hnil.begun
  have hy := (List.isChain_cons_cons.mp hxs).1
  obtain ⟨evs₅, slots₂', s₃', hfields', halike₂, habreast₂⟩ :=
    ihf hfields hslots (List.isChain_cons_cons.mpr ⟨hy, .singleton _⟩) hs
  have hbelow := hfields.drop_eq
  have hbelow' := hfields'.drop_eq
  cases halike₂ with
  | @cons _ _ z z' below below' hz _ =>
  obtain rfl : below = slots := hbelow
  obtain rfl : below' = slots' := hbelow'
  obtain ⟨rfl, rfl⟩ := eq_report_of_pipe rfl (handles_ofToken t) hverdict
  have hpiped : AlikeAt Category.txnFields.symbol
      ⟨j, z.value, (Reduction.ofSlots m 2 (⟨j₁, Value.ofToken t, t.span⟩ :: z :: below)).span⟩ z' :=
    ⟨hz.value, hz.first, fun hne ↦ (hne rfl).elim⟩
  obtain ⟨evs₁, slots₁', s₁', hwalks, halike, habreast⟩ :=
    ihr hrest (.cons hpiped hslots) hxs.tail (habreast₂.pipe hi _)
  obtain ⟨evs, hwalks⟩ := Reading.exists_walks hfields' hwalks
  refine ⟨evs, slots₁', s₁', hwalks, ?_, ?_⟩
  · rw [List.reverse_cons, List.append_assoc]
    exact halike
  · have hn : a + n₁ + 1 + n₂ = a + (n₁ + n₂ + 1) := by omega
    rwa [hn, Nat.add_assoc b] at habreast

theorem slash (hi : i.Heedless same)
    {hrule : grammar.rules[m]? = some (clauseRule .comma .lotListComma)}
    {hrule' : grammar.rules[m']? = some (clauseRule .slash .lotListSlash)}
    {hp : Category.lotCompList.index ≠ Category.numberExpr.index}
    {clauses clauses' : Reading [Category.lotCompList.symbol]}
    {clause clause' : Reading [Category.lotComp.symbol]} (ht : t.kind = .comma)
    (hu : u.kind = .slash) (hspan : u.span = t.span)
    (ihl : Retraces i ctx same n₁ k₁ clauses clauses')
    (ihc : Retraces i ctx same n₂ k₂ clause clause')
    (ihr : Retraces i ctx same n₃ k₃ rest rest') :
    Retraces i ctx same (n₁ + n₂ + n₃) (k₁ + k₂ + k₃ + 1)
      (.phrase (p := clauseRule .comma .lotListComma) m hrule hp
        (clauses.append (.token t ht clause)) rest)
      (.phrase (p := clauseRule .slash .lotListSlash) m' hrule' hp
        (clauses'.append (.token u hu clause')) rest') := by
  intro a b y ys slots slots' slots₁ s s' s₁ evs hw hslots hxs hs
  obtain ⟨j, evs₀, slots₀, s₀, v, s₂, evs₁, -, hchildren, hverdict, hrest⟩ := hw.begun
  obtain ⟨evs₂, slots₂, s₃, evs₃, hclauses, htoken⟩ := Reading.exists_of_walks hchildren
  obtain ⟨j₁, evs₄, hclause⟩ := htoken.of_read rfl
  have hy := (List.isChain_cons_cons.mp hxs).1
  have hp := keepsLines hrule
  obtain ⟨evs₅, slots₂', s₃', hclauses', halike₂, habreast₂⟩ :=
    ihl hclauses hslots (List.isChain_cons_cons.mpr ⟨hy, .singleton _⟩) hs
  have hchain : [Symbol.terminal .comma, Category.lotComp.symbol].IsChain Joins := by decide
  obtain ⟨evs₆, slots₀', s₀', hclause', halike₀, habreast₀⟩ :=
    ihc hclause (.cons (alikeAt_token j₁ 0 t) halike₂) hchain habreast₂
  obtain ⟨z, below, rfl⟩ : ∃ z below, slots₂' = z :: below := by
    cases halike₂
    exact ⟨_, _, rfl⟩
  -- After the slash the clause is read as it is after a comma, though the tokens may differ.
  have hspans : ∀ above, (above ++ ⟨0, Value.ofToken t, t.span⟩ :: z :: below).map Slot.span =
      (above ++ ⟨0, Value.ofToken u, u.span⟩ :: z :: below).map Slot.span := by
    simp [hspan]
  obtain ⟨own, evs₇, rfl, hlength, hclause'⟩ :=
    exists_rebased (List.forall_mem_singleton.mpr (by decide)) hclause' (hspans [])
  obtain ⟨x, rfl⟩ := List.length_eq_one_iff.mp hlength
  obtain ⟨evs₈, htoken'⟩ : ∃ evs, Walks (reducer i ctx) (Reading.token u hu clause').forest
      (z :: below) s₃' evs (x :: ⟨0, Value.ofToken u, u.span⟩ :: z :: below) s₀' :=
    Walks.read hu 0 rfl hclause'
  obtain ⟨evs₉, hchildren'⟩ := Reading.exists_walks hclauses' htoken'
  have hvalues : (Reduction.ofSlots m 3 slots₀).values =
      [z.value, Value.ofToken t, x.value] := halike₀.values_ofSlots m m' 3
  have hvalues' : (Reduction.ofSlots m' 3 (x :: ⟨0, Value.ofToken u, u.span⟩ :: z ::
      below)).values = [z.value, Value.ofToken u, x.value] := rfl
  obtain ⟨s₂', hverdict', habreast'⟩ := habreast₀.slashed hi hvalues hvalues'
    (handles_ofToken t) (handles_ofToken u) hverdict
  have hcompleted : AlikeAt Category.lotCompList.symbol
      ⟨j, v, (Reduction.ofSlots m 3 slots₀).span⟩ ⟨0, v, (Reduction.ofSlots m' 3
        ([x] ++ ⟨0, Value.ofToken t, t.span⟩ :: z :: below)).span⟩ :=
    halike₀.completed hp hy m m' j 0 v
  rw [Walks.span_ofSlots_congr m' m' 3 (hspans [x])] at hcompleted
  obtain ⟨evs₁, slots₁', s₁', hwalks, halike, habreast⟩ :=
    ihr hrest (.cons hcompleted hslots) hxs.tail habreast'
  refine ⟨_, slots₁', s₁', .node 0 hchildren' hverdict' hwalks, ?_, ?_⟩
  · rw [List.reverse_cons, List.append_assoc]
    exact halike
  · have hn : a + n₁ + n₂ + n₃ = a + (n₁ + n₂ + n₃) := by omega
    have hk : b + k₁ + k₂ + 1 + k₃ = b + (k₁ + k₂ + k₃ + 1) := by omega
    rwa [hn, hk] at habreast

end Retraces

/-- The walk along a restyled reading comes to the same as the walk along the reading. -/
theorem Restyled.walks (hi : i.Heedless same) {T T' : Reading xs} (h : Restyled n k T T') :
    Retraces i ctx same n k T T' := by
  induction h with
  | nil => exact .nil
  | token t ht _ ih => exact .token ht ih
  | expr e he _ ih => exact .expr hi e he ih
  | phrase _ _ ihc ihr => exact .phrase hi ihc ihr
  | comment ht hu _ ih => exact .comment ht hu ih
  | pipe ht _ _ ihf ihr => exact .pipe hi ht ihf ihr
  | slash ht hu hspan _ _ _ ihl ihc ihr => exact .slash hi ht hu hspan ihl ihc ihr

end Walks

end Language

end PlainLedger
