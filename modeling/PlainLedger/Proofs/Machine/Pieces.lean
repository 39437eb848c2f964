import PlainLedger.Proofs.Machine.Viable

/-!
# The pieces of text on the stack

The record of a run tells which pieces of the text each slot of the stack stands for: tokens,
skipped text, and the places where a rule without symbols was completed. What holds of each slot, of
what it stands for and of the slots below it, is kept by a run if reading a token, going on after
skipped text and completing a rule keep it.
-/

namespace PlainLedger

variable {α V σ : Type}

/-- A piece of what a slot stands for. -/
inductive Piece where
  | token (t : Token)
  | skipped (span : Span)
  /-- A rule without symbols was completed here. -/
  | nothing
  deriving DecidableEq, Repr

namespace Piece

def token? : Piece → Option Token
  | token t => some t
  | _ => none

def isSkipped : Piece → Bool
  | skipped _ => true
  | _ => false

end Piece

/-- The pieces of a completed rule, in source order, from those of the slots, topmost first. -/
def Reduction.pieces (red : Reduction V) (pss : List (List Piece)) : List Piece :=
  match red.values.length with
  | 0 => [.nothing]
  | n + 1 => (pss.take (n + 1)).reverse.flatten

/-- What an event makes of the pieces that the slots stand for, topmost first. -/
def Event.arrange : Event V → List (List Piece) → List (List Piece)
  | .shift t _, pss => [.token t] :: pss
  | .reduce red (.value _), pss => red.pieces pss :: pss.drop red.values.length
  | .reduce red _, pss => pss.drop red.values.length
  | .pop _, pss => pss.tail
  | .resume _ span, pss => [.skipped span] :: pss
  | _, pss => pss

/-- The pieces that the slots stand for after the events. The bottom stands for none. -/
def pieces (evs : List (Event V)) : List (List Piece) :=
  evs.foldl (fun pss ev ↦ ev.arrange pss) [[]]

theorem pieces_concat (evs : List (Event V)) (ev : Event V) :
    pieces (evs ++ [ev]) = ev.arrange (pieces evs) := by
  rw [pieces, List.foldl_append]
  rfl

/-- Each event, with the pieces that the slots stand for when it comes. -/
def history (evs : List (Event V)) : List (List (List Piece) × Event V) :=
  evs.zipIdx.map fun ev ↦ (pieces (evs.take ev.2), ev.1)

theorem history_concat (evs : List (Event V)) (ev : Event V) :
    history (evs ++ [ev]) = history evs ++ [(pieces evs, ev)] := by
  unfold history
  rw [List.zipIdx_append, List.map_append]
  congr 1
  · refine List.map_congr_left fun x hx ↦ ?_
    have hle : x.2 ≤ evs.length := by
      have := (List.mem_zipIdx hx).2.1
      omega
    rw [List.take_append_of_le_length hle]
  · simp

theorem filterMap_history_concat {β : Type} (f : List (List Piece) × Event V → Option β)
    (evs : List (Event V)) (ev : Event V) :
    (history (evs ++ [ev])).filterMap f =
      (history evs).filterMap f ++ (f (pieces evs, ev)).toList := by
  rw [history_concat, List.filterMap_append]
  cases h : f (pieces evs, ev) <;> simp [h]

theorem mem_history {evs : List (Event V)} {pss : List (List Piece)} {ev : Event V} :
    (pss, ev) ∈ history evs ↔ ∃ before after, evs = before ++ ev :: after ∧
      pss = pieces before := by
  induction evs using List.reverseRecOn with
  | nil => simp [history]
  | append_singleton evs last ih =>
    rw [history_concat, List.mem_append, ih, List.mem_singleton]
    constructor
    · rintro (⟨before, after, rfl, rfl⟩ | heq)
      · exact ⟨before, after ++ [last], by simp, rfl⟩
      · cases heq
        exact ⟨evs, [], rfl, rfl⟩
    · rintro ⟨before, after, heq, rfl⟩
      rcases List.eq_nil_or_concat after with rfl | ⟨after, z, rfl⟩
      · obtain ⟨rfl, hlast⟩ := List.append_inj' heq rfl
        cases hlast
        exact Or.inr rfl
      · rw [List.concat_eq_append, ← List.cons_append, ← List.append_assoc] at heq
        obtain ⟨rfl, -⟩ := List.append_inj' heq rfl
        exact Or.inl ⟨before, after, rfl, rfl⟩

theorem map_snd_history (evs : List (Event V)) : (history evs).map Prod.snd = evs := by
  rw [history, List.map_map]
  exact List.zipIdx_map_fst 0 evs

/-- What is read off each event and the pieces before it, where the event alone tells it. -/
theorem filterMap_history {β : Type} {evs : List (Event V)}
    {f : List (List Piece) × Event V → Option β} {f' : Event V → Option β}
    (h : ∀ pss ev, (pss, ev) ∈ history evs → f (pss, ev) = f' ev) :
    (history evs).filterMap f = evs.filterMap f' := by
  rw [List.filterMap_congr fun x hx ↦ h x.1 x.2 hx]
  conv_rhs => rw [← map_snd_history evs, List.filterMap_map]
  rfl

/-! ## Stacks of pieces -/

/-- The slots spell the symbols and stand for the pieces; `T` says of each slot above the bottom
what holds of its symbol, the slots below it, itself and its pieces. -/
inductive Pieced (g : Grammar α) (T : Symbol → List (Slot V) → Slot V → List Piece → Prop) :
    List (Slot V) → List Symbol → List (List Piece) → Prop where
  | bottom {x : Slot V} (hx : x.state = 0) : Pieced g T [x] [] [[]]
  | push {x y : Slot V} {slots : List (Slot V)} {X : Symbol} {xs : List Symbol} {ps : List Piece}
      {pss : List (List Piece)} (h : Pieced g T (y :: slots) xs pss)
      (he : g.Edge y.state X x.state) (hx : T X (y :: slots) x ps) :
      Pieced g T (x :: y :: slots) (X :: xs) (ps :: pss)

namespace Pieced

variable {g : Grammar α} {T : Symbol → List (Slot V) → Slot V → List Piece → Prop}
  {slots : List (Slot V)} {xs : List Symbol} {pss : List (List Piece)}

theorem spelled (h : Pieced g T slots xs pss) : Spelled g (fun _ _ ↦ True) slots xs := by
  induction h with
  | bottom hx => exact .bottom hx
  | push _ he _ ih => exact .push ih he trivial

theorem mono {T' : Symbol → List (Slot V) → Slot V → List Piece → Prop}
    (h : Pieced g T slots xs pss) (hT : ∀ X below x ps, T X below x ps → T' X below x ps) :
    Pieced g T' slots xs pss := by
  induction h with
  | bottom hx => exact .bottom hx
  | push _ he hx ih => exact .push ih he (hT _ _ _ _ hx)

theorem drop (h : Pieced g T slots xs pss) {d : Nat} (hd : d ≤ xs.length) :
    Pieced g T (slots.drop d) (xs.drop d) (pss.drop d) := by
  induction h generalizing d with
  | bottom hx =>
    cases Nat.le_zero.mp hd
    exact .bottom hx
  | push h he hx ih =>
    cases d with
    | zero => exact .push h he hx
    | succ d => exact ih (Nat.le_of_succ_le_succ hd)

/-- What holds of the pieces of each slot. -/
theorem forall₂_take {Q : Symbol → List Piece → Prop} (h : Pieced g T slots xs pss)
    (hQ : ∀ X below x ps, T X below x ps → Q X ps) {d : Nat} (hd : d ≤ xs.length) :
    List.Forall₂ Q (xs.take d) (pss.take d) := by
  induction h generalizing d with
  | bottom =>
    cases Nat.le_zero.mp hd
    exact .nil
  | push _ _ hx ih =>
    cases d with
    | zero => exact .nil
    | succ d => exact .cons (hQ _ _ _ _ hx) (ih (Nat.le_of_succ_le_succ hd))

/-- A completed rule is what its slots stand for. -/
theorem complete {x y : Slot V} {rest below : List (Slot V)} {k n : Nat} {p : Rule α} {v : V}
    {span : Span} {ps : List Piece} (h : Pieced g T (x :: rest) xs pss)
    (hrule : g.rules[k]? = some p) (hhas : g.Has x.state ⟨k, p.rhs.length⟩)
    (hbelow : (x :: rest).drop p.rhs.length = y :: below)
    (hedge : g.Edge y.state (.nonterminal p.lhs) n)
    (hT : T (.nonterminal p.lhs) (y :: below) ⟨n, v, span⟩ ps) :
    Pieced g T (⟨n, v, span⟩ :: y :: below) (.nonterminal p.lhs :: xs.drop p.rhs.length)
      (ps :: pss.drop p.rhs.length) := by
  have hdrop := h.drop (h.spelled.reduce hrule hhas).1
  rw [hbelow] at hdrop
  exact .push hdrop hedge hT

end Pieced

/-- There is a value for each symbol of a completed rule. -/
theorem length_values_ofSlots (k : Nat) {d : Nat} {slots : List (Slot V)} (hd : d ≤ slots.length) :
    (Reduction.ofSlots k d slots).values.length = d := by
  simp [Reduction.ofSlots, hd]

section Parts

variable {g : Grammar α} {T : Symbol → List (Slot V) → Slot V → List Piece → Prop} {x : Slot V}
  {rest : List (Slot V)} {xs : List Symbol} {pss : List (List Piece)} {X Y : Symbol}

/-- The only symbol of a completed rule. -/
theorem Pieced.of_take_one (h : Pieced g T (x :: rest) xs pss) (k : Nat)
    (htake : (xs.take 1).reverse = [X]) :
    ∃ ps, (Reduction.ofSlots k 1 (x :: rest)).pieces pss = ps ∧ T X rest x ps := by
  cases h with
  | bottom => cases htake
  | push h he hx =>
    cases htake
    exact ⟨_, List.append_nil _, hx⟩

/-- The two symbols of a completed rule. -/
theorem Pieced.of_take_two (h : Pieced g T (x :: rest) xs pss) (k : Nat)
    (htake : (xs.take 2).reverse = [X, Y]) :
    ∃ y below ps qs, rest = y :: below ∧
      (Reduction.ofSlots k 2 (x :: rest)).pieces pss = ps ++ qs ∧ T X below y ps ∧
      T Y (y :: below) x qs := by
  cases h with
  | bottom => cases htake
  | push h _ hx =>
    cases h with
    | bottom => cases htake
    | push _ _ hy =>
      cases htake
      exact ⟨_, _, _, _, rfl, by simp [Reduction.pieces, Reduction.ofSlots], hy, hx⟩

end Parts

section Does

variable {e : Engine α} {r : Reducer α V σ} {slots slots' : List (Slot V)} {m₀ m m' : σ}
  {ev : Event V} {evs : List (Event V)} {xs : List Symbol} {pss : List (List Piece)}
  {T : Symbol → List (Slot V) → Slot V → List Piece → Prop}

/-- What holds of each slot is kept by an event, if it holds of a slot that is put on the stack. -/
theorem Does.pieced (h : Does e r slots m ev slots' m') (hs : Pieced e.grammar T slots xs pss)
    (hshift : ∀ t n v, ev = .shift t v → r.ofToken t m = (v, m') →
      T (.terminal t.kind) slots ⟨n, v, t.span⟩ [.token t])
    (hresume : ∀ n span, ev = .resume n span →
      T (.terminal .error) slots ⟨n, r.blank, span⟩ [.skipped span])
    (hreduce : ∀ {x rest k} {p : Rule α} {y below n v}, slots = x :: rest →
      e.grammar.rules[k]? = some p → e.grammar.Has x.state ⟨k, p.rhs.length⟩ →
      (x :: rest).drop p.rhs.length = y :: below → e.grammar.Edge y.state (.nonterminal p.lhs) n →
      r.reduce p.action (.ofSlots k p.rhs.length (x :: rest)) m = (.value v, m') →
      T (.nonterminal p.lhs) (y :: below)
        ⟨n, v, (Reduction.ofSlots k p.rhs.length (x :: rest)).span⟩
        ((Reduction.ofSlots k p.rhs.length (x :: rest)).pieces pss)) :
    ∃ xs', Pieced e.grammar T slots' xs' (ev.arrange pss) := by
  cases h with
  | pull | report | discard => exact ⟨xs, hs⟩
  | shift hedge hvalue => exact ⟨_, hs.push hedge (hshift _ _ _ rfl hvalue)⟩
  | resume hedge => exact ⟨_, hs.push hedge (hresume _ _ rfl)⟩
  | pop =>
    cases hs with
    | push hs' _ _ => exact ⟨_, hs'⟩
  | @reduce x _ rest _ _ _ k _ p _ hrule hhas hbelow hedge hverdict =>
    have hle := (hs.spelled.reduce hrule hhas).1
    have hlen := hs.spelled.length_eq
    have hvalues := length_values_ofSlots k (show p.rhs.length ≤ (x :: rest).length by omega)
    have hnew := hs.complete hrule hhas hbelow hedge (hreduce rfl hrule hhas hbelow hedge hverdict)
    rw [Event.arrange, hvalues]
    exact ⟨_, hnew⟩
  | @reject x _ rest _ _ _ k p _ hrule hhas hbelow hverdict =>
    have hle := (hs.spelled.reduce hrule hhas).1
    have hlen := hs.spelled.length_eq
    have hvalues := length_values_ofSlots k (show p.rhs.length ≤ (x :: rest).length by omega)
    have hdrop := hs.drop hle
    rw [hbelow] at hdrop
    rw [Event.arrange, hvalues]
    · exact ⟨_, hdrop⟩
    · exact nofun

end Does

/-! ## Events of a record -/

section Completed

variable {e : Engine α} {r : Reducer α V σ} {m₀ m : σ} {evs before after : List (Event V)}
  {slots : List (Slot V)} {ev : Event V}

/-- Each event of a record was carried out after those before it. -/
theorem Trace.exists_of_append (h : Trace e r m₀ (before ++ ev :: after) slots m) :
    ∃ slots₁ m₁ slots₂ m₂, Trace e r m₀ before slots₁ m₁ ∧ Does e r slots₁ m₁ ev slots₂ m₂ := by
  induction after using List.reverseRecOn generalizing slots m with
  | nil =>
    obtain ⟨slots₁, m₁, htrace, hev⟩ := h.exists_does
    exact ⟨slots₁, m₁, slots, m, htrace, hev⟩
  | append_singleton after last ih =>
    rw [← List.cons_append, ← List.append_assoc] at h
    obtain ⟨slots', m', htrace, -⟩ := h.exists_does
    exact ih htrace

/-- After the events `before`, the rule was completed with this verdict. -/
def Completed (e : Engine α) (r : Reducer α V σ) (m₀ : σ) (before : List (Event V))
    (red : Reduction V) (verdict : Verdict V) : Prop :=
  ∃ x rest m m' k p, Trace e r m₀ before (x :: rest) m ∧ e.grammar.rules[k]? = some p ∧
    e.grammar.Has x.state ⟨k, p.rhs.length⟩ ∧ red = .ofSlots k p.rhs.length (x :: rest) ∧
    r.reduce p.action red m = (verdict, m')

theorem Does.completed {slots' : List (Slot V)} {m' : σ} {red : Reduction V} {verdict : Verdict V}
    (h : Trace e r m₀ before slots m) (hev : Does e r slots m (.reduce red verdict) slots' m') :
    Completed e r m₀ before red verdict := by
  generalize hreduce : Event.reduce red verdict = ev at hev
  cases hev with
  | reduce hrule hhas _ _ hverdict =>
    cases hreduce
    exact ⟨_, _, m, _, _, _, h, hrule, hhas, rfl, hverdict⟩
  | reject hrule hhas _ hverdict =>
    cases hreduce
    exact ⟨_, _, m, _, _, _, h, hrule, hhas, rfl, hverdict⟩
  | pull | report | discard | shift | pop | resume => cases hreduce

theorem Trace.completed {red : Reduction V} {verdict : Verdict V}
    (h : Trace e r m₀ (before ++ .reduce red verdict :: after) slots m) :
    Completed e r m₀ before red verdict := by
  obtain ⟨slots₁, m₁, slots₂, m₂, htrace, hev⟩ := h.exists_of_append
  exact hev.completed htrace

/-- A rule that is completed last, or before. -/
theorem completed_of_concat {last : Event V} {red : Reduction V} {verdict : Verdict V}
    (htrace : Trace e r m₀ evs slots m)
    (hlast : ∀ red verdict, last = .reduce red verdict → Completed e r m₀ evs red verdict)
    (heq : evs ++ [last] = before ++ .reduce red verdict :: after) :
    Completed e r m₀ before red verdict := by
  rcases List.eq_nil_or_concat after with rfl | ⟨after, z, rfl⟩
  · obtain ⟨rfl, hev⟩ := List.append_inj' heq rfl
    cases hev
    exact hlast _ _ rfl
  · rw [List.concat_eq_append, ← List.cons_append, ← List.append_assoc] at heq
    obtain ⟨rfl, -⟩ := List.append_inj' heq rfl
    exact htrace.completed

theorem Stopped.completed {cause : Abort} {red : Reduction V} {verdict : Verdict V}
    (h : Stopped e r m₀ cause evs slots m) (heq : evs = before ++ .reduce red verdict :: after) :
    Completed e r m₀ before red verdict := by
  cases h with
  | start => simp at heq
  | unrecoverable _ _ h =>
    subst heq
    exact h.completed
  | fatal h hrule hhas hverdict =>
    refine completed_of_concat h ?_ heq
    rintro _ _ ⟨⟩
    exact ⟨_, _, _, _, _, _, h, hrule, hhas, rfl, hverdict⟩
  | overflow _ h hev _ =>
    refine completed_of_concat h ?_ heq
    rintro _ _ rfl
    exact hev.completed h

/-- Each completed rule in the record of a run was completed after the events before it. -/
theorem Engine.completed_run (hg : e.tables = e.grammar.tables) {budget : Nat} {input : List Token}
    {red : Reduction V} {verdict : Verdict V}
    (h : (e.run r budget input m).2.log.toList = before ++ .reduce red verdict :: after) :
    Completed e r m before red verdict := by
  have hends := e.continues_steps (r := r) hg budget input m
  unfold Engine.run at h
  generalize e.steps r budget (e.start r input m) = s at h hends
  cases s with
  | running c =>
    have htrace : Trace e r m c.log.toList c.stack.slots c.memory := hends
    rw [show c.log.toList = _ from h] at htrace
    exact htrace.completed
  | accepted v c =>
    obtain ⟨x, y, htrace, -⟩ := hends
    rw [show c.log.toList = _ from (congrArg Array.toList (Engine.log_clear c)).symm.trans h]
      at htrace
    exact htrace.completed
  | aborted cause c =>
    have hlog : ((Engine.clear r c).log.push (.report (Config.diagnostic e .fatal
        ((Engine.clear r c).currentLine e) cause.message))).toList = _ := h
    rw [Array.toList_push, Engine.log_clear] at hlog
    rcases List.eq_nil_or_concat after with rfl | ⟨after, z, rfl⟩
    · obtain ⟨-, hlast⟩ := List.append_inj' hlog rfl
      cases hlast
    · rw [List.concat_eq_append, ← List.cons_append, ← List.append_assoc] at hlog
      exact Stopped.completed hends (List.append_inj' hlog rfl).1

end Completed

end PlainLedger
