import PlainLedger.Proofs.Language.Lines
import PlainLedger.Proofs.Language.Outline
import PlainLedger.Proofs.Machine.Beside
import PlainLedger.Transcript

/-!
# Texts and their neighbours

A text that comes after others is read as if it stood alone. The list of declarations that it goes
on with holds the entries of the texts before it, and the requests and the diagnostics of those come
first; in everything else the two runs are the same. So a text of whole lines adds what it adds
alone, whatever stands before it and whatever follows.
-/

namespace PlainLedger.Language

open Transcript (Refusal)

variable {H ε σ ω : Type}

/-! ## Requests -/

/-- Something is asked for. -/
def Exchange.isRequest : Exchange H ε → Bool
  | construct _ _ => true
  | declare _ _ => true
  | _ => false

namespace Session

/-- What has been asked for, in order. -/
def requests (s : Session (σ × List (Exchange H ε))) : List (Exchange H ε) :=
  s.record.filter Exchange.isRequest

/-- The second session is the first one after the requests and the diagnostics of others, and there
are diagnostics that only the second one has been told since. -/
structure Follows (xs : List (Exchange H ε)) (ds more : List Diagnostic)
    (s s' : Session (σ × List (Exchange H ε))) : Prop where
  requests : s'.requests = xs ++ s.requests
  diagnostics : s'.diagnostics.toList = ds ++ s.diagnostics.toList ++ more

end Session

/-- Every request is granted, and the objects are what `make` makes of the requests. -/
def Interpretation.granting (make : Construction H → H) :
    Interpretation H Refusal Unit (List H) where
  construct c s := (.ok (make c), s)
  declare _ s := (.ok (), s)
  report _ s := s
  release _ s := s
  finish entries s := (entries, s)
  message := Refusal.message

/-- What is remembered of requests that are all granted. -/
abbrev Granted (H : Type) : Type := Session (Unit × List (Exchange H Refusal))

/-- What is made of the phrases of a ledger when every request is granted. -/
abbrev granter (make : Construction H → H) (ctx : Context) :
    Reducer Production (Value H) (Granted H) :=
  reducer (Interpretation.granting make).watched ctx

theorem accepting_granting (make : Construction H → H) :
    (Interpretation.granting make).Accepting where
  construct c s := ⟨make c, s, rfl⟩
  declare _ s := ⟨s, rfl⟩

section Granting

variable {make : Construction H → H} {ctx : Context} {options : Options}
  {xs : List (Exchange H Refusal)} {ds more : List Diagnostic}
  {s s' : Granted H}

theorem requests_report (make : Construction H → H) (d : Diagnostic)
    (s : Granted H) :
    (s.report (Interpretation.granting make).watched d).requests = s.requests := by
  change (s.record ++ [Exchange.report d]).filter Exchange.isRequest = _
  rw [List.filter_append]
  exact List.append_nil _

theorem Session.Follows.report (h : Session.Follows xs ds [] s s') (d : Diagnostic) :
    Session.Follows xs ds [] (s.report (Interpretation.granting make).watched d)
      (s'.report (Interpretation.granting make).watched d) where
  requests := by rw [requests_report, requests_report, h.requests]
  diagnostics := by
    have hdiagnostics := h.diagnostics
    rw [List.append_nil] at hdiagnostics ⊢
    change (Array.push _ d).toList = ds ++ (Array.push _ d).toList
    rw [Array.toList_push, Array.toList_push, hdiagnostics, List.append_assoc]

/-- Only the second one is told. -/
theorem Session.Follows.tell (h : Session.Follows xs ds more s s') (d : Diagnostic) :
    Session.Follows xs ds (more ++ [d]) s (s'.report (Interpretation.granting make).watched d) where
  requests := by rw [requests_report, h.requests]
  diagnostics := by
    change (Array.push _ d).toList = _
    rw [Array.toList_push, h.diagnostics, List.append_assoc]

/-- Both have asked for the same. -/
theorem Session.Follows.ask (h : Session.Follows xs ds more s s') (x : Exchange H Refusal)
    {t t' : Granted H} (ht : t.record = s.record ++ [x])
    (ht' : t'.record = s'.record ++ [x]) (hd : t.diagnostics = s.diagnostics)
    (hd' : t'.diagnostics = s'.diagnostics) : Session.Follows xs ds more t t' where
  requests := by
    have hrequests := h.requests
    unfold Session.requests at hrequests ⊢
    rw [ht, ht', List.filter_append, List.filter_append, hrequests, List.append_assoc]
  diagnostics := by rw [hd, hd', h.diagnostics]

theorem releaseAll_granting (hs : List H) (s : Granted H) :
    s.releaseAll (Interpretation.granting make).watched hs = s := by
  unfold Session.releaseAll
  induction hs with
  | nil => rfl
  | cons h hs ih => exact ih

theorem echoes_granting (make : Construction H → H) :
    (granter make ctx).Echoes (Session.Follows xs ds []) where
  report d h := h.report d
  release v w h := by
    change Session.Follows xs ds [] (Session.releaseAll _ _ _) (Session.releaseAll _ _ _)
    rwa [releaseAll_granting, releaseAll_granting]
  value _ _ := rfl
  token _ h := h

theorem Session.Follows.perform (h : Session.Follows xs ds more s s') (origin : Provenance)
    {plan : Plan H} (hmore : more = [] ∨ plan.Quiet) :
    ∃ v t t', s.perform (Interpretation.granting make).watched origin plan = (.value v, t) ∧
      s'.perform (Interpretation.granting make).watched origin plan = (.value v, t') ∧
      Session.Follows xs ds more t t' := by
  cases plan with
  | keep v => exact ⟨v, s, s', rfl, rfl, h⟩
  | warn message v =>
    obtain rfl : more = [] := hmore.resolve_right id
    exact ⟨v, _, _, rfl, rfl, h.report _⟩
  | construct c =>
    exact ⟨.handle (make c), _, _, rfl, rfl, h.ask (.construct c (.ok (make c))) rfl rfl rfl rfl⟩
  | measure c tolerance? =>
    exact ⟨.pair (make c) tolerance?, _, _, rfl, rfl,
      h.ask (.construct c (.ok (make c))) rfl rfl rfl rfl⟩
  | declare d => exact ⟨.nothing, _, _, rfl, rfl, h.ask (.declare d (.ok ())) rfl rfl rfl rfl⟩

/-- The same phrase comes to the same, whatever has been said before. -/
theorem Session.Follows.reduce (h : Session.Follows xs ds more s s') (make : Construction H → H)
    (ctx : Context) (p : Production) (red red' : Reduction (Value H)) (hrule : red'.rule = red.rule)
    (hspan : red'.span = red.span)
    (hvalues : red'.values = red.values) (hflag : txnFlag? p red'.below = txnFlag? p red.below)
    (hmore : more = [] ∨ p.warns = false) :
    (∃ v t t', (granter make ctx).reduce p red s = (.value v, t) ∧
        (granter make ctx).reduce p red' s' = (.value v, t') ∧
        Session.Follows xs ds more t t') ∨
      ∃ cause t t',
        (granter make ctx).reduce p red s = (.fatal cause, t) ∧
        (granter make ctx).reduce p red' s' = (.fatal cause, t') := by
  unfold granter reducer
  dsimp only
  rw [hrule, hspan, hvalues, hflag]
  cases hrun : (p.plan (ctx.provenance red.span) (txnFlag? p red.below)).run
      { pending := red.values } with
  | error misfit => exact Or.inr ⟨_, _, _, rfl, rfl⟩
  | ok out =>
    obtain ⟨plan, args⟩ := out
    dsimp only
    rw [releaseAll_granting, releaseAll_granting]
    exact Or.inl (h.perform _ (hmore.imp_right fun hp ↦ returns_quiet hp _ _ _ _ _ hrun))

end Granting

/-! ## The list of declarations -/

/-- The second slot holds the list of declarations of the first one, after other entries. -/
def Extends (es : List H) (x y : Slot (Value H)) : Prop :=
  x.state = between ∧ y.state = between ∧ ∃ hs, x.value = .list hs ∧ y.value = .list (es ++ hs)

/-- No token is read or used up. -/
structure Still {V : Type} (c c' : Config V σ) : Prop where
  ahead : c'.ahead? = c.ahead?
  input : c'.input = c.input
  exhausted : c'.exhausted = c.exhausted
  lastSpan : c'.lastSpan = c.lastSpan

theorem Still.pending {V : Type} {c c' : Config V σ} (h : Still c c') : c'.pending = c.pending := by
  unfold Config.pending
  rw [h.ahead, h.input, h.exhausted]

section Frames

variable {es : List H} {above : List (Slot (Value H))} {x y b : Slot (Value H)}

/-- The flag of a transaction is not looked for in the list of declarations. -/
theorem txnFlag?_extends (h : Extends es x y) (p : Production) (above : List (Slot (Value H)))
    (b : Slot (Value H)) : txnFlag? p (above ++ [y, b]) = txnFlag? p (above ++ [x, b]) := by
  obtain ⟨-, -, hs, hx, hy⟩ := h
  unfold txnFlag?
  split
  · rcases Nat.lt_trichotomy 3 above.length with hlt | heq | hgt
    · rw [List.getElem?_append_left hlt, List.getElem?_append_left hlt]
    · rw [List.getElem?_append_right heq.ge, List.getElem?_append_right heq.ge, ← heq, Nat.sub_self]
      obtain ⟨state, value, span⟩ := x
      obtain ⟨state', value', span'⟩ := y
      cases hx
      cases hy
      rfl
    · rw [List.getElem?_append_right hgt.le, List.getElem?_append_right hgt.le]
      obtain ⟨n, hn⟩ := Nat.exists_eq_succ_of_ne_zero (Nat.sub_ne_zero_of_lt hgt)
      rw [hn]
      rfl
  · rfl

/-- A rule that is completed above the list of declarations finds the same on both stacks. -/
theorem ofSlots_extends (h : Extends es x y) {n : Nat} (hn : n ≤ above.length)
    (hpositive : n = 0 → above ≠ []) (k : Nat) (p : Production) :
    (Reduction.ofSlots k n (above ++ [y, b])).span =
    (Reduction.ofSlots k n (above ++ [x, b])).span ∧
      (Reduction.ofSlots k n (above ++ [y, b])).values =
        (Reduction.ofSlots k n (above ++ [x, b])).values ∧
      txnFlag? p (Reduction.ofSlots k n (above ++ [y, b])).below =
        txnFlag? p (Reduction.ofSlots k n (above ++ [x, b])).below := by
  unfold Reduction.ofSlots
  dsimp only
  rw [List.take_append_of_le_length hn, List.take_append_of_le_length hn,
    List.drop_append_of_le_length hn, List.drop_append_of_le_length hn]
  refine ⟨?_, rfl, txnFlag?_extends h p _ b⟩
  cases n with
  | zero =>
    obtain ⟨z, zs, rfl⟩ := List.exists_cons_of_ne_nil (hpositive rfl)
    rfl
  | succ n =>
    obtain ⟨z, zs, rfl⟩ := List.exists_cons_of_ne_nil
      (List.ne_nil_of_length_pos (Nat.zero_lt_of_lt hn))
    have hne : (((z :: zs).take (n + 1)).reverse.map Slot.span) ≠ [] := by simp
    obtain ⟨first, spans, hspans⟩ := List.exists_cons_of_ne_nil hne
    rw [hspans]
    unfold Config.reductionSpan
    rw [List.head?_cons, List.getLast?_cons]

/-- A declaration is put to the list, on both stacks. -/
theorem reduce_gathers (make : Construction H → H) (ctx : Context) {p : Rule Production} {k : Nat}
    (hrule : grammar.rules[k]? = some p) (hlhs : p.lhs = Category.declarations.index)
    (hrhs : Category.declarations.symbol ∈ p.rhs) (h : Extends es x y) (w : Slot (Value H))
    (s s' : Granted H) :
    p.rhs.length = 2 ∧
      ((∃ hs,
          (granter make ctx).reduce p.action
              (.ofSlots k 2 [w, x, b]) s = (.value (.list hs), s) ∧
            (granter make ctx).reduce p.action
              (.ofSlots k 2 [w, y, b]) s' = (.value (.list (es ++ hs)), s')) ∨
        ∃ cause,
          (granter make ctx).reduce p.action
              (.ofSlots k 2 [w, x, b]) s = (.fatal cause, s) ∧
            (granter make ctx).reduce p.action
              (.ofSlots k 2 [w, y, b]) s' = (.fatal cause, s')) := by
  obtain ⟨-, -, hs, hx, hy⟩ := h
  have hred : ∀ z : Slot (Value H), Reduction.ofSlots k 2 [w, z, b] =
      ⟨k, Span.cover z.span w.span, [z.value, w.value], [z.span, w.span], [b]⟩ := fun _ ↦ rfl
  rw [hred, hred, hx, hy]
  have hgathers := (declarationRule hrule).declarations_mem
  rcases hgathers hrhs with ⟨-, hfile, -⟩ | ⟨-, ⟨haction, hsymbols⟩ | ⟨haction, hsymbols⟩ |
    ⟨haction, hsymbols⟩⟩
  · exact absurd (hfile.symm.trans hlhs) (by decide)
  · rw [haction, hsymbols]
    refine ⟨rfl, Or.inl ⟨hs, ?_, ?_⟩⟩ <;>
      exact congrArg (Prod.mk _) (releaseAll_granting _ _)
  · rw [haction, hsymbols]
    refine ⟨rfl, ?_⟩
    obtain ⟨state, value, span⟩ := w
    cases value with
    | handle a =>
      refine Or.inl ⟨hs ++ [a], ?_, ?_⟩
      · exact congrArg (Prod.mk _) (releaseAll_granting _ _)
      · rw [← List.append_assoc]
        exact congrArg (Prod.mk _) (releaseAll_granting _ _)
    | _ =>
      exact Or.inr ⟨_, congrArg (Prod.mk _) (releaseAll_granting _ _),
        congrArg (Prod.mk _) (releaseAll_granting _ _)⟩
  · rw [haction, hsymbols]
    refine ⟨rfl, Or.inl ⟨hs, ?_, ?_⟩⟩ <;>
      exact congrArg (Prod.mk _) (releaseAll_granting _ _)

end Frames

/-! ## Steps side by side -/

section Steps

variable {make : Construction H → H} {ctx : Context} {options : Options} {es : List H}
  {xs : List (Exchange H Refusal)} {ds more : List Diagnostic} {more' : List Token} {P : Prop}
  {s₀ : Stack (Value H)} {c d : Config (Value H) (Granted H)}
  {ys : List Symbol} {z : Slot (Value H)} {rest : List (Slot (Value H))} {row : Row}
  {t : Terminal} {k : Nat} {p : Rule Production}

/-- What stands above the list of declarations, and what it is spelled by. -/
theorem spelled_above (ctx : Context) (options : Options) {T : Symbol → Value H → Prop}
    {above : List (Slot (Value H))}
    {x b : Slot (Value H)} (hs : Spelled grammar T (above ++ [x, b]) ys) (hx : x.state = between) :
    ys.length = above.length + 1 ∧ ys.drop above.length = [Category.declarations.symbol] ∧
      ∀ w ∈ above, (engine ctx options).errorShift? w.state = none := by
  have hlength := hs.length_eq
  rw [List.length_append, List.length_cons, List.length_singleton] at hlength
  obtain ⟨-, -, hdrop⟩ := below_between hs.of_append hx
  refine ⟨by omega, hdrop, fun w hw ↦ ?_⟩
  by_contra hne
  obtain ⟨n, hn⟩ := Option.ne_none_iff_exists'.mp hne
  have hedge : grammar.Edge w.state (.terminal .error) n :=
    Config.edge_of_errorShift? tables_engine hn
  obtain ⟨above₁, above₂, rfl⟩ := List.append_of_mem hw
  rw [List.append_assoc, List.cons_append] at hs
  obtain ⟨bottom, hbottom, -⟩ := below_between hs.of_append (edge_error hedge).1
  have hlen := congrArg List.length hbottom
  simp at hlen

/-- Both machines complete a rule, which is not that of a whole ledger. -/
theorem Beside.reduce {Q : Prop} (make : Construction H → H) (ctx : Context) (options : Options)
    (h : Beside (Extends es) (Session.Follows xs ds more) P s₀ c d)
    (hs : Spelled grammar (fun _ _ ↦ True) c.stack.slots ys) (hslots : c.stack.slots = z :: rest)
    (hrow : tables.row? z.state = some row) (hdecide : row.decide t = some (.reduce k))
    (hrule : grammar.rules[k]? = some p) (hfile : p.lhs ≠ Category.file.index)
    (hmore : more = [] ∨ p.action.warns = false) :
    Step.Along (fun c' d' ↦ Beside (Extends es) (Session.Follows xs ds more) P s₀ c' d' ∧
        Still c c' ∧ Still d d') Q
      (c.reduce (engine ctx options) (granter make ctx) k)
      (d.reduce (engine ctx options) (granter make ctx) k) := by
  obtain ⟨above, x, y, b, hc, hd, hxy⟩ := h.slots
  obtain ⟨p', hrule', hhas⟩ := Grammar.allows_of_decide
    (show grammar.tables.row? z.state = some row from hrow) hdecide
  cases Option.some.inj (hrule.symm.trans hrule')
  have hspelled := hs
  rw [hslots] at hs
  obtain ⟨hle, htake, -, y₀, below, hbelow, hpredicted, hs'⟩ := hs.reduce hrule hhas
  obtain ⟨n, hedge⟩ := Grammar.exists_goto hpredicted hrule
  rw [hc] at hspelled
  obtain ⟨hlength, hlast, -⟩ := spelled_above ctx options hspelled hxy.1
  obtain ⟨row₀, hrow₀⟩ : ∃ row₀, tables.row? y₀.state = some row₀ := by
    obtain ⟨S, hS, -⟩ := hedge
    exact Grammar.exists_row hS
  have hgoto : row₀.goto? p.lhs = some n := (Grammar.goto?_eq_some_iff hrow₀).mpr hedge
  have hall : above ++ [x, b] = z :: rest := hc.symm.trans hslots
  rw [← hall] at hbelow
  by_cases hn : p.rhs.length ≤ above.length
  · have hpositive : p.rhs.length = 0 → above ≠ [] := by
      rintro - rfl
      cases hall
      exact hfile (decide_between (hxy.1 ▸ hrow) hdecide hrule).2
    have hdrop : ∀ w : Slot (Value H),
        (above ++ [w, b]).drop p.rhs.length = above.drop p.rhs.length ++ [w, b] :=
      fun w ↦ List.drop_append_of_le_length hn
    obtain ⟨y₁, below', hbelow', hstate⟩ : ∃ y₁ below',
        (above ++ [y, b]).drop p.rhs.length = y₁ :: below' ∧ y₁.state = y₀.state := by
      rw [hdrop] at hbelow ⊢
      cases habove : above.drop p.rhs.length with
      | nil =>
        rw [habove] at hbelow
        cases hbelow
        exact ⟨y, [b], rfl, hxy.2.1.trans hxy.1.symm⟩
      | cons w ws =>
        rw [habove] at hbelow
        cases hbelow
        exact ⟨y₀, _, rfl, rfl⟩
    obtain ⟨hspan, hvalues, hflag⟩ := ofSlots_extends (b := b) hxy hn hpositive k p.action
    have hreduce := h.told.reduce make ctx p.action
      (Reduction.ofSlots k p.rhs.length c.stack.slots)
      (Reduction.ofSlots k p.rhs.length d.stack.slots) rfl (by rwa [hc, hd]) (by rwa [hc, hd])
      (by rwa [hc, hd]) hmore
    rcases hreduce with ⟨v, m, m', hm, hm', htold⟩ | ⟨cause, m, m', hm, hm'⟩
    · refine .reduce (e := engine ctx options) h.room hrule (hc ▸ hbelow)
        (hd ▸ hbelow') hstate hrow₀
        hgoto hm hm' fun s s' log log' hs hs' hunder hgrown ↦ ?_
      rw [hc] at hs
      rw [hd, hspan] at hs'
      refine ⟨⟨⟨⟨n, v, (Reduction.ofSlots k p.rhs.length (above ++ [x, b])).span⟩ ::
        above.drop p.rhs.length, x, y, b, ?_, ?_, hxy⟩, hunder, h.grown.trans hgrown, ?_, htold,
        h.quiet⟩, ⟨rfl, rfl, rfl, rfl⟩, ⟨rfl, rfl, rfl, rfl⟩⟩
      · rw [List.cons_append, ← hdrop, hbelow]
        exact hs
      · rw [List.cons_append, ← hdrop, hbelow']
        exact hs'
      · refine (congrArg List.getLast? hs').trans ?_
        rw [← h.bottom, hd, ← hbelow', hdrop, ← List.cons_append, List.getLast?_append,
          List.getLast?_append]
        rfl
    · rw [Config.reduce_eq (e := engine ctx options) hrule hm,
        Config.reduce_eq (e := engine ctx options) hrule hm']
      exact .aborted _ _ _
  · have hn : p.rhs.length = above.length + 1 := by omega
    have hmem : Category.declarations.symbol ∈ p.rhs := by
      rw [← htake, hn, ← hlength, List.take_length, List.mem_reverse]
      apply List.mem_of_mem_drop (i := above.length)
      rw [hlast]
      exact List.mem_singleton.mpr rfl
    have hlhs : p.lhs = Category.declarations.index := by
      have hgathers := (declarationRule hrule).declarations_mem
      rcases hgathers hmem with ⟨-, hlhs, -⟩ | ⟨hlhs, -⟩
      · exact (hfile hlhs).elim
      · exact hlhs
    obtain ⟨w, rfl⟩ : ∃ w, above = [w] := by
      obtain ⟨htwo, -⟩ := reduce_gathers make ctx (b := b) hrule hlhs hmem hxy x
        c.memory d.memory
      exact List.length_eq_one_iff.mp (by omega)
    obtain ⟨htwo, hreduce⟩ := reduce_gathers make ctx (b := b) hrule hlhs hmem hxy
      w c.memory d.memory
    have hc' : c.stack.slots.drop p.rhs.length = [b] := by
      rw [hc, htwo]
      rfl
    have hd' : d.stack.slots.drop p.rhs.length = [b] := by
      rw [hd, htwo]
      rfl
    have hred : Reduction.ofSlots k p.rhs.length c.stack.slots = .ofSlots k 2 [w, x, b] := by
      rw [hc, htwo]
      rfl
    have hred' : Reduction.ofSlots k p.rhs.length d.stack.slots = .ofSlots k 2 [w, y, b] := by
      rw [hd, htwo]
      rfl
    rw [← hred, ← hred'] at hreduce
    obtain ⟨rfl, rfl⟩ : y₀ = b ∧ below = [] := by
      rw [htwo] at hbelow
      cases hbelow
      exact ⟨rfl, rfl⟩
    obtain rfl : n = between := by
      rw [hlhs] at hedge
      exact (edge_declarations hedge).2
    rcases hreduce with ⟨hs₁, hm, hm'⟩ | ⟨cause, hm, hm'⟩
    · refine .reduce (e := engine ctx options) h.room hrule hc' hd' rfl hrow₀ hgoto
        hm hm' fun s s' log log' hs hs' hunder hgrown ↦ ?_
      refine ⟨⟨⟨[], _, _, y₀, hs, hs', ⟨rfl, rfl, hs₁, rfl, rfl⟩⟩, hunder, h.grown.trans hgrown, ?_,
        h.told, h.quiet⟩, ⟨rfl, rfl, rfl, rfl⟩, ⟨rfl, rfl, rfl, rfl⟩⟩
      refine (congrArg List.getLast? hs').trans ?_
      rw [← h.bottom, hd]
      simp
    · rw [Config.reduce_eq (e := engine ctx options) hrule hm,
        Config.reduce_eq (e := engine ctx options) hrule hm']
      exact .aborted _ _ _

/-- The topmost states are the same, and they have a row. -/
theorem Beside.exists_top (h : Beside (Extends es) (Session.Follows xs ds more) P s₀ c d)
    (hs : Spelled grammar (fun _ _ ↦ True) c.stack.slots ys) :
    ∃ z rest z' rest' row, c.stack.slots = z :: rest ∧ d.stack.slots = z' :: rest' ∧
      z'.state = z.state ∧ tables.row? z.state = some row := by
  obtain ⟨z, rest, hslots⟩ := List.exists_cons_of_ne_nil hs.ne_nil
  have hstates := h.states fun x y hxy ↦ hxy.1.trans hxy.2.1.symm
  rw [hslots, List.map_cons] at hstates
  obtain ⟨z', rest', hslots', hstate, -⟩ := List.map_eq_cons_iff.mp hstates
  have hpath := hs.path
  rw [hslots, List.map_cons] at hpath
  obtain ⟨S, hS⟩ := hpath.exists_state
  obtain ⟨row, hrow⟩ := Grammar.exists_row hS
  exact ⟨z, rest, z', rest', row, hslots, hslots', hstate, hrow⟩

/-- If the next token is not unexpected, both machines do the same with it. -/
theorem Attends.step_of_decide {Q : Prop} {action : Action} (make : Construction H → H)
    (ctx : Context) (options : Options)
    (h : Attends (Extends es) (Session.Follows xs ds []) P s₀ more' c d)
    (hs : Spelled grammar (fun _ _ ↦ True) c.stack.slots ys) (hpending : c.pending ≠ [])
    (hslots : c.stack.slots = z :: rest) (hrow : tables.row? z.state = some row)
    (hdecide : row.decide c.upcoming = some action) :
    Step.Along (Attends (Extends es) (Session.Follows xs ds []) P s₀ more') Q
      (c.step (engine ctx options) (granter make ctx))
      (d.step (engine ctx options) (granter make ctx)) := by
  obtain ⟨hbeside, hbefore⟩ := h
  obtain ⟨_, _, z', rest', _, hslots₁, hslots', hstate, hrow₁⟩ := Beside.exists_top hbeside hs
  cases hslots.symm.trans hslots₁
  cases hrow.symm.trans hrow₁
  have hend : c.upcoming ≠ .endOfInput := fun hup ↦
    hpending (Config.upcoming_eq_endOfInput_iff.mp hup)
  obtain ⟨htoken, hbefore₁, hbeside₁⟩ :=
    hbefore.peek (e := engine ctx options) hbeside (echoes_granting make) hpending
  obtain ⟨hbefore₂, hbeside₂⟩ :=
    hbefore.consult (e := engine ctx options) hbeside (echoes_granting make) hpending row
  have hallows := Grammar.allows_of_decide (show grammar.tables.row? z.state = some row from hrow)
    hdecide
  rw [Config.step_eq (engine ctx options) _ hslots hrow,
    Config.step_eq (engine ctx options) _ hslots' (hstate ▸ hrow), htoken, Config.kind_peek,
      hdecide]
  cases action with
  | shift n =>
    dsimp only
    rw [Config.consult_of_decide (engine ctx options) _ hdecide (by simp),
      Config.consult_of_decide (engine ctx options) _ (c := d) hdecide (by simp)]
    exact Attends.shift ⟨hbeside₁, hbefore₁⟩ (echoes_granting make) (c.ahead?_peek _ _) n
  | reduce k =>
    obtain ⟨p, hrule, hhas⟩ := hallows
    have hslots₂ : (c.consult (engine ctx options)
        (granter make ctx) row).stack.slots = z :: rest := by
      rw [Config.stack_consult, hslots]
    have hfile : p.lhs ≠ Category.file.index := by
      intro hlhs
      rw [hslots] at hs
      obtain ⟨-, -, -, y₀, below, hbelow, hpredicted, -⟩ := hs.reduce hrule hhas
      obtain ⟨n, hedge⟩ := Grammar.exists_goto hpredicted hrule
      have hclosing : n = closing := by
        rw [hlhs] at hedge
        exact (edge_file hedge).2
      exact hend (eq_endOfInput_of_edge_closing hs hrow hdecide hrule hbelow (hclosing ▸ hedge))
    refine (Beside.reduce make ctx options hbeside₂ (hslots₂ ▸ hslots ▸ hs) hslots₂ hrow hdecide
      hrule hfile (Or.inl rfl)).imp ?_
    rintro c' d' ⟨hbeside', hc', hd'⟩
    exact ⟨hbeside', hbefore₂.same hc'.ahead hd'.ahead hc'.input hd'.input hc'.exhausted
      hd'.exhausted hc'.lastSpan hd'.lastSpan⟩
  | accept => exact (hend hallows.1).elim

/-- As long as there is text before the first machine, both do the same. -/
theorem Attends.step (make : Construction H → H) (ctx : Context) (options : Options)
    (h : Attends (Extends es) (Session.Follows xs ds []) P s₀ more' c d)
    (hs : Spelled grammar (fun _ _ ↦ True) c.stack.slots ys) (hpending : c.pending ≠ []) :
    Step.Along (Attends (Extends es) (Session.Follows xs ds []) P s₀ more') P
      (c.step (engine ctx options) (granter make ctx))
      (d.step (engine ctx options) (granter make ctx)) := by
  obtain ⟨z, rest, z', rest', row, hslots, hslots', hstate, hrow⟩ := Beside.exists_top h.1 hs
  cases hdecide : row.decide c.upcoming with
  | some action => exact Attends.step_of_decide make ctx options h hs hpending hslots hrow hdecide
  | none =>
    obtain ⟨hbeside, hbefore⟩ := h
    obtain ⟨htoken, -, -⟩ :=
      hbefore.peek (e := engine ctx options) hbeside (echoes_granting make) hpending
    obtain ⟨hbefore₂, hbeside₂⟩ :=
      hbefore.consult (e := engine ctx options) hbeside (echoes_granting make) hpending row
    rw [Config.step_eq (engine ctx options) _ hslots hrow,
      Config.step_eq (engine ctx options) _ hslots' (hstate ▸ hrow), htoken, Config.kind_peek,
      hdecide, hstate]
    obtain ⟨above, x, y, b, hc, hd, hxy⟩ := hbeside.slots
    rw [hc] at hs
    obtain ⟨-, -, habove⟩ := spelled_above ctx options hs hxy.1
    have hpending₂ : (c.consult (engine ctx options)
        (granter make ctx) row).pending ≠ [] := by
      rwa [Config.pending_consult]
    refine Attends.fail ⟨hbeside₂, hbefore₂⟩ (echoes_granting make) hpending₂ (n := skipped)
      ((congrArg Stack.slots (c.stack_consult _ _ row)).trans hc)
      ((congrArg Stack.slots (d.stack_consult _ _ row)).trans hd) hxy
      (hxy.2.1.trans hxy.1.symm) habove ?_ _
    rw [hxy.1]
    exact errorShift?_between ctx options

end Steps

end PlainLedger.Language
