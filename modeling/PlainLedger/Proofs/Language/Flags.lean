import PlainLedger.Proofs.Language.Calls
import PlainLedger.Proofs.Language.HeadLine
import PlainLedger.Proofs.Language.Numbered

/-!
# Flags of transactions

A posting is given the flag of the transaction that it is written under, which is the one in the
head line on the stack below it. If the transaction comes about, it has that flag, and each posting
among its lines was made with it. There always is such a head line: no posting is completed outside
a transaction, whatever went wrong before it.
-/

namespace PlainLedger.Language

variable {H ε σ ω : Type}

/-! ## Calls for postings -/

/-- The flag that a posting is given. -/
def Construction.postingFlag? : Construction H → Option Char
  | posting _ parts => some parts.txnFlag
  | _ => none

def Exchange.postingFlag? : Exchange H ε → Option Char
  | construct c _ => c.postingFlag?
  | _ => none

theorem exists_posting_of_flag {c : Construction H} {flag : Char}
    (h : c.postingFlag? = some flag) :
    ∃ origin parts, c = .posting origin parts ∧ parts.txnFlag = flag := by
  cases c with
  | posting origin parts => exact ⟨origin, parts, rfl, Option.some.inj h⟩
  | _ => cases h

/-- The plan asks for a posting with the flag, if the production is that of a posting. -/
def Plan.Flags (p : Production) (flag? : Option Char) : Plan H → Prop
  | .construct c => c.postingFlag? = if p.isPosting then flag? else none
  | .measure c _ => c.postingFlag? = none ∧ p.isPosting = false
  | _ => p.isPosting = false

open Take in
theorem returns_flags (p : Production) (origin : Provenance) (flag? : Option Char) :
    Returns (H := H) (Plan.Flags p flag?) (p.plan origin flag?) := by
  cases p
  case postingBare | postingUnits | postingPerUnitPrice | postingTotalPrice =>
    cases flag? with
    | none => exact returns_throw
    | some flag =>
      exact returns_bind fun _ ↦ returns_bind fun _ ↦ returns_bind fun _ ↦ returns_bind fun _ ↦
        returns_pure rfl
  all_goals
    repeat' first
      | exact returns_pure rfl
      | exact returns_pure ⟨rfl, rfl⟩
      | refine returns_bind fun _ ↦ ?_

/-- Only a posting is called for with a flag. -/
theorem Plan.Settled.flags {plan : Plan H} {own : List (Exchange H ε)}
    {verdict : Verdict (Value H)} {p : Production} {flag? : Option Char}
    (h : plan.Settled own verdict) (hplan : plan.Flags p flag?) :
    own.filterMap Exchange.postingFlag? = if p.isPosting then flag?.toList else [] := by
  have hconstruct : ∀ (c : Construction H) (answer : Except ε H),
      c.postingFlag? = (if p.isPosting then flag? else none) →
      [Exchange.construct c answer].filterMap Exchange.postingFlag? =
        if p.isPosting then flag?.toList else [] := by
    intro c answer hc
    rw [List.filterMap_cons, Exchange.postingFlag?, hc]
    cases p.isPosting <;> cases flag? <;> rfl
  cases h with
  | carried h =>
    cases h with
    | keep v => rw [show p.isPosting = false from hplan]; rfl
    | warn message v => rw [show p.isPosting = false from hplan]; rfl
    | construct c a => exact hconstruct c _ hplan
    | measure c tolerance? a =>
      refine hconstruct c _ ?_
      rw [hplan.1, hplan.2]
      rfl
    | declare d => rw [show p.isPosting = false from hplan]; rfl
  | refused h =>
    cases h with
    | construct c reason => exact hconstruct c _ hplan
    | measure c tolerance? reason =>
      refine hconstruct c _ ?_
      rw [hplan.1, hplan.2]
      rfl
    | declare d reason => rw [show p.isPosting = false from hplan]; rfl

/-- A posting that is made has been called for with the flag. -/
theorem Plan.Settled.posted {plan : Plan H} {own : List (Exchange H ε)} {p : Production}
    {flag : Char} {a : H} (h : plan.Settled own (.value (.handle a)))
    (hplan : plan.Flags p (some flag)) (hp : p.isPosting = true) :
    ∃ origin parts, .construct (.posting origin parts) (.ok a) ∈ own ∧ parts.txnFlag = flag := by
  cases h with
  | carried h =>
    cases h with
    | keep => exact absurd hp (ne_true_of_eq_false hplan)
    | warn => exact absurd hp (ne_true_of_eq_false hplan)
    | construct c =>
      rw [Flags, hp, if_pos rfl] at hplan
      obtain ⟨origin, parts, rfl, hflag⟩ := exists_posting_of_flag hplan
      exact ⟨origin, parts, List.mem_singleton.mpr rfl, hflag⟩

/-- Only the production of a transaction asks for one. -/
theorem Plan.Settled.transaction {plan : Plan H} {own : List (Exchange H ε)}
    {verdict : Verdict (Value H)} {p : Production} {origin origin' : Provenance} {date : String}
    {flag : Char} {fields : TxnFields} {lines : List (TxnLine H)} {answer : Except ε H}
    (h : plan.Settled own verdict) (hplan : plan.Shows p origin)
    (hmakes : plan.Makes p.makesEntry)
    (hmem : .construct (.transaction origin' date flag fields lines) answer ∈ own) :
    p = .transaction ∧ plan = .construct (.transaction origin' date flag fields lines) := by
  have hrequest : plan.request? = some ("transaction", some origin') → p = .transaction := by
    intro hask
    have hp := hplan.request.symm.trans hask
    cases p <;> first
      | rfl
      | simp [Production.request?] at hp
  cases h with
  | carried h =>
    cases h with
    | keep => cases hmem
    | warn => cases List.mem_singleton.mp hmem
    | construct c a =>
      cases List.mem_singleton.mp hmem
      exact ⟨hrequest rfl, rfl⟩
    | measure c tolerance? a =>
      cases List.mem_singleton.mp hmem
      cases hmakes.1
    | declare => cases List.mem_singleton.mp hmem
  | refused h =>
    cases h with
    | construct c reason =>
      cases List.mem_singleton.mp hmem
      exact ⟨hrequest rfl, rfl⟩
    | measure c tolerance? reason =>
      cases List.mem_singleton.mp hmem
      cases hmakes.1
    | declare => cases List.mem_singleton.mp hmem

/-! ## Lines of transactions -/

/-- A call for a posting with the flag has made the object. -/
def PostedWith (calls : List (Exchange H ε)) (h : H) (flag : Char) : Prop :=
  ∃ origin parts, .construct (.posting origin parts) (.ok h) ∈ calls ∧ parts.txnFlag = flag

theorem PostedWith.append {calls : List (Exchange H ε)} {h : H} {flag : Char}
    (hposted : PostedWith calls h flag) (calls' : List (Exchange H ε)) :
    PostedWith (calls ++ calls') h flag := by
  obtain ⟨origin, parts, hmem, hflag⟩ := hposted
  exact ⟨origin, parts, List.mem_append_left _ hmem, hflag⟩

/-- The postings on the stack were made with the flag of the head line below them. -/
structure Lined (calls : List (Exchange H ε)) (X : Symbol) (below : List (Slot (Value H)))
    (x : Slot (Value H)) : Prop where
  posting : X = Category.posting.symbol → ∀ h, x.value = .handle h →
    ∃ flag, charAt 3 below = some flag ∧ PostedWith calls h flag
  lines : X = Category.postingOrKvList.symbol → ∀ lines h, x.value = .lines lines →
    .posting h ∈ lines → ∃ flag, charAt 2 below = some flag ∧ PostedWith calls h flag

theorem Lined.append {calls : List (Exchange H ε)} {X : Symbol} {below : List (Slot (Value H))}
    {x : Slot (Value H)} (h : Lined calls X below x) (calls' : List (Exchange H ε)) :
    Lined (calls ++ calls') X below x := by
  refine ⟨fun hX a ha ↦ ?_, fun hX lines a hlines ha ↦ ?_⟩
  · obtain ⟨flag, hflag, hposted⟩ := h.posting hX a ha
    exact ⟨flag, hflag, hposted.append calls'⟩
  · obtain ⟨flag, hflag, hposted⟩ := h.lines hX lines a hlines ha
    exact ⟨flag, hflag, hposted.append calls'⟩

theorem lined_terminal (t : Terminal) (calls : List (Exchange H ε)) (below : List (Slot (Value H)))
    (x : Slot (Value H)) : Lined calls (.terminal t) below x := by
  constructor
  · intro h
    cases h
  · intro h
    cases h

/-- The rules for postings and for the lines of transactions. -/
def LineRule (p : Rule Production) : Prop :=
  (p.lhs = Category.posting.index → p.action.isPosting = true) ∧
    (p.lhs = Category.postingOrKvList.index →
      p.rhs = [] ∧ p.action = .linesEmpty ∨
        p.rhs = [Category.postingOrKvList.symbol, Category.keyValue.symbol] ∧
          p.action = .linesKeyValue ∨
        p.rhs = [Category.postingOrKvList.symbol, Category.posting.symbol] ∧
          p.action = .linesPosting)

instance (p : Rule Production) : Decidable (LineRule p) := by
  unfold LineRule
  infer_instance

theorem lineRule {k : Nat} {p : Rule Production} (h : grammar.rules[k]? = some p) :
    LineRule p := by
  have hall : ∀ p ∈ grammar.rules, LineRule p := by decide +kernel
  exact hall p (List.mem_of_getElem? h)

theorem txnFlag?_eq_charAt {p : Production} (hp : p.isPosting = true)
    (below : List (Slot (Value H))) : txnFlag? p below = charAt 3 below := by
  rw [txnFlag?, if_pos hp]
  rfl

section Completed

variable {i : Interpretation H ε σ ω} {ctx : Context} {x y : Slot (Value H)}
  {rest below : List (Slot (Value H))} {xs ys : List Symbol} {pss : List (List Piece)} {k n : Nat}
  {p : Rule Production} {s s' : Session (σ × List (Exchange H ε))} {v : Value H} {span : Span}
  {calls : List (Exchange H ε)} {verdict : Verdict (Value H)}

/-- A posting that is made was called for with the flag of its head line. -/
theorem exists_postedWith (hs : Spelled grammar Typed (y :: below) ys)
    (hrule : grammar.rules[k]? = some p) (hedge : grammar.Edge y.state (.nonterminal p.lhs) n)
    (hp : p.action.isPosting = true) {red : Reduction (Value H)} (hred : red.below = y :: below)
    {a : H} (hverdict : (reducer i.watched ctx).reduce p.action red s = (.value (.handle a), s')) :
    ∃ flag, charAt 3 (y :: below) = some flag ∧ PostedWith s'.record a flag := by
  obtain ⟨flag, hflag⟩ := Option.isSome_iff_exists.mp (txnFlag?_isSome hs hrule hedge hp)
  obtain ⟨plan, args, own, hrun, hsettled, hrecord⟩ :=
    exists_settled hverdict (fun _ h ↦ by cases h)
  have hplan := returns_flags _ _ _ _ _ _ hrun
  rw [hred, hflag] at hplan
  obtain ⟨origin, parts, hmem, hparts⟩ := hsettled.posted hplan hp
  refine ⟨flag, (txnFlag?_eq_charAt hp _).symm.trans hflag, origin, parts, ?_, hparts⟩
  rw [hrecord]
  exact List.mem_append_right _ hmem

/-- The lines of a transaction, and one more line. -/
theorem exists_line
    (hs : Pieced grammar (fun X below x _ ↦ Lined calls X below x) (x :: rest) xs pss)
    (hts : Spelled grammar Typed (x :: rest) ys) (hrule : grammar.rules[k]? = some p)
    (hhas : grammar.Has x.state ⟨k, p.rhs.length⟩) {c : Category} (hform : c.form = .handle)
    (hrhs : p.rhs = [Category.postingOrKvList.symbol, c.symbol]) :
    ∃ z below lines a, rest = z :: below ∧ x.value = .handle a ∧
      (Reduction.ofSlots k p.rhs.length (x :: rest)).values = [.lines lines, .handle a] ∧
      z.value = .lines lines ∧ Lined calls Category.postingOrKvList.symbol below z ∧
      Lined calls c.symbol rest x := by
  have htake := (hs.spelled.reduce hrule hhas).2.1
  obtain ⟨-, -, hvalues, -⟩ := hts.reduce hrule hhas
  rw [hrhs] at htake hvalues ⊢
  obtain ⟨z, below, ps, qs, rfl, -, hz, hx⟩ := hs.of_take_two k htake
  have htyped : List.Forall₂ Typed [Category.postingOrKvList.symbol, c.symbol]
      [z.value, x.value] := hvalues
  obtain _ | ⟨⟨lines, hlines⟩, _ | ⟨hhandle, -⟩⟩ := htyped
  rw [Typed, show formOf c.symbol = c.form by cases c <;> rfl, hform] at hhandle
  obtain ⟨a, ha⟩ := hhandle
  refine ⟨z, below, lines, a, rfl, ha, ?_, hlines, hz, hx⟩
  change [z.value, x.value] = _
  rw [hlines, ha]

/-- The postings among the lines of a transaction were made with the flag below the lines. -/
theorem postedWith_of_lines
    (hs : Pieced grammar (fun X below x _ ↦ Lined calls X below x) (x :: rest) xs pss)
    (hts : Spelled grammar Typed (x :: rest) ys) (hrule : grammar.rules[k]? = some p)
    (hhas : grammar.Has x.state ⟨k, p.rhs.length⟩)
    (hbelow : (x :: rest).drop p.rhs.length = y :: below)
    (hlhs : p.lhs = Category.postingOrKvList.index) {lines : List (TxnLine H)}
    (hverdict : (reducer i.watched ctx).reduce p.action (.ofSlots k p.rhs.length (x :: rest)) s =
      (.value (.lines lines), s')) {a : H} (ha : .posting a ∈ lines) :
    ∃ flag, charAt 2 (y :: below) = some flag ∧ PostedWith calls a flag := by
  rcases (lineRule hrule).2 hlhs with ⟨-, haction⟩ | ⟨hrhs, haction⟩ | ⟨hrhs, haction⟩
  · rw [haction] at hverdict
    cases value_of_keep rfl hverdict
    cases ha
  · obtain ⟨z, below', lines', b, rfl, -, hvalues, hlines, hz, -⟩ :=
      exists_line hs hts hrule hhas rfl hrhs
    have hplan : (Production.plan (H := H) (ctx.provenance (Reduction.ofSlots k p.rhs.length
        (x :: z :: below')).span) (txnFlag? p.action (Reduction.ofSlots k p.rhs.length
        (x :: z :: below')).below) p.action).run { pending :=
          (Reduction.ofSlots k p.rhs.length (x :: z :: below')).values } =
        .ok (.keep (.lines (lines' ++ [.detail b])), { pending := [] }) := by
      rw [hvalues, haction]
      rfl
    cases value_of_keep hplan hverdict
    rw [hrhs] at hbelow
    cases hbelow
    rcases List.mem_append.mp ha with ha | ha
    · exact hz.lines rfl _ a hlines ha
    · cases List.mem_singleton.mp ha
  · obtain ⟨z, below', lines', b, rfl, hb, hvalues, hlines, hz, hx⟩ :=
      exists_line hs hts hrule hhas rfl hrhs
    have hplan : (Production.plan (H := H) (ctx.provenance (Reduction.ofSlots k p.rhs.length
        (x :: z :: below')).span) (txnFlag? p.action (Reduction.ofSlots k p.rhs.length
        (x :: z :: below')).below) p.action).run { pending :=
          (Reduction.ofSlots k p.rhs.length (x :: z :: below')).values } =
        .ok (.keep (.lines (lines' ++ [.posting b])), { pending := [] }) := by
      rw [hvalues, haction]
      rfl
    cases value_of_keep hplan hverdict
    rw [hrhs] at hbelow
    cases hbelow
    rcases List.mem_append.mp ha with ha | ha
    · exact hz.lines rfl _ a hlines ha
    · cases List.mem_singleton.mp ha
      have hposting := hx.posting rfl a hb
      rwa [charAt_succ] at hposting

/-- A slot that a completed rule is put into. -/
theorem lined_of_rule
    (hs : Pieced grammar (fun X below x _ ↦ Lined s.record X below x) (x :: rest) xs pss)
    (hts : Spelled grammar Typed (x :: rest) ys) (hrule : grammar.rules[k]? = some p)
    (hhas : grammar.Has x.state ⟨k, p.rhs.length⟩)
    (hbelow : (x :: rest).drop p.rhs.length = y :: below)
    (hedge : grammar.Edge y.state (.nonterminal p.lhs) n)
    (hverdict : (reducer i.watched ctx).reduce p.action (.ofSlots k p.rhs.length (x :: rest)) s =
      (.value v, s')) :
    Lined s'.record (.nonterminal p.lhs) (y :: below) ⟨n, v, span⟩ := by
  refine ⟨fun hlhs a ha ↦ ?_, fun hlhs lines a hlines ha ↦ ?_⟩
  · obtain rfl : v = .handle a := ha
    obtain ⟨-, -, -, y', below', hbelow', -, hts'⟩ := hts.reduce hrule hhas
    cases hbelow.symm.trans hbelow'
    exact exists_postedWith hts' hrule hedge ((lineRule hrule).1 (Symbol.nonterminal.inj hlhs))
      hbelow hverdict
  · obtain rfl : v = .lines lines := hlines
    obtain ⟨flag, hflag, hposted⟩ := postedWith_of_lines hs hts hrule hhas hbelow
      (Symbol.nonterminal.inj hlhs) hverdict ha
    obtain ⟨-, -, own, -, -, hrecord⟩ := exists_settled hverdict fun _ h ↦ by cases h
    rw [hrecord]
    exact ⟨flag, hflag, hposted.append own⟩

/-- A transaction is called for with the flag that the postings among its lines were made with. -/
theorem postedWith_of_transaction
    (hs : Pieced grammar (fun X below x _ ↦ Lined calls X below x) (x :: rest) xs pss)
    (hts : Spelled grammar Typed (x :: rest) ys) (hrule : grammar.rules[k]? = some p)
    (hhas : grammar.Has x.state ⟨k, p.rhs.length⟩) {plan : Plan H} {args : Args H}
    {own : List (Exchange H ε)} {origin : Provenance} {flag? : Option Char}
    (hrun : (p.action.plan origin flag?).run
      { pending := (Reduction.ofSlots k p.rhs.length (x :: rest)).values } = .ok (plan, args))
    (hsettled : plan.Settled own verdict) {origin' : Provenance} {date : String} {flag : Char}
    {fields : TxnFields} {lines : List (TxnLine H)} {answer : Except ε H}
    (hmem : .construct (.transaction origin' date flag fields lines) answer ∈ own) {a : H}
    (ha : .posting a ∈ lines) : PostedWith calls a flag := by
  obtain ⟨haction, rfl⟩ := hsettled.transaction (returns_shows _ _ _ _ _ _ hrun)
    (returns_plan _ _ _ _ _ _ hrun) hmem
  have hrhs := (declarationRule hrule).rhs_transaction
  obtain ⟨hle, -, hvalues, -⟩ := hts.reduce hrule hhas
  have htake := (hs.spelled.reduce hrule hhas).2.1
  have hlen := hts.length_eq
  rw [hrhs haction] at hle htake hvalues
  obtain ⟨a₁, a₂, a₃, a₄, tail, rfl⟩ : ∃ a₁ a₂ a₃ a₄ tail, rest = a₁ :: a₂ :: a₃ :: a₄ :: tail := by
    simp only [List.length_cons, List.length_nil] at hle hlen
    match rest, hlen with
    | a₁ :: a₂ :: a₃ :: a₄ :: tail, _ => exact ⟨a₁, a₂, a₃, a₄, tail, rfl⟩
  have htyped : List.Forall₂ Typed [.terminal .date, Category.txn.symbol,
      Category.txnFields.symbol, Category.eol.symbol, Category.postingOrKvList.symbol]
      [a₄.value, a₃.value, a₂.value, a₁.value, x.value] := hvalues
  obtain _ | ⟨⟨d, hd⟩, _ | ⟨⟨c, hc⟩, _ | ⟨⟨f, hf⟩, _ | ⟨-, _ | ⟨⟨ls, hls⟩, -⟩⟩⟩⟩⟩ := htyped
  have hpending : (Reduction.ofSlots k p.rhs.length (x :: a₁ :: a₂ :: a₃ :: a₄ :: tail)).values =
      [.text d, .char c, .fields f, a₁.value, .lines ls] := by
    rw [hrhs haction, ← hd, ← hc, ← hf, ← hls]
    rfl
  -- what the call is given are the values of the slots
  obtain ⟨rfl, rfl⟩ : c = flag ∧ ls = lines := by
    rw [hpending, haction] at hrun
    cases hrun
    exact ⟨rfl, rfl⟩
  cases hs with
  | @push _ _ _ X xs _ _ _ _ hx =>
    have hlast : (xs.take 4).reverse ++ [X] = [.terminal .date, Category.txn.symbol,
        Category.txnFields.symbol, Category.eol.symbol] ++ [Category.postingOrKvList.symbol] :=
      List.reverse_cons.symm.trans htake
    obtain ⟨-, hX⟩ := List.append_inj' hlast rfl
    obtain ⟨flag', hflag', hposted⟩ := hx.lines (List.cons.inj hX).1 ls a hls ha
    obtain ⟨state, value, span⟩ := a₃
    obtain rfl : value = .char c := hc
    cases hflag'
    exact hposted

end Completed

/-! ## Flags seen by postings -/

/-- The flag in the head line that the slots stand for, under some lines. -/
def headFlagOf : List (List Piece) → Option Char
  | _ :: _ :: _ :: [.token head] :: _ => head.headFlag?
  | _ => none

theorem UnderHead.headFlagOf_eq {flag : Char} {pss : List (List Piece)} (h : UnderHead flag pss) :
    headFlagOf pss = some flag := by
  obtain ⟨lines, lineEnd, description, head, date, rest, rfl, -, hflag, -⟩ := h
  exact hflag

/-- The flag of the head line that a posting is written under, where one is completed. -/
def flagAt? {V : Type} : List (List Piece) × Event V → Option (Option Char)
  | (pss, .reduce red _) =>
    match grammar.rules[red.rule]? with
    | some p => if p.action.isPosting then some (headFlagOf (pss.drop red.values.length)) else none
    | none => none
  | _ => none

theorem flagAt?_reduce {V : Type} {red : Reduction V} {verdict : Verdict V}
    {pss : List (List Piece)} {p : Rule Production} (hrule : grammar.rules[red.rule]? = some p) :
    flagAt? (pss, .reduce red verdict) =
      if p.action.isPosting then some (headFlagOf (pss.drop red.values.length)) else none := by
  rw [flagAt?, hrule]

/-- Each call for a posting is given the flag of the head line below the posting, and a call for a
transaction is given the flag that the postings among its lines were made with. -/
structure SeesFlags (log : List (Event (Value H))) (calls : List (Exchange H ε)) : Prop where
  given : (calls.filterMap Exchange.postingFlag?).map some = (history log).filterMap flagAt?
  under : ∀ pss red verdict p, (pss, .reduce red verdict) ∈ history log →
    grammar.rules[red.rule]? = some p → p.action.isPosting = true →
    ∃ flag, UnderHead flag (pss.drop red.values.length)
  kept : ∀ origin date flag fields lines answer a,
    .construct (.transaction origin date flag fields lines) answer ∈ calls →
    .posting a ∈ lines → PostedWith calls a flag

section Traces

variable {i : Interpretation H ε σ ω} {ctx : Context} {options : Options} {state : σ}
  {s₀ s s' : Session (σ × List (Exchange H ε))} {evs : List (Event (Value H))}
  {slots slots' : List (Slot (Value H))} {ev : Event (Value H)}

theorem exists_own_releaseAll (hs : List H) (s : Session (σ × List (Exchange H ε))) :
    ∃ own, (s.releaseAll i.watched hs).record = s.record ++ own :=
  ⟨[], (record_releaseAll i hs s).trans (List.append_nil _).symm⟩

/-- The record of a session only grows. -/
theorem exists_own (h : Does (engine ctx options) (reducer i.watched ctx) slots s ev slots' s') :
    ∃ own, s'.record = s.record ++ own := by
  cases h with
  | report d _ => exact ⟨[.report d], rfl⟩
  | reduce _ _ _ _ hverdict =>
    obtain ⟨-, -, own, -, -, hrecord⟩ := exists_settled hverdict fun _ h ↦ by cases h
    exact ⟨own, hrecord⟩
  | reject _ _ _ hverdict =>
    obtain ⟨-, -, own, -, -, hrecord⟩ := exists_settled hverdict fun _ h ↦ by cases h
    exact ⟨own, hrecord⟩
  | pop => exact exists_own_releaseAll _ s
  | shift _ hvalue =>
    cases hvalue
    exact ⟨[], (List.append_nil _).symm⟩
  | _ => exact ⟨[], (List.append_nil _).symm⟩

/-- At every moment the postings on the stack were made with the flags below them. -/
theorem lined_of_trace (h : Trace (engine ctx options) (reducer i.watched ctx) s₀ evs slots s)
    (hsound : ∀ t v, .shift t v ∈ evs → t.Sound) :
    ∃ xs, Pieced grammar (fun X below x _ ↦ Lined s.record X below x) slots xs (pieces evs) := by
  refine h.keeps (P := fun evs slots s ↦ (∀ t v, .shift t v ∈ evs → t.Sound) →
    ∃ xs, Pieced grammar (fun X below x _ ↦ Lined s.record X below x) slots xs (pieces evs))
    (fun _ ↦ ⟨[], .bottom rfl⟩) ?_ hsound
  intro evs slots slots' s s' ev htrace ih hev hsound
  have hbefore : ∀ t v, .shift t v ∈ evs → t.Sound := fun t v hmem ↦
    hsound t v (List.mem_append_left _ hmem)
  obtain ⟨xs, hs⟩ := ih hbefore
  obtain ⟨own, hrecord⟩ := exists_own hev
  have hs' := hs.mono fun X below x _ hlined ↦ hlined.append own
  rw [← hrecord] at hs'
  rw [pieces_concat]
  refine hev.pieced hs' ?_ ?_ ?_
  · exact fun t n v _ _ ↦ lined_terminal t.kind _ _ _
  · exact fun n span _ ↦ lined_terminal .error _ _ _
  · rintro x rest k p y below n v rfl hrule hhas hbelow hedge hverdict
    obtain ⟨ys, hts⟩ := typed_of_trace htrace hbefore
    exact lined_of_rule hs hts hrule hhas hbelow hedge hverdict

/-- Calls that ask for no object. -/
theorem SeesFlags.append {calls own : List (Exchange H ε)} (h : SeesFlags evs calls)
    (hown : ∀ c answer, .construct c answer ∉ own) : SeesFlags evs (calls ++ own) := by
  have hnone : own.filterMap Exchange.postingFlag? = [] := by
    refine List.filterMap_eq_nil_iff.mpr fun x hx ↦ ?_
    cases x with
    | construct c answer => exact (hown c answer hx).elim
    | _ => rfl
  refine ⟨?_, h.under, fun origin date flag fields lines answer a hmem ha ↦ ?_⟩
  · rw [List.filterMap_append, hnone, List.append_nil]
    exact h.given
  · rcases List.mem_append.mp hmem with hmem | hmem
    · exact (h.kept _ _ _ _ _ _ a hmem ha).append own
    · exact (hown _ _ hmem).elim

/-- An event at which no rule is completed. -/
theorem SeesFlags.concat {calls : List (Exchange H ε)} (h : SeesFlags evs calls)
    (hev : ∀ red verdict, ev ≠ .reduce red verdict) : SeesFlags (evs ++ [ev]) calls := by
  refine ⟨?_, fun pss red verdict p hmem ↦ ?_, h.kept⟩
  · have hflag : flagAt? (pieces evs, ev) = none := by
      cases ev with
      | reduce red verdict => exact (hev red verdict rfl).elim
      | _ => rfl
    rw [h.given, filterMap_history_concat, hflag]
    exact (List.append_nil _).symm
  · rw [history_concat] at hmem
    rcases List.mem_append.mp hmem with hmem | hmem
    · exact h.under pss red verdict p hmem
    · cases List.mem_singleton.mp hmem
      exact (hev red verdict rfl).elim

/-- A completed rule calls for a posting with the flag below it, for a transaction with the flag of
its postings, or for something else. -/
theorem SeesFlags.complete {x : Slot (Value H)} {rest : List (Slot (Value H))} {k : Nat}
    {p : Rule Production} {verdict : Verdict (Value H)} (h : SeesFlags evs s.record)
    (htrace : Trace (engine ctx options) (reducer i.watched ctx) s₀ evs (x :: rest) s)
    (hsound : ∀ t v, .shift t v ∈ evs → t.Sound) (hrule : grammar.rules[k]? = some p)
    (hhas : grammar.Has x.state ⟨k, p.rhs.length⟩)
    (hverdict : (reducer i.watched ctx).reduce p.action (.ofSlots k p.rhs.length (x :: rest)) s =
      (verdict, s')) (hfatal : ∀ cause, verdict ≠ .fatal cause) :
    SeesFlags (evs ++ [.reduce (.ofSlots k p.rhs.length (x :: rest)) verdict]) s'.record := by
  obtain ⟨plan, args, own, hrun, hsettled, hrecord⟩ := exists_settled hverdict hfatal
  obtain ⟨ys, hts⟩ := typed_of_trace htrace hsound
  obtain ⟨xs, hlined⟩ := lined_of_trace htrace hsound
  obtain ⟨zs, hwritten⟩ := written_of_trace htrace hsound
  obtain ⟨hle, -, -, y, below, hbelow, hpredicted, -⟩ := hwritten.spelled.reduce hrule hhas
  obtain ⟨n, hedge⟩ := Grammar.exists_goto hpredicted hrule
  have hlen := hwritten.spelled.length_eq
  have hvalues := length_values_ofSlots k (show p.rhs.length ≤ (x :: rest).length by omega)
  have hdrop := hwritten.drop hle
  rw [hbelow] at hdrop
  have hnew : flagAt? (pieces evs, .reduce (.ofSlots k p.rhs.length (x :: rest)) verdict) =
      if p.action.isPosting then some (headFlagOf ((pieces evs).drop p.rhs.length)) else none := by
    rw [flagAt?_reduce (show grammar.rules[(Reduction.ofSlots k _ _).rule]? = some p from hrule),
      hvalues]
  refine ⟨?_, fun pss red verdict' q hmem hq hposting ↦ ?_,
    fun origin date flag fields lines answer a hmem ha ↦ ?_⟩
  · rw [hrecord, List.filterMap_append, List.map_append, h.given, filterMap_history_concat, hnew,
      hsettled.flags (returns_flags _ _ _ _ _ _ hrun)]
    congr 1
    cases hposting : p.action.isPosting with
    | false => rfl
    | true =>
      obtain ⟨flag, hunder, hchar⟩ := exists_underHead hdrop hrule hedge hposting
      rw [if_pos rfl, if_pos rfl, hunder.headFlagOf_eq,
        show (Reduction.ofSlots k p.rhs.length (x :: rest)).below = y :: below from hbelow,
        txnFlag?_eq_charAt hposting, hchar]
      rfl
  · rw [history_concat] at hmem
    rcases List.mem_append.mp hmem with hmem | hmem
    · exact h.under pss red verdict' q hmem hq hposting
    · cases List.mem_singleton.mp hmem
      cases hrule.symm.trans hq
      obtain ⟨flag, hunder, -⟩ := exists_underHead hdrop hrule hedge hposting
      rw [hvalues]
      exact ⟨flag, hunder⟩
  · rw [hrecord] at hmem ⊢
    rcases List.mem_append.mp hmem with hmem | hmem
    · exact (h.kept _ _ _ _ _ _ a hmem ha).append own
    · exact (postedWith_of_transaction hlined hts hrule hhas hrun hsettled hmem ha).append own

theorem SeesFlags.does (h : SeesFlags evs s.record)
    (htrace : Trace (engine ctx options) (reducer i.watched ctx) s₀ evs slots s)
    (hsound : ∀ t v, .shift t v ∈ evs → t.Sound)
    (hev : Does (engine ctx options) (reducer i.watched ctx) slots s ev slots' s') :
    SeesFlags (evs ++ [ev]) s'.record := by
  cases hev with
  | report d _ =>
    have hreport : SeesFlags (evs ++ [.report d]) s.record := h.concat nofun
    exact hreport.append fun c answer h ↦ by simp at h
  | reduce hrule hhas _ _ hverdict =>
    exact h.complete htrace hsound hrule hhas hverdict fun _ h ↦ by cases h
  | reject hrule hhas _ hverdict =>
    exact h.complete htrace hsound hrule hhas hverdict fun _ h ↦ by cases h
  | @pop x =>
    have hpop : SeesFlags (evs ++ [.pop x]) s.record := h.concat nofun
    rw [← record_releaseAll i x.value.handles s] at hpop
    exact hpop
  | pull token? => exact h.concat fun _ _ ↦ nofun
  | discard t => exact h.concat fun _ _ ↦ nofun
  | shift _ hvalue =>
    cases hvalue
    exact h.concat fun _ _ ↦ nofun
  | @resume _ _ _ n span => exact h.concat fun _ _ ↦ nofun

theorem seesFlags_of_trace
    (h : Trace (engine ctx options) (reducer i.watched ctx) ⟨(state, []), #[]⟩ evs slots s)
    (hsound : ∀ t v, .shift t v ∈ evs → t.Sound) : SeesFlags evs s.record := by
  refine h.keeps (P := fun evs _ s ↦ (∀ t v, .shift t v ∈ evs → t.Sound) → SeesFlags evs s.record)
    (fun _ ↦ ?_) ?_ hsound
  · refine ⟨rfl, fun pss red verdict p hmem ↦ ?_,
      fun origin date flag fields lines answer a hmem ↦ ?_⟩
    · cases hmem
    · cases hmem
  · intro evs slots slots' s s' ev htrace ih hev hsound
    have hbefore : ∀ t v, .shift t v ∈ evs → t.Sound := fun t v hmem ↦
      hsound t v (List.mem_append_left _ hmem)
    exact (ih hbefore).does htrace hbefore hev

/-- Where a run is given up, everything was called for as before. -/
theorem seesFlags_of_stopped {cause : Abort}
    (h : Stopped (engine ctx options) (reducer i.watched ctx) ⟨(state, []), #[]⟩ cause evs slots s)
    (hsound : ∀ t v, .shift t v ∈ evs → t.Sound) : SeesFlags evs s.record := by
  cases h with
  | start d hm =>
    have hempty : SeesFlags ([] : List (Event (Value H))) ([] : List (Exchange H ε)) :=
      seesFlags_of_trace (show Trace (engine ctx options) (reducer i.watched ctx)
        ⟨(state, []), #[]⟩ []
        _ _ from .start) fun t v hmem ↦ by cases hmem
    rcases hm with rfl | rfl
    · exact hempty
    · exact hempty
  | unrecoverable file line h => exact seesFlags_of_trace h hsound
  | fatal h hrule hhas hverdict =>
    obtain ⟨xs, hs⟩ := typed_of_trace h fun t v hmem ↦ hsound t v (List.mem_append_left _ hmem)
    exact ((typed_completed i.watched ctx hs hrule hhas hverdict).1 _ rfl).elim
  | @overflow before _ _ x _ m' _ d h hev _ =>
    have hbefore : ∀ t v, .shift t v ∈ before → t.Sound := fun t v hmem ↦
      hsound t v (List.mem_append_left _ hmem)
    have hsees := (seesFlags_of_trace h hbefore).does h hbefore hev
    rw [← record_releaseAll i x.value.handles m'] at hsees
    exact hsees

end Traces

/-! ## Whole parses -/

/-- The number of the object that a call has made. -/
def Exchange.number? : Exchange (Numbered H) ε → Option Nat
  | construct _ (.ok h) => some h.number
  | _ => none

/-- Each object that a call makes gets a number of its own. -/
theorem keeps_numbers (i : Interpretation H ε σ ω) :
    i.numbered.watched.Keeps fun s ↦ s.2.filterMap Exchange.number? = List.range s.1.next where
  construct c s h := by
    rcases hanswer : i.construct (c.map Numbered.object) s.1.state with ⟨answer, state⟩
    cases answer with
    | ok a =>
      simp only [Interpretation.watched, construct_numbered_ok hanswer]
      rw [List.filterMap_append, h]
      exact List.range_succ.symm
    | error reason =>
      simp only [Interpretation.watched, construct_numbered_error hanswer]
      rw [List.filterMap_append, h]
      exact List.append_nil _
  declare d s h := by
    have hnone : ∀ answer, ([.declare d answer] : List (Exchange (Numbered H) ε)).filterMap
        Exchange.number? = [] := fun _ ↦ rfl
    refine List.filterMap_append.trans ?_
    rw [hnone, List.append_nil]
    exact h
  report d s h := by
    refine List.filterMap_append.trans ?_
    rw [h]
    exact List.append_nil _
  release x s h := h
  finish hs s h := by
    refine List.filterMap_append.trans ?_
    rw [h]
    exact List.append_nil _

/-- Objects with different numbers were made by different calls, and no number is given twice. -/
theorem eq_of_number_eq {calls : List (Exchange (Numbered H) ε)} {n : Nat}
    (h : calls.filterMap Exchange.number? = List.range n) {x y : Exchange (Numbered H) ε} {m : Nat}
    (hx : x ∈ calls) (hy : y ∈ calls) (hxm : x.number? = some m) (hym : y.number? = some m) :
    x = y := by
  have hnodup : (calls.filterMap Exchange.number?).Nodup := by
    rw [h]
    exact List.nodup_range
  obtain ⟨before, after, rfl⟩ := List.append_of_mem hx
  rw [List.filterMap_append, List.filterMap_cons_some hxm, List.nodup_middle,
    ← List.filterMap_append] at hnodup
  obtain ⟨hfresh, -⟩ := List.nodup_cons.mp hnodup
  rcases List.mem_append.mp hy with hy | hy
  · exact (hfresh (List.mem_filterMap.mpr ⟨y, List.mem_append_left _ hy, hym⟩)).elim
  · rcases List.mem_cons.mp hy with rfl | hy
    · rfl
    · exact (hfresh (List.mem_filterMap.mpr ⟨y, List.mem_append_right _ hy, hym⟩)).elim

section Parses

variable (i : Interpretation H ε σ ω) (ctx : Context) (options : Options) {tokens : List Token}
  (hsound : ∀ t ∈ tokens, t.Sound) (state : σ)

include hsound

/-- The tokens that a run reads carry what their kinds ask for. -/
theorem sound_of_shift_run {t : Token} {v : Value H}
    (hmem : .shift t v ∈ (run i ctx options tokens state).2.log.toList) : t.Sound := by
  unfold run Engine.run at hmem
  have hends := Engine.ends_inOrder (e := engine ctx options) (r := reducer i ctx) tables_engine
    tokens ⟨state, #[]⟩ (stepBudget tokens.length)
  generalize (engine ctx options).steps _ (stepBudget tokens.length) _ = st at hmem hends
  cases st with
  | running c => exact sound_of_shift hends.2 hsound hmem
  | accepted v c =>
    have hlog : (Engine.clear (reducer i ctx) c).log = c.log := Engine.log_clear c
    change _ ∈ (Engine.clear (reducer i ctx) c).log.toList at hmem
    rw [hlog] at hmem
    exact sound_of_shift hends.2 hsound hmem
  | aborted cause c =>
    change _ ∈ ((Engine.clear (reducer i ctx) c).log.push _).toList at hmem
    rw [Array.toList_push, Engine.log_clear] at hmem
    rcases List.mem_append.mp hmem with hmem | hmem
    · exact sound_of_shift hends.2 hsound hmem
    · cases List.mem_singleton.mp hmem

/-- A rule that is completed gets what it expects. -/
theorem not_fatal_run (red : Reduction (Value H)) (cause : Abort) :
    .reduce red (.fatal cause) ∉ (run i ctx options tokens state).2.log.toList := by
  intro hmem
  obtain ⟨before, after, hlog⟩ := List.append_of_mem hmem
  obtain ⟨x, rest, m, m', k, p, htrace, hrule, hhas, rfl, hverdict⟩ :=
    Engine.completed_run (e := engine ctx options) (r := reducer i ctx) tables_engine hlog
  have hbefore : ∀ t v, .shift t v ∈ before → t.Sound := by
    intro t v ht
    have hshift := List.mem_append_left (.reduce (.ofSlots k p.rhs.length (x :: rest))
      (.fatal cause) :: after) ht
    rw [← hlog] at hshift
    exact sound_of_shift_run i ctx options hsound state hshift
  obtain ⟨xs, hs⟩ := typed_of_trace htrace hbefore
  exact (typed_completed i ctx hs hrule hhas hverdict).1 cause rfl

/-- No parse is given up because of a defect. -/
theorem not_defect_parse (d : Defect) (ds : List Diagnostic) :
    (parse i ctx options tokens state).1 ≠ .failed (.defect d) ds := by
  unfold parse run Engine.run
  have hends := Engine.ends_inOrder (e := engine ctx options) (r := reducer i ctx) tables_engine
    tokens ⟨state, #[]⟩ (stepBudget tokens.length)
  generalize (engine ctx options).steps _ (stepBudget tokens.length) _ = st at hends
  intro hfailed
  cases st with
  | running c => cases hfailed
  | accepted v c =>
    obtain ⟨⟨x, y, htrace, hhas, rfl, -⟩, hin⟩ := hends
    obtain ⟨xs, hs⟩ := typed_of_trace htrace fun t v ↦ sound_of_shift hin hsound
    have hpath := hs.path
    obtain ⟨-, rfl⟩ := hpath.accept hhas
    cases hs with
    | push _ _ hv =>
      obtain ⟨entries, hlist⟩ := hv
      rw [hlist] at hfailed
      cases hfailed
  | aborted cause c =>
    obtain ⟨hstopped, hin⟩ := hends
    cases hfailed
    obtain ⟨evs, red, hlog⟩ := Stopped.exists_fatal hstopped
    obtain ⟨x, rest, m, m', k, p, htrace, hrule, hhas, rfl, hverdict⟩ := hstopped.completed hlog
    obtain ⟨xs, hs⟩ := typed_of_trace htrace fun t v ht ↦ sound_of_shift hin hsound (by
      rw [hlog]
      exact List.mem_append_left _ ht)
    exact (typed_completed i ctx hs hrule hhas hverdict).1 _ rfl

/-- The calls and the events of a run. -/
theorem seesFlags_run :
    SeesFlags (run i.watched ctx options tokens (state, [])).2.log.toList
      (run i.watched ctx options tokens (state, [])).2.memory.record := by
  unfold run Engine.run
  have hends := Engine.ends_inOrder (e := engine ctx options) (r := reducer i.watched ctx)
    tables_engine tokens ⟨(state, []), #[]⟩ (stepBudget tokens.length)
  generalize (engine ctx options).steps _ (stepBudget tokens.length) _ = st at hends
  have hclear : ∀ c : Config (Value H) (Session (σ × List (Exchange H ε))),
      SeesFlags c.log.toList c.memory.record →
      SeesFlags (Engine.clear (reducer i.watched ctx) c).log.toList
        (Engine.clear (reducer i.watched ctx) c).memory.record := by
    intro c hsees
    rwa [Engine.log_clear, record_clear]
  cases st with
  | running c => exact seesFlags_of_trace hends.1 fun t v ↦ sound_of_shift hends.2 hsound
  | accepted v c =>
    obtain ⟨⟨x, y, htrace, -⟩, hin⟩ := hends
    exact hclear c (seesFlags_of_trace htrace fun t v ↦ sound_of_shift hin hsound)
  | aborted cause c =>
    obtain ⟨hstopped, hin⟩ := hends
    have hsees := hclear c (seesFlags_of_stopped hstopped fun t v ↦ sound_of_shift hin hsound)
    change SeesFlags ((Engine.clear (reducer i.watched ctx) c).log.push _).toList _
    rw [Array.toList_push]
    refine (hsees.concat ?_).append fun _ _ h ↦ by simp at h
    intro red verdict h
    cases h

/-- The calls of a parse are those of its run, and the last one. -/
theorem seesFlags_parse :
    SeesFlags (run i.watched ctx options tokens (state, [])).2.log.toList
      (parse i.watched ctx options tokens (state, [])).2.2 := by
  have hsees := seesFlags_run i ctx options hsound state
  have hcomplete := not_defect_parse i.watched ctx options hsound (state, [])
  unfold parse at hcomplete ⊢
  generalize run i.watched ctx options tokens (state, []) = out at hsees hcomplete ⊢
  obtain ⟨out, c⟩ := out
  cases out with
  | accepted v =>
    cases v with
    | list entries => exact hsees.append fun _ _ h ↦ by simp at h
    | _ => exact (hcomplete _ _ rfl).elim
  | aborted cause => exact hsees
  | unfinished => exact hsees

/-- Postings see the flag of their own transaction, with any interpretation and whatever goes wrong
in the text. Below a completed posting there always is the head line of a transaction, and the calls
for postings are given the flags of these head lines, one after the other; so no parse is given up
because a posting is completed elsewhere. A call for a transaction is given the flag that the
postings among its lines were made with. Numbers tell the objects apart, and change nothing else. -/
theorem postings_see_flags :
    parse i ctx options tokens state =
        ((parse i.numbered.watched ctx options tokens ({ state }, [])).1,
          (parse i.numbered.watched ctx options tokens ({ state }, [])).2.1.state) ∧
      SeesFlags (run i.numbered.watched ctx options tokens ({ state }, [])).2.log.toList
        (parse i.numbered.watched ctx options tokens ({ state }, [])).2.2 ∧
      (∀ x ∈ (parse i.numbered.watched ctx options tokens ({ state }, [])).2.2,
        ∀ y ∈ (parse i.numbered.watched ctx options tokens ({ state }, [])).2.2, ∀ n,
          x.number? = some n → y.number? = some n → x = y) ∧
      (∀ red cause, .reduce red (.fatal cause) ∉
        (run i ctx options tokens state).2.log.toList) ∧
      ∀ d ds, (parse i ctx options tokens state).1 ≠ .failed (.defect d) ds := by
  refine ⟨?_, seesFlags_parse i.numbered ctx options hsound { state }, ?_,
    not_fatal_run i ctx options hsound state, not_defect_parse i ctx options hsound state⟩
  · obtain ⟨hparsed, hstate⟩ := parse_watched i.numbered ctx options tokens { state } []
    rw [hparsed, hstate]
    exact parse_numbered i ctx options tokens { state }
  · intro x hx y hy n hxn hyn
    have hnumbers := parse_keeps (keeps_numbers i) ctx options tokens
      (show (({ state }, []) :
          Numbering σ × List (Exchange (Numbered H) ε)).2.filterMap Exchange.number? =
        [] from rfl)
    exact eq_of_number_eq hnumbers hx hy hxn hyn

end Parses

/-- A word that is no line, and then a transaction with two postings. -/
def flaggedPostings : List Token :=
  [tokenOn 1 .string, tokenOn 1 .eol, tokenOn 2 .date, .ofFlag '!' (.point 2 1), tokenOn 2 .eol] ++
    ([Terminal.indent, .account, .eol].map (tokenOn 3) ++
      [Terminal.indent, .account, .eol].map (tokenOn 4))

/-- What the postings of a text are given, one after the other. -/
def postingFlags (tokens : List Token) : List Char :=
  (parse Transcript.interpretation.numbered.watched ⟨"main", 0⟩ {} tokens
    ({ state := {} }, [])).2.2.filterMap
    Exchange.postingFlag?

/-- The postings are given the flag of their transaction. -/
theorem postings_see_flags_flaggedPostings :
    (∀ t ∈ flaggedPostings, t.Sound) ∧
      SeesFlags (run Transcript.interpretation.numbered.watched ⟨"main", 0⟩ {} flaggedPostings
          ({ state := {} }, [])).2.log.toList
        (parse Transcript.interpretation.numbered.watched ⟨"main", 0⟩ {} flaggedPostings
          ({ state := {} }, [])).2.2 ∧
      postingFlags flaggedPostings = ['!', '!'] := by
  have hsound : ∀ t ∈ flaggedPostings, t.Sound := by
    simp [flaggedPostings, tokenOn, Token.Sound, Token.ofText, Token.ofFlag]
  obtain ⟨-, hsees, -⟩ :=
    postings_see_flags Transcript.interpretation ⟨"main", 0⟩ {} hsound {}
  refine ⟨hsound, hsees, ?_⟩
  unfold postingFlags parse run engine
  rw [tables_eq]
  decide +kernel

end PlainLedger.Language
