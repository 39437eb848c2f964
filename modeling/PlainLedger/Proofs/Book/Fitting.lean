import PlainLedger.Proofs.Book.History
import PlainLedger.Proofs.Book.Kinds
import PlainLedger.Proofs.Language.Entries

/-!
# Books are only given nodes that fit

In a parse under the interpretation of books, each slot of the stack holds nodes of the kind that
its symbol stands for. So no completed rule asks for something that is refused for the kind of a
node, and only entries are handed over in the end.
-/

namespace PlainLedger

open PlainLedger.Language

section Lists

variable {α : Type} {P : α → Prop}

theorem forall_mem_none : ∀ a ∈ (none : Option α), P a := by simp

theorem forall_mem_some {a : α} (h : P a) : ∀ b ∈ some a, P b := by
  simpa using h

theorem forall_mem_snoc {xs : List α} {x : α} (hxs : ∀ y ∈ xs, P y)
    (hx : P x) : ∀ y ∈ xs ++ [x], P y :=
  List.forall_mem_append.mpr ⟨hxs, List.forall_mem_singleton.mpr hx⟩

end Lists

namespace Language

/-! ## Plans -/

/-- The nodes of the value are of the kinds that they should be of; where a value is a node, or a
list of nodes, the kind is `k?`. -/
def Value.Fits (k? : Option NodeKind) : Value Node → Prop
  | handle n => k? = some n.kind
  | pair amount tolerance? => amount.kind = .amount ∧ ∀ n ∈ tolerance?, n.kind = .number
  | list ns => ∀ n ∈ ns, k? = some n.kind
  | lines xs => ∀ x ∈ xs, x.Fits
  | component x => x.Fits
  | components xs => ∀ x ∈ xs, x.Fits
  | metadata m => m.Fits
  | _ => True

/-- What the plan asks for, and what comes of it, fits. -/
def Plan.Fits (k? : Option NodeKind) : Plan Node → Prop
  | keep v => v.Fits k?
  | warn _ v => v.Fits k?
  | construct c => c.Fits ∧ k? = some c.kind
  | measure c tolerance? => c.Fits ∧ c.kind = .amount ∧ ∀ n ∈ tolerance?, n.kind = .number
  | declare _ => True

/-- The kinds of nodes that a production takes, first to last. -/
def Production.takes : Production → List (Option NodeKind)
  | .file | .declarationsDirective | .declarationsError | .forward => [some .entry]
  | .declarationsEntry => [some .entry, some .entry]
  | .metaListAppend => [some .keyValue, some .keyValue]
  | .maybeNumberSome | .metaNumber => [some .number]
  | .metaAmount | .position => [some .amount]
  | .positionWithLot => [some .amount, some .cost]
  | .add | .subtract | .multiply | .divide => [some .number, none, some .number]
  | .negate | .unaryPlus | .parens => [none, some .number]
  | .fieldString | .fieldLink | .fieldTag | .lotSpec | .pushTag | .popTag | .includeFile
  | .plugin => [none, none]
  | .transaction => [none, none, none, none, none]
  | .postingBare | .keyValue | .currenciesAppend | .lotListComma | .lotListSlash | .optionSetting
  | .pluginWithConfig => [none, none, none]
  | .postingUnits => [none, none, none, some .position]
  | .postingPerUnitPrice | .postingTotalPrice =>
    [none, none, none, some .position, none, some .amount]
  | .linesKeyValue => [none, some .keyValue]
  | .linesPosting => [none, some .posting]
  | .openEntry => [none, none, none, none, none, none, some .keyValue]
  | .closeEntry | .commodity => [none, none, none, none, some .keyValue]
  | .pad | .event | .note | .document => [none, none, none, none, none, some .keyValue]
  | .balance => [none, none, none, none, none, some .keyValue]
  | .price => [none, none, none, some .amount, none, some .keyValue]
  | .amount | .amountExact => [some .number, none]
  | .amountWithTolerance => [some .number, none, some .number, none]
  | .compoundPerUnit => [some .number, none]
  | .compoundWithTotal => [some .number, none, some .number, none]
  | .lotCost => [some .compound]
  | .number | .metaString | .metaAccount | .metaDate | .metaCurrency | .metaTag | .metaBool
  | .currenciesFirst | .bookingSome | .lotDate | .lotLabel | .lotListFirst | .filename | .txnFlag
  | .optFlagFlag | .fieldPipe => [none]
  | .declarationsEmpty | .discard | .txnKeyword | .txnAsterisk | .fieldsEmpty | .optFlagNone
  | .optFlagAsterisk | .metaEmpty | .linesEmpty | .metaListEmpty | .currenciesEmpty | .bookingNone
  | .maybeNumberNone | .lotListEmpty | .lotMerge => []

/-- The kind of node that a production comes to. -/
def Production.gives : Production → Option NodeKind
  | .file | .declarationsEmpty | .declarationsDirective | .declarationsEntry | .declarationsError
  | .forward | .transaction | .openEntry | .closeEntry | .commodity | .pad | .balance | .price
  | .event | .note | .document => some .entry
  | .number | .add | .subtract | .multiply | .divide | .negate | .unaryPlus | .parens
  | .maybeNumberNone | .maybeNumberSome => some .number
  | .amount => some .amount
  | .compoundPerUnit | .compoundWithTotal => some .compound
  | .lotSpec => some .cost
  | .position | .positionWithLot => some .position
  | .keyValue | .metaListEmpty | .metaListAppend => some .keyValue
  | .postingUnits | .postingPerUnitPrice | .postingTotalPrice | .postingBare => some .posting
  | _ => none

/-- The values fit the kinds, as far as there are kinds for them. -/
def FitAll : List (Option NodeKind) → List (Value Node) → Prop
  | k? :: ks, v :: vs => v.Fits k? ∧ FitAll ks vs
  | _, _ => True

theorem FitAll.of_forall₂ {ks ks' : List (Option NodeKind)} {vs : List (Value Node)}
    (h : List.Forall₂ Value.Fits ks' vs) (hks : ks <+: ks') : FitAll ks vs := by
  induction h generalizing ks with
  | nil =>
    rw [List.prefix_nil.mp hks]
    trivial
  | cons hv _ ih =>
    cases ks with
    | nil => trivial
    | cons k? ks =>
      obtain ⟨rfl, hrest⟩ := List.cons_prefix_cons.mp hks
      exact ⟨hv, ih hrest⟩

namespace Take

variable {β γ : Type} {ks ks' ks'' : List (Option NodeKind)} {k? : Option NodeKind} {Q : β → Prop}
  {R : γ → Prop}

/-- From values that fit comes a result with the property, and the values that are left fit. -/
def Gives (ks : List (Option NodeKind)) (m : Take Node β) (ks' : List (Option NodeKind))
    (Q : β → Prop) : Prop :=
  ∀ a b a', FitAll ks a.pending → m.run a = .ok (b, a') → Q b ∧ FitAll ks' a'.pending

theorem kind_of_some {k : NodeKind} {n : Node} (h : some k = some n.kind) : n.kind = k :=
  (Option.some.inj h).symm

theorem gives_pure {b : β} (h : Q b) : Gives ks (pure b) ks Q := by
  intro a b' a' hfit hrun
  cases hrun
  exact ⟨h, hfit⟩

theorem gives_bind {m : Take Node β} {f : β → Take Node γ} (h : Gives ks m ks' Q)
    (hf : ∀ b, Q b → Gives ks' (f b) ks'' R) : Gives ks (m >>= f) ks'' R := by
  intro a c a' hfit hrun
  rw [StateT.run_bind] at hrun
  cases hm : m.run a with
  | error misfit =>
    rw [hm] at hrun
    cases hrun
  | ok out =>
    rw [hm] at hrun
    obtain ⟨hb, hfit'⟩ := h a out.1 out.2 hfit hm
    exact hf out.1 hb out.2 c a' hfit' hrun

theorem gives_throw {misfit : Misfit} : Gives ks (throw misfit : Take Node β) ks' Q := by
  intro a b a' _ hrun
  cases hrun

theorem gives_next : Gives (k? :: ks) next ks (Value.Fits k?) := by
  intro a v a' hfit hrun
  obtain ⟨pending, unused⟩ := a
  cases pending with
  | nil => cases hrun
  | cons w rest =>
    cases hrun
    exact hfit

theorem gives_skip : Gives (k? :: ks) skip ks fun _ ↦ True :=
  gives_bind gives_next fun _ _ a _ _ hfit hrun ↦ by
    cases hrun
    exact ⟨trivial, hfit⟩

theorem gives_shaped {expected : String} {pick : Value Node → Option β}
    (h : ∀ v b, pick v = some b → v.Fits k? → Q b) :
    Gives (k? :: ks) (shaped expected pick) ks Q := by
  refine gives_bind gives_next fun v hv ↦ ?_
  cases hpick : pick v with
  | none => exact gives_throw
  | some b => exact gives_pure (h v b hpick hv)

section Shapes

theorem gives_text : Gives (k? :: ks) text ks fun _ ↦ True := gives_shaped fun _ _ _ _ ↦ trivial

theorem gives_optionalText : Gives (k? :: ks) optionalText ks fun _ ↦ True :=
  gives_shaped fun _ _ _ _ ↦ trivial

theorem gives_char : Gives (k? :: ks) char ks fun _ ↦ True := gives_shaped fun _ _ _ _ ↦ trivial

theorem gives_optionalChar : Gives (k? :: ks) optionalChar ks fun _ ↦ True :=
  gives_shaped fun _ _ _ _ ↦ trivial

theorem gives_strings : Gives (k? :: ks) strings ks fun _ ↦ True :=
  gives_shaped fun _ _ _ _ ↦ trivial

theorem gives_fields : Gives (k? :: ks) fields ks fun _ ↦ True :=
  gives_shaped fun _ _ _ _ ↦ trivial

theorem gives_handle : Gives (k? :: ks) handle ks fun n ↦ k? = some n.kind :=
  gives_shaped fun v n hn hv ↦ by cases v <;> cases hn; exact hv

theorem gives_optionalHandle :
    Gives (k? :: ks) optionalHandle ks fun n? ↦ ∀ n ∈ n?, k? = some n.kind :=
  gives_shaped fun v n? hn hv ↦ by
    cases v with
    | nothing =>
      cases hn
      exact forall_mem_none
    | handle n =>
      cases hn
      exact forall_mem_some hv
    | _ => cases hn

theorem gives_pair : Gives (k? :: ks) pair ks fun p ↦
    p.1.kind = .amount ∧ ∀ n ∈ p.2, n.kind = .number :=
  gives_shaped fun v p hp hv ↦ by cases v <;> cases hp; exact hv

theorem gives_list : Gives (k? :: ks) list ks fun ns ↦ ∀ n ∈ ns, k? = some n.kind :=
  gives_shaped fun v ns hns hv ↦ by cases v <;> cases hns; exact hv

theorem gives_details :
    Gives (some .keyValue :: ks) details ks fun ns? ↦ ∀ n ∈ ns?.getD [], n.kind = .keyValue := by
  refine gives_bind gives_list fun ns hns ↦ gives_pure fun n hn ↦ ?_
  cases ns with
  | nil => cases hn
  | cons m ms => exact (Option.some.inj (hns n hn)).symm

theorem gives_lines : Gives (k? :: ks) lines ks fun xs ↦ ∀ x ∈ xs, x.Fits :=
  gives_shaped fun v xs hxs hv ↦ by cases v <;> cases hxs; exact hv

theorem gives_component : Gives (k? :: ks) component ks LotComponent.Fits :=
  gives_shaped fun v x hx hv ↦ by cases v <;> cases hx; exact hv

theorem gives_components : Gives (k? :: ks) components ks fun xs ↦ ∀ x ∈ xs, x.Fits :=
  gives_shaped fun v xs hxs hv ↦ by cases v <;> cases hxs; exact hv

theorem gives_metadata : Gives (k? :: ks) metadata ks MetaValue.Fits :=
  gives_shaped fun v m hm hv ↦ by cases v <;> cases hm; exact hv

end Shapes

theorem gives_binary {op : Operator} :
    Gives (some .number :: none :: some .number :: ks) (binary op) ks
      (Plan.Fits (some .number)) :=
  gives_bind gives_handle fun _ hlhs ↦ gives_bind gives_skip fun _ _ ↦
    gives_bind gives_handle fun _ hrhs ↦
      gives_pure ⟨⟨(Option.some.inj hlhs).symm, (Option.some.inj hrhs).symm⟩, rfl⟩

/-- The units of a posting and its price. -/
def PartsFit (totalPrice : Bool) (parts : Option Node × Option Node) : Prop :=
  (∀ n ∈ parts.1, n.kind = .position) ∧ (∀ n ∈ parts.2, n.kind = .amount) ∧
    (totalPrice = true → parts.1.isSome = true)

theorem gives_posting {origin : Provenance} {txnFlag? : Option Char} {totalPrice : Bool}
    {parts : Take Node (Option Node × Option Node)}
    (h : Gives ks parts ks' (PartsFit totalPrice)) :
    Gives (none :: none :: none :: ks) (posting origin txnFlag? totalPrice parts) ks'
      (Plan.Fits (some .posting)) := by
  unfold posting
  cases txnFlag? with
  | none => exact gives_throw
  | some txnFlag =>
    exact gives_bind gives_skip fun _ _ ↦ gives_bind gives_optionalChar fun _ _ ↦
      gives_bind gives_text fun _ _ ↦ gives_bind h fun _ hparts ↦
        gives_pure ⟨⟨hparts.1, hparts.2.1, hparts.2.2⟩, rfl⟩

theorem gives_priced {totalPrice : Bool} :
    Gives (some .position :: none :: some .amount :: ks) priced ks (PartsFit totalPrice) :=
  gives_bind gives_handle fun _ hn ↦ gives_bind gives_skip fun _ _ ↦
    gives_bind gives_handle fun _ hm ↦ gives_pure ⟨forall_mem_some (kind_of_some hn),
      forall_mem_some (kind_of_some hm), fun _ ↦ rfl⟩

theorem gives_dated {origin : Provenance} {body : Take Node (Statement Node)}
    (h : Gives ks body (none :: some .keyValue :: ks') Statement.Fits) :
    Gives (none :: none :: ks) (dated origin body) ks' (Plan.Fits (some .entry)) :=
  gives_bind gives_text fun _ _ ↦ gives_bind gives_skip fun _ _ ↦ gives_bind h fun _ hbody ↦
    gives_bind gives_skip fun _ _ ↦ gives_bind gives_details fun _ hdetails ↦
      gives_pure ⟨⟨hbody, hdetails⟩, rfl⟩

end Take

open Take

/-- From nodes of the kinds that a production takes come requests about nodes of the right kinds. -/
theorem gives_plan (p : Production) (origin : Provenance) (txnFlag? : Option Char) :
    Gives p.takes (p.plan origin txnFlag?) [] (Plan.Fits p.gives) := by
  cases p
  case add | subtract | multiply | divide => exact gives_binary
  case postingBare => exact gives_posting (gives_pure ⟨forall_mem_none, forall_mem_none, nofun⟩)
  case postingUnits =>
    exact gives_posting (gives_bind gives_handle fun n hn ↦
      gives_pure ⟨forall_mem_some (kind_of_some hn), forall_mem_none, nofun⟩)
  case postingPerUnitPrice | postingTotalPrice => exact gives_posting gives_priced
  case openEntry =>
    exact gives_dated (gives_bind gives_text fun _ _ ↦ gives_bind gives_strings fun _ _ ↦
      gives_bind gives_optionalText fun _ _ ↦ gives_pure trivial)
  case closeEntry | commodity =>
    exact gives_dated (gives_bind gives_text fun _ _ ↦ gives_pure trivial)
  case pad | event | note | document =>
    exact gives_dated (gives_bind gives_text fun _ _ ↦ gives_bind gives_text fun _ _ ↦
      gives_pure trivial)
  case balance =>
    exact gives_dated (gives_bind gives_text fun _ _ ↦ gives_bind gives_pair fun _ hpair ↦
      gives_pure hpair)
  case price =>
    exact gives_dated (gives_bind gives_text fun _ _ ↦ gives_bind gives_handle fun _ hn ↦
      gives_pure (kind_of_some hn))
  case file | declarationsDirective | declarationsError | forward | maybeNumberSome =>
    exact gives_bind gives_next fun _ hv ↦ gives_pure hv
  case declarationsEntry | metaListAppend =>
    exact gives_bind gives_list fun _ hns ↦ gives_bind gives_handle fun _ hn ↦
      gives_pure (forall_mem_snoc hns hn)
  case txnFlag | optFlagFlag => exact gives_bind gives_char fun _ _ ↦ gives_pure trivial
  case number => exact gives_bind gives_text fun _ _ ↦ gives_pure ⟨trivial, rfl⟩
  case metaString | metaAccount | metaDate | metaCurrency | metaTag | metaBool
      | currenciesFirst | bookingSome | filename | lotDate | lotLabel =>
    exact gives_bind gives_text fun _ _ ↦ gives_pure trivial
  case metaNumber | metaAmount | lotCost =>
    exact gives_bind gives_handle fun _ hn ↦ gives_pure (kind_of_some hn)
  case position =>
    exact gives_bind gives_handle fun _ hn ↦ gives_pure ⟨⟨kind_of_some hn, forall_mem_none⟩, rfl⟩
  case negate =>
    exact gives_bind gives_skip fun _ _ ↦ gives_bind gives_handle fun _ hn ↦
      gives_pure ⟨kind_of_some hn, rfl⟩
  case unaryPlus | parens =>
    exact gives_bind gives_skip fun _ _ ↦ gives_bind gives_next fun _ hv ↦ gives_pure hv
  case fieldString | fieldLink | fieldTag =>
    exact gives_bind gives_fields fun _ _ ↦ gives_bind gives_text fun _ _ ↦ gives_pure trivial
  case fieldPipe => exact gives_bind gives_fields fun _ _ ↦ gives_pure trivial
  case transaction =>
    exact gives_bind gives_text fun _ _ ↦ gives_bind gives_char fun _ _ ↦
      gives_bind gives_fields fun _ _ ↦ gives_bind gives_skip fun _ _ ↦
      gives_bind gives_lines fun _ hxs ↦ gives_pure ⟨hxs, rfl⟩
  case keyValue =>
    exact gives_bind gives_skip fun _ _ ↦ gives_bind gives_text fun _ _ ↦
      gives_bind gives_metadata fun _ hm ↦ gives_pure ⟨hm, rfl⟩
  case linesKeyValue | linesPosting =>
    exact gives_bind gives_lines fun _ hxs ↦ gives_bind gives_handle fun _ hn ↦
      gives_pure (forall_mem_snoc hxs (kind_of_some hn))
  case currenciesAppend =>
    exact gives_bind gives_strings fun _ _ ↦ gives_bind gives_skip fun _ _ ↦
      gives_bind gives_text fun _ _ ↦ gives_pure trivial
  case pushTag | popTag | includeFile | plugin =>
    exact gives_bind gives_skip fun _ _ ↦ gives_bind gives_text fun _ _ ↦ gives_pure trivial
  case optionSetting | pluginWithConfig =>
    exact gives_bind gives_skip fun _ _ ↦ gives_bind gives_text fun _ _ ↦
      gives_bind gives_text fun _ _ ↦ gives_pure trivial
  case amount =>
    exact gives_bind gives_handle fun _ hn ↦ gives_bind gives_text fun _ _ ↦
      gives_pure ⟨kind_of_some hn, rfl⟩
  case amountExact =>
    exact gives_bind gives_handle fun _ hn ↦ gives_bind gives_text fun _ _ ↦
      gives_pure ⟨kind_of_some hn, rfl, forall_mem_none⟩
  case amountWithTolerance =>
    exact gives_bind gives_handle fun _ hn ↦ gives_bind gives_skip fun _ _ ↦
      gives_bind gives_handle fun _ hm ↦ gives_bind gives_text fun _ _ ↦
      gives_pure ⟨kind_of_some hn, rfl, forall_mem_some (kind_of_some hm)⟩
  case compoundPerUnit =>
    exact gives_bind gives_optionalHandle fun _ hn ↦ gives_bind gives_text fun _ _ ↦
      gives_pure ⟨⟨fun n h ↦ kind_of_some (hn n h), forall_mem_none⟩, rfl⟩
  case compoundWithTotal =>
    exact gives_bind gives_optionalHandle fun _ hn ↦ gives_bind gives_skip fun _ _ ↦
      gives_bind gives_optionalHandle fun _ hm ↦ gives_bind gives_text fun _ _ ↦
      gives_pure ⟨⟨fun n h ↦ kind_of_some (hn n h), fun n h ↦ kind_of_some (hm n h)⟩, rfl⟩
  case positionWithLot =>
    exact gives_bind gives_handle fun _ hn ↦ gives_bind gives_handle fun _ hm ↦
      gives_pure ⟨⟨kind_of_some hn, forall_mem_some (kind_of_some hm)⟩, rfl⟩
  case lotSpec =>
    exact gives_bind gives_skip fun _ _ ↦ gives_bind gives_components fun _ hxs ↦
      gives_pure ⟨hxs, rfl⟩
  case lotListFirst =>
    exact gives_bind gives_component fun _ hx ↦ gives_pure (List.forall_mem_singleton.mpr hx)
  case lotListComma | lotListSlash =>
    exact gives_bind gives_components fun _ hxs ↦ gives_bind gives_skip fun _ _ ↦
      gives_bind gives_component fun _ hx ↦ gives_pure (forall_mem_snoc hxs hx)
  case declarationsEmpty | linesEmpty | metaListEmpty | lotListEmpty =>
    exact gives_pure (List.forall_mem_nil _)
  all_goals exact gives_pure trivial

/-! ## Phrases -/

/-- The kind of node that a phrase of the category stands for, or that its list holds. -/
def Category.kind? : Category → Option NodeKind
  | .file | .declarations | .entry | .transaction | .openEntry | .closeEntry | .commodity | .pad
  | .balance | .price | .event | .note | .document => some .entry
  | .numberExpr | .maybeNumber => some .number
  | .amount => some .amount
  | .compoundAmount => some .compound
  | .lotSpec => some .cost
  | .position => some .position
  | .keyValue | .keyValueList => some .keyValue
  | .posting => some .posting
  | _ => none

def kindOf : Symbol → Option NodeKind
  | .terminal _ => none
  | .nonterminal n => (Category.all[n]?).bind Category.kind?

/-- The value holds nodes of the kind of the symbol. -/
def Kinded (x : Symbol) (v : Value Node) : Prop := v.Fits (kindOf x)

/-- The right-hand side has the kinds that the production takes, and the phrase that of its node. -/
theorem ruleKinds {k : Nat} {p : Rule Production} (h : grammar.rules[k]? = some p) :
    p.action.takes <+: p.rhs.map kindOf ∧ p.action.gives = kindOf (.nonterminal p.lhs) := by
  have hall : ∀ p ∈ grammar.rules, p.action.takes <+: p.rhs.map kindOf ∧
      p.action.gives = kindOf (.nonterminal p.lhs) := by decide +kernel
  exact hall p (List.mem_of_getElem? h)

/-- A token carries no node. -/
theorem kinded_ofToken (t : Token) : Kinded (.terminal t.kind) (Value.ofToken t) := by
  unfold Kinded Value.ofToken
  cases t.payload <;> trivial

end Language

namespace Book

open History

/-! ## Runs -/

/-- The call was not refused for the kind of a node, and a node that was made is of the kind that
was asked for. -/
def Proper : Exchange Node BookError → Prop
  | .construct c answer => BookError.InPlace answer ∧ ∀ n, answer = .ok n → n.kind = c.kind
  | .declare _ answer => BookError.InPlace answer
  | _ => True

/-- The book holds what the history of a session says, in which all calls were proper. -/
structure Orderly (file : String) (s : Session (Book × History)) : Prop where
  reflects : Reflects file s.record s.state.1
  proper : ∀ x ∈ s.record, Proper x

section Sessions

variable {file : String} {ctx : Context} {options : Options} {s s' : Session (Book × History)}
  {k? : Option NodeKind} {origin : Provenance} {verdict : Verdict (Value Node)}

/-- Nodes are not taken back. -/
@[simp] theorem releaseAll_watched (ns : List Node) (s : Session (Book × History)) :
    s.releaseAll interpretation.watched ns = s := by
  unfold Session.releaseAll
  induction ns with
  | nil => rfl
  | cons n ns ih => exact ih

theorem Orderly.report (h : Orderly file s) (d : Diagnostic) :
    Orderly file (s.report interpretation.watched d) where
  reflects := h.reflects.report d
  proper := forall_mem_snoc h.proper trivial

theorem Orderly.release (h : Orderly file s) (v : Value Node) :
    Orderly file ((reducer interpretation.watched ctx).release v s) := by
  change Orderly file (s.releaseAll interpretation.watched v.handles)
  rwa [releaseAll_watched]

theorem Orderly.construct (h : Orderly file s) {c : Construction Node} (hc : c.Fits) :
    Orderly file { s with state := (interpretation.watched.construct c s.state).2 } where
  reflects := h.reflects.construct c
  proper := forall_mem_snoc h.proper ⟨inPlace_build hc, fun _ ↦ kind_of_build⟩

theorem inPlace_declare (b : Book) (d : Declaration) : BookError.InPlace (b.declare d).1 := by
  cases d with
  | popTag tag =>
    unfold Book.declare
    dsimp only
    split
    · exact BookError.inPlace_ok _
    · exact BookError.inPlace_error id
  | _ => exact BookError.inPlace_ok _

theorem Orderly.declare (h : Orderly file s) (d : Declaration) :
    Orderly file { s with state := (interpretation.watched.declare d s.state).2 } where
  reflects := (h.reflects.declare d).2
  proper := forall_mem_snoc h.proper (inPlace_declare s.state.1 d)

theorem exists_of_outcome {ε σ ω β : Type} {i : Interpretation Node ε σ ω} {value : β → Value Node}
    {answer : Except ε β} {v : Value Node} (h : Session.outcome i value answer = .value v) :
    ∃ b, answer = .ok b ∧ v = value b := by
  cases answer with
  | error e => cases h
  | ok b =>
    cases h
    exact ⟨b, rfl, rfl⟩

/-- Carrying out a plan that fits is proper, and its value fits. -/
theorem Orderly.perform (h : Orderly file s) {plan : Plan Node} (hplan : plan.Fits k?)
    (hs' : s.perform interpretation.watched origin plan = (verdict, s')) :
    Orderly file s' ∧ ∀ v, verdict = .value v → v.Fits k? := by
  cases plan with
  | keep v =>
    cases hs'
    exact ⟨h, fun w hw ↦ by cases hw; exact hplan⟩
  | warn message v =>
    cases hs'
    exact ⟨h.report _, fun w hw ↦ by cases hw; exact hplan⟩
  | declare d =>
    cases hs'
    refine ⟨h.declare d, fun v hv ↦ ?_⟩
    obtain ⟨_, -, rfl⟩ := exists_of_outcome hv
    trivial
  | construct c =>
    obtain ⟨hc, rfl⟩ := hplan
    cases hs'
    refine ⟨h.construct hc, fun v hv ↦ ?_⟩
    obtain ⟨n, hn, rfl⟩ := exists_of_outcome hv
    exact congrArg some (kind_of_build hn).symm
  | measure c tolerance? =>
    obtain ⟨hc, hk, htolerance⟩ := hplan
    have horderly := h.construct hc
    cases hanswer : interpretation.watched.construct c s.state with
    | mk answer state =>
      rw [hanswer] at horderly
      cases answer with
      | ok n =>
        rw [perform_measure_ok _ hanswer] at hs'
        cases hs'
        refine ⟨horderly, fun v hv ↦ ?_⟩
        cases hv
        exact ⟨(kind_of_build (congrArg Prod.fst hanswer)).trans hk, htolerance⟩
      | error e =>
        rw [perform_measure_error _ hanswer, releaseAll_watched] at hs'
        cases hs'
        exact ⟨horderly, fun v hv ↦ by cases hv⟩

/-- Completing a rule is proper, and its value is of the kind of the phrase. -/
theorem Orderly.reduce (h : Orderly file s) {k : Nat} {p : Rule Production}
    {red : Reduction (Value Node)} (hrule : grammar.rules[k]? = some p)
    (hvalues : List.Forall₂ Kinded p.rhs red.values)
    (hverdict : (reducer interpretation.watched ctx).reduce p.action red s = (verdict, s')) :
    Orderly file s' ∧ ∀ v, verdict = .value v → Kinded (.nonterminal p.lhs) v := by
  obtain ⟨htakes, hgives⟩ := ruleKinds hrule
  simp only [reducer, releaseAll_watched] at hverdict
  split at hverdict
  · cases hverdict
    exact ⟨h, fun v hv ↦ by cases hv⟩
  · rename_i plan args hrun
    have hfit : FitAll p.action.takes red.values :=
      .of_forall₂ (List.forall₂_map_left_iff.mpr hvalues) htakes
    obtain ⟨hplan, -⟩ := gives_plan _ _ _ _ _ _ hfit hrun
    rw [hgives] at hplan
    exact h.perform hplan hverdict

/-- Every event keeps nodes of the right kinds on the stack, and calls proper. -/
theorem Orderly.does {slots slots' : List (Slot (Value Node))} {ev : Event (Value Node)}
    {xs : List Symbol} (h : Orderly file s) (hs : Spelled grammar Kinded slots xs)
    (hev : Does (engine ctx options) (reducer interpretation.watched ctx) slots s ev slots' s') :
    Orderly file s' ∧ ∃ xs', Spelled grammar Kinded slots' xs' := by
  refine ⟨?_, hev.spelled hs trivial ?_ ?_⟩
  · cases hev with
    | pull | discard | resume => exact h
    | shift _ hvalue =>
      cases hvalue
      exact h
    | report d _ => exact h.report d
    | reduce hrule hhas _ _ hverdict | reject hrule hhas _ hverdict =>
      obtain ⟨-, -, hvalues, -⟩ := hs.reduce hrule hhas
      exact (h.reduce hrule hvalues hverdict).1
    | pop => exact h.release _
  · rintro t v - ⟨⟩
    exact kinded_ofToken t
  · rintro x rest k p v rfl hrule hhas hverdict
    obtain ⟨-, -, hvalues, -⟩ := hs.reduce hrule hhas
    exact (h.reduce hrule hvalues hverdict).2 v rfl

variable {evs : List (Event (Value Node))} {slots : List (Slot (Value Node))}

/-- No call has been made yet. -/
def unopened (file : String) : Session (Book × History) := ⟨({ file }, []), #[]⟩

theorem orderly_unopened (file : String) : Orderly file (unopened file) where
  reflects := reflects_new file
  proper := List.forall_mem_nil _

theorem orderly_of_trace
    (h : Trace (engine ctx options) (reducer interpretation.watched ctx) (unopened file) evs slots
      s) : Orderly file s ∧ ∃ xs, Spelled grammar Kinded slots xs :=
  h.keeps (P := fun _ slots s ↦ Orderly file s ∧ ∃ xs, Spelled grammar Kinded slots xs)
    ⟨orderly_unopened file, [], .bottom rfl⟩ fun _ ⟨h, _, hs⟩ hev ↦ h.does hs hev

theorem orderly_of_stopped {cause : Abort}
    (h : Stopped (engine ctx options) (reducer interpretation.watched ctx) (unopened file) cause
      evs slots s) : Orderly file s := by
  cases h with
  | start d hm => rcases hm with rfl | rfl <;> exact orderly_unopened file
  | unrecoverable _ _ h => exact (orderly_of_trace h).1
  | fatal h hrule hhas hverdict =>
    obtain ⟨horderly, xs, hs⟩ := orderly_of_trace h
    obtain ⟨-, -, hvalues, -⟩ := hs.reduce hrule hhas
    exact (horderly.reduce hrule hvalues hverdict).1
  | overflow _ h hev _ =>
    obtain ⟨horderly, xs, hs⟩ := orderly_of_trace h
    exact (horderly.does hs hev).1.release _

end Sessions

theorem Orderly.clear {file : String} {ctx : Context}
    {c : Config (Value Node) (Session (Book × History))} (h : Orderly file c.memory) :
    Orderly file (Engine.clear (reducer interpretation.watched ctx) c).memory :=
  (Engine.noise_clear (reducer interpretation.watched ctx) c).keeps h (fun d _ h ↦ h.report d)
    fun v _ h ↦ h.release v

/-- When a run is over, all calls were proper, and the book holds what they say. -/
theorem orderly_run (ctx : Context) (options : Options) (tokens : List Token) :
    Orderly ctx.file (run interpretation.watched ctx options tokens
      ({ file := ctx.file }, [])).2.memory := by
  have hsteps := Engine.continues_steps (e := engine ctx options)
    (r := reducer interpretation.watched ctx) tables_engine (stepBudget tokens.length) tokens
    (unopened ctx.file)
  unfold run Engine.run
  change Orderly ctx.file (Engine.finish _ _ (Engine.steps _ _ _ (Engine.start _ _ _
    (unopened ctx.file)))).2.memory
  generalize Engine.steps _ _ _ _ = st at hsteps ⊢
  cases st with
  | running c => exact (orderly_of_trace hsteps).1
  | accepted v c =>
    obtain ⟨x, y, htrace, -⟩ := hsteps
    exact (orderly_of_trace htrace).1.clear
  | aborted cause c => exact (orderly_of_stopped hsteps).clear.report _

/-- What can be said of reading a ledger, in view of the calls that were made to the book. -/
structure Accountable (file : String) (parsed : Parsed Ledger) (calls : History) : Prop where
  proper : ∀ x ∈ calls, Proper x
  /-- Only entries are handed over. -/
  finished : ∀ nodes, .finish nodes ∈ calls → ∀ n ∈ nodes, n.kind = .entry
  /-- The ledger has the entries that were made. Its errors are the diagnostics of the parse, and
  then one for each tag that is still pushed. -/
  ledger : ∀ l ds, parsed = .complete l ds →
    l.entries.map Node.entry = Exchange.entries calls ∧
      ∃ tags : List String, tags.Pairwise (· < ·) ∧ (∀ tag, tag ∈ tags ↔ Pushed tag calls) ∧
        l.errors = ds ++ tags.map fun tag ↦
          ⟨file, .clamp 0, .semantic, (BookError.unbalancedTag tag).message⟩

theorem kind_of_mem_entries {calls : History} (h : ∀ x ∈ calls, Proper x) {n : Node}
    (hn : n ∈ Exchange.entries calls) : n.kind = .entry := by
  obtain ⟨x, hx, hentry⟩ := List.mem_filterMap.mp hn
  cases x with
  | construct c answer =>
    cases answer with
    | error e => cases hentry
    | ok m =>
      obtain ⟨hc, hm⟩ := Option.ite_none_right_eq_some.mp hentry
      cases hm
      rw [(h _ hx).2 _ rfl]
      cases c <;> first
        | rfl
        | cases hc
  | _ => cases hentry

/-- Calls before the ledger is handed over, and that call. -/
theorem accountable_finish {file : String} {calls : History} {b : Book} {nodes : List Node}
    {ds : List Diagnostic} (hmade : Made nodes calls) (hreflects : Reflects file calls b)
    (hproper : ∀ x ∈ calls, Proper x) (htold : calls.filterMap Exchange.reported? = ds) :
    Accountable file (.complete (b.finish nodes).1 ds) (calls ++ [.finish nodes]) := by
  obtain ⟨hentries, hfinish⟩ := hmade
  have hkind : ∀ n ∈ nodes, n.kind = .entry := fun n hn ↦
    kind_of_mem_entries hproper (hentries ▸ hn)
  refine ⟨forall_mem_snoc hproper trivial, fun nodes' hmem ↦ ?_, fun l ds' hcomplete ↦ ?_⟩
  · rcases List.mem_append.mp hmem with hmem | hmem
    · cases hfinish _ hmem
    · cases List.mem_singleton.mp hmem
      exact hkind
  · cases hcomplete
    have haccounts := hreflects.accounts nodes
    obtain ⟨tags, hascending, hpushed, herrors⟩ := haccounts.errors
    have hstrays : nodes.filter (fun n ↦ n.kind ≠ .entry) = [] := by simpa using hkind
    refine ⟨?_, tags, hascending, fun tag ↦ ?_, ?_⟩
    · rw [haccounts.entries, List.filter_eq_self.mpr (by simpa using hkind),
        Exchange.entries_append, hentries]
      exact (List.append_nil _).symm
    · rw [hpushed, pushed_append]
      simp
    · rw [herrors, hstrays, htold, List.map_nil, List.append_nil]

/-- Calls where no ledger is handed over. -/
theorem accountable_of_ne {file : String} {calls : History} {nodes : List Node}
    {parsed : Parsed Ledger} (hmade : Made nodes calls) (hproper : ∀ x ∈ calls, Proper x)
    (hne : ∀ l ds, parsed ≠ .complete l ds) : Accountable file parsed calls where
  proper := hproper
  finished _ hmem := nomatch hmade.2 _ hmem
  ledger l ds h := (hne l ds h).elim

/-- The two are compared as functions; compared at arguments, the parse would be carried out. -/
theorem read_eq : Ledger.read =
    fun ctx options tokens ↦ (parse interpretation ctx options tokens { file := ctx.file }).1 := by
  delta Ledger.read
  rfl

/-- Whatever the text is, a book is never given a node of the wrong kind. No call is refused for the
kind of a node, or for the price of all units where there are none, and only entries are handed
over. So a ledger has the entries that were made, in the order of the calls, and its errors are the
diagnostics of the parse and the tags that are still pushed. -/
theorem accountable_read (ctx : Context) (options : Options) (tokens : List Token) :
    Accountable ctx.file (Ledger.read ctx options tokens)
      (parse interpretation.watched ctx options tokens ({ file := ctx.file }, [])).2.2 := by
  have hsame := (parse_watched interpretation ctx options tokens { file := ctx.file } []).1
  have hends := ends_run interpretation ctx options tokens { file := ctx.file }
  have htold := told_parse interpretation ctx options tokens { file := ctx.file }
  have horderly := orderly_run ctx options tokens
  rw [congrFun (congrFun (congrFun read_eq ctx) options) tokens, ← hsame]
  clear hsame
  rw [parse] at htold ⊢
  generalize run interpretation.watched ctx options tokens ({ file := ctx.file }, []) = out
    at hends htold horderly ⊢
  obtain ⟨hreflects, hproper⟩ := horderly
  cases hends with
  | @accepted v c h =>
    obtain ⟨nodes, rfl, hmade⟩ := h
    have hmade := hmade.noise (Engine.noise_clear (reducer interpretation.watched ctx) c)
    refine accountable_finish hmade hreflects hproper ?_
    rw [← List.append_nil (List.filterMap _ _)]
    exact (List.filterMap_append ..).symm.trans htold
  | @aborted cause c d h _ =>
    obtain ⟨nodes, hmade⟩ := h
    have hmade := hmade.noise ((Engine.noise_clear (reducer interpretation.watched ctx) c).report d)
    exact accountable_of_ne hmade hproper fun l ds h ↦ by cases h
  | unfinished h =>
    obtain ⟨nodes, xs, hmade, -⟩ := h
    exact accountable_of_ne hmade hproper fun l ds h ↦ by cases h

end Book

end PlainLedger
