import Mathlib.Data.List.Forall2
import Mathlib.Tactic.CasesM
import PlainLedger.Proofs.Language.Plan

/-!
# Forms of values

Each phrase has values of one form, and so has each token that carries what its kind asks for. A
production expects values of certain forms, which those of its right-hand side have; from such
values a plan can always be made, and it comes to a value of the form that the phrase has.
-/

namespace PlainLedger

/-- The token carries what its kind asks for. -/
def Token.Sound (t : Token) : Prop :=
  match t.kind with
  | .flag => ∃ c, t.payload = .char c
  | .string | .account | .currency | .number | .date | .bool | .tag | .link | .key =>
    ∃ s, t.payload = .text s
  | _ => True

namespace Language

variable {H ε σ ω : Type}

inductive Form where
  /-- Values without handles, which no rule looks at. -/
  | blank
  | char
  | optionalChar
  | text
  | optionalText
  | handle
  | optionalHandle
  | pair
  | list
  | lines
  | strings
  | fields
  | component
  | components
  | metadata
  deriving DecidableEq, Repr

namespace Form

def Admits : Form → Value H → Prop
  | blank, v => v.handles = []
  | char, v => ∃ c, v = .char c
  | optionalChar, v => v = .nothing ∨ ∃ c, v = .char c
  | text, v => ∃ s, v = .text s
  | optionalText, v => v = .nothing ∨ ∃ s, v = .text s
  | handle, v => ∃ h, v = .handle h
  | optionalHandle, v => v = .nothing ∨ ∃ h, v = .handle h
  | pair, v => ∃ a t, v = .pair a t
  | list, v => ∃ hs, v = .list hs
  | lines, v => ∃ xs, v = .lines xs
  | strings, v => ∃ xs, v = .strings xs
  | fields, v => ∃ f, v = .fields f
  | component, v => ∃ x, v = .component x
  | components, v => ∃ xs, v = .components xs
  | metadata, v => ∃ m, v = .metadata m

/-- Values of the one form are values of the other. -/
def le : Form → Form → Bool
  | char, optionalChar | text, optionalText | handle, optionalHandle => true
  | char, blank | text, blank | optionalChar, blank | optionalText, blank => true
  | f, g => f == g

theorem Admits.mono {f g : Form} {v : Value H} (h : f.Admits v) (hle : f.le g = true) :
    g.Admits v := by
  cases f <;> cases g <;> first
    | cases hle; done
    | exact h
    | exact Or.inr h
    | (rcases h with rfl | ⟨_, rfl⟩ <;> rfl)
    | (obtain ⟨_, rfl⟩ := h
       rfl)

/-- The values have the forms; those that no form is asked of are blank. -/
def AdmitsAll : List Form → List (Value H) → Prop
  | [], vs => ∀ v ∈ vs, Form.blank.Admits v
  | f :: fs, v :: vs => f.Admits v ∧ AdmitsAll fs vs
  | _ :: _, [] => False

/-- Forms of values that are given, and forms that are asked for. -/
def leAll : List Form → List Form → Bool
  | given, [] => given.all fun f ↦ f.le blank
  | f :: given, g :: asked => f.le g && leAll given asked
  | [], _ :: _ => false

theorem leAll_nil (given : List Form) : leAll given [] = given.all fun f ↦ f.le blank := by
  cases given <;> rfl

theorem AdmitsAll.handles_eq_nil {vs : List (Value H)} (h : AdmitsAll [] vs) :
    vs.flatMap Value.handles = [] :=
  List.flatMap_eq_nil_iff.mpr fun v hv ↦ h v hv

theorem AdmitsAll.mono {fs gs : List Form} {vs : List (Value H)}
    (h : List.Forall₂ Admits fs vs) (hle : leAll fs gs = true) : AdmitsAll gs vs := by
  induction h generalizing gs with
  | nil =>
    cases gs with
    | nil => simp [AdmitsAll]
    | cons g gs => cases hle
  | @cons f v fs vs hv hvs ih =>
    cases gs with
    | nil =>
      have hblank : ∀ f' ∈ f :: fs, f'.le blank = true := List.all_eq_true.mp hle
      intro w hw
      rcases List.mem_cons.mp hw with rfl | hw
      · exact hv.mono (hblank f (List.mem_cons_self ..))
      · have hrest : AdmitsAll [] vs :=
          ih (leAll_nil fs ▸ List.all_eq_true.mpr fun f' hf' ↦
            hblank f' (List.mem_cons_of_mem _ hf'))
        exact hrest w hw
    | cons g gs =>
      obtain ⟨hfg, hrest⟩ := Bool.and_eq_true_iff.mp hle
      exact ⟨hv.mono hfg, ih hrest⟩

theorem admitsAll_cons {f : Form} {fs : List Form} {vs : List (Value H)} :
    AdmitsAll (f :: fs) vs ↔ ∃ v rest, vs = v :: rest ∧ f.Admits v ∧ AdmitsAll fs rest := by
  cases vs with
  | nil => simp [AdmitsAll]
  | cons v vs => simp [AdmitsAll, and_assoc]

end Form

/-- The forms of the values that a production looks at, first to last. -/
def Production.expects : Production → List Form
  | .file | .declarationsDirective | .declarationsError => [.list]
  | .declarationsEntry | .metaListAppend => [.list, .handle]
  | .declarationsEmpty | .discard | .txnKeyword | .txnAsterisk | .fieldsEmpty | .optFlagNone
  | .optFlagAsterisk | .metaEmpty | .linesEmpty | .metaListEmpty | .currenciesEmpty | .bookingNone
  | .maybeNumberNone | .lotListEmpty | .lotMerge => []
  | .forward | .maybeNumberSome | .metaNumber | .metaAmount | .position | .lotCost => [.handle]
  | .txnFlag | .optFlagFlag => [.char]
  | .number | .metaString | .metaAccount | .metaDate | .metaCurrency | .metaTag | .metaBool
  | .currenciesFirst | .bookingSome | .lotDate | .lotLabel | .filename => [.text]
  | .add | .subtract | .multiply | .divide => [.handle, .blank, .handle]
  | .negate | .unaryPlus | .parens => [.blank, .handle]
  | .fieldString | .fieldLink | .fieldTag => [.fields, .text]
  | .fieldPipe => [.fields]
  | .transaction => [.text, .char, .fields, .blank, .lines]
  | .postingBare => [.blank, .optionalChar, .text]
  | .postingUnits => [.blank, .optionalChar, .text, .handle]
  | .postingPerUnitPrice | .postingTotalPrice =>
    [.blank, .optionalChar, .text, .handle, .blank, .handle]
  | .keyValue => [.blank, .text, .metadata]
  | .linesKeyValue | .linesPosting => [.lines, .handle]
  | .currenciesAppend => [.strings, .blank, .text]
  | .pushTag | .popTag | .includeFile | .plugin => [.blank, .text]
  | .openEntry => [.text, .blank, .text, .strings, .optionalText, .blank, .list]
  | .closeEntry | .commodity => [.text, .blank, .text, .blank, .list]
  | .pad | .event | .note | .document => [.text, .blank, .text, .text, .blank, .list]
  | .balance => [.text, .blank, .text, .pair, .blank, .list]
  | .price => [.text, .blank, .text, .handle, .blank, .list]
  | .amount | .amountExact => [.handle, .text]
  | .amountWithTolerance => [.handle, .blank, .handle, .text]
  | .compoundPerUnit => [.optionalHandle, .text]
  | .compoundWithTotal => [.optionalHandle, .blank, .optionalHandle, .text]
  | .positionWithLot => [.handle, .handle]
  | .lotSpec => [.blank, .components]
  | .lotListFirst => [.component]
  | .lotListComma | .lotListSlash => [.components, .blank, .component]
  | .optionSetting | .pluginWithConfig => [.blank, .text, .text]

/-- The form of the value of a production. -/
def Production.yields : Production → Form
  | .file | .declarationsEmpty | .declarationsDirective | .declarationsEntry | .declarationsError
  | .metaListEmpty | .metaListAppend => .list
  | .discard | .pushTag | .popTag | .optionSetting | .includeFile | .plugin | .pluginWithConfig =>
    .blank
  | .optFlagNone | .optFlagAsterisk | .optFlagFlag => .optionalChar
  | .txnKeyword | .txnFlag | .txnAsterisk => .char
  | .bookingNone | .bookingSome => .optionalText
  | .maybeNumberNone | .maybeNumberSome => .optionalHandle
  | .fieldsEmpty | .fieldString | .fieldLink | .fieldTag | .fieldPipe => .fields
  | .metaString | .metaAccount | .metaDate | .metaCurrency | .metaTag | .metaBool | .metaNumber
  | .metaAmount | .metaEmpty => .metadata
  | .linesEmpty | .linesKeyValue | .linesPosting => .lines
  | .currenciesEmpty | .currenciesFirst | .currenciesAppend => .strings
  | .amountExact | .amountWithTolerance => .pair
  | .lotListEmpty | .lotListFirst | .lotListComma | .lotListSlash => .components
  | .lotCost | .lotDate | .lotLabel | .lotMerge => .component
  | .filename => .text
  | _ => .handle

/-- The value that the plan comes to, if nothing is refused, has the form. -/
def Plan.Yields (f : Form) : Plan H → Prop
  | .keep v => f.Admits v
  | .warn _ v => f.Admits v
  | .construct _ => ∀ h : H, f.Admits (.handle h)
  | .measure _ tolerance? => ∀ h, f.Admits (.pair h tolerance?)
  | .declare _ => f.Admits (.nothing : Value H)

/-- From values of the forms that a production expects a plan can be made. -/
theorem exists_plan (p : Production) (origin : Provenance) {txnFlag? : Option Char}
    {vs : List (Value H)} (hvs : Form.AdmitsAll p.expects vs)
    (hflag : p.isPosting = true → txnFlag?.isSome = true) :
    ∃ plan args, (p.plan origin txnFlag?).run { pending := vs } = .ok (plan, args) ∧
      plan.Yields p.yields ∧ (args.unused ++ args.pending).flatMap Value.handles = [] := by
  -- The forms tell what the values are made of, and then the plan can be carried out.
  cases p <;> simp only [Production.expects, Form.admitsAll_cons, Form.Admits] at hvs
  case postingBare | postingUnits | postingPerUnitPrice | postingTotalPrice =>
    obtain ⟨flag, rfl⟩ := Option.isSome_iff_exists.mp (hflag rfl)
    casesm* _ ∧ _, ∃ _, _, _ ∨ _ <;> subst_vars
    all_goals
      refine ⟨_, _, rfl, fun h ↦ ⟨h, rfl⟩, ?_⟩
      simp_all [Value.handles, ‹Form.AdmitsAll [] _›.handles_eq_nil]
  all_goals
    try casesm* _ ∧ _, ∃ _, _, _ ∨ _
  all_goals
    subst_vars
    refine ⟨_, _, rfl, ?_, ?_⟩
    · first
        | exact ⟨_, rfl⟩
        | exact rfl
        | exact Or.inl rfl
        | exact Or.inr ⟨_, rfl⟩
        | exact ⟨_, _, rfl⟩
        | exact fun h ↦ ⟨h, rfl⟩
        | exact fun h ↦ ⟨h, _, rfl⟩
    · simp_all [Value.handles, ‹Form.AdmitsAll [] _›.handles_eq_nil]

/-- A plan comes to a value of its form, unless the interpretation refuses. -/
theorem Plan.Yields.perform {f : Form} {plan : Plan H} (h : plan.Yields f)
    (i : Interpretation H ε σ ω) (origin : Provenance) (s : Session σ) :
    (∃ v, (s.perform i origin plan).1 = .value v ∧ f.Admits v) ∨
      ∃ message, (s.perform i origin plan).1 = .rejected message := by
  cases plan with
  | keep v => exact Or.inl ⟨v, rfl, h⟩
  | warn message v => exact Or.inl ⟨v, rfl, h⟩
  | construct c =>
    cases hanswer : (i.construct c s.state).1 with
    | error reason =>
      exact Or.inr ⟨i.message reason, by simp [Session.perform, hanswer, Session.outcome]⟩
    | ok a => exact Or.inl ⟨_, by simp [Session.perform, hanswer, Session.outcome], h a⟩
  | measure c tolerance? =>
    cases hanswer : i.construct c s.state with
    | mk answer state =>
      cases answer with
      | error reason => exact Or.inr ⟨_, by rw [perform_measure_error i hanswer]⟩
      | ok a => exact Or.inl ⟨_, by rw [perform_measure_ok i hanswer], h a⟩
  | declare d =>
    cases hanswer : (i.declare d s.state).1 with
    | error reason =>
      exact Or.inr ⟨i.message reason, by simp [Session.perform, hanswer, Session.outcome]⟩
    | ok _ => exact Or.inl ⟨_, by simp [Session.perform, hanswer, Session.outcome], h⟩

/-! ## Forms of symbols -/

/-- What a token of the kind stands for. -/
def Form.ofTerminal : Terminal → Form
  | .flag => .char
  | .string | .account | .currency | .number | .date | .bool | .tag | .link | .key => .text
  | _ => .blank

/-- What a phrase of the category stands for. -/
def Category.form : Category → Form
  | .file | .declarations | .keyValueList => .list
  | .directive | .emptyLine | .eol | .pushTag | .popTag | .optionSetting | .includeFile
  | .plugin => .blank
  | .txn => .char
  | .txnFields => .fields
  | .optFlag => .optionalChar
  | .keyValueValue => .metadata
  | .postingOrKvList => .lines
  | .currencyList => .strings
  | .optBooking => .optionalText
  | .amountTolerance => .pair
  | .maybeNumber => .optionalHandle
  | .lotCompList => .components
  | .lotComp => .component
  | .filename => .text
  | .entry | .numberExpr | .transaction | .posting | .keyValue | .openEntry | .closeEntry
  | .commodity | .pad | .balance | .amount | .compoundAmount | .position | .lotSpec | .price
  | .event | .note | .document => .handle

def formOf : Symbol → Form
  | .terminal t => Form.ofTerminal t
  | .nonterminal n => ((Category.all[n]?).map Category.form).getD .blank

/-- The value has the form of the symbol. -/
def Typed (x : Symbol) (v : Value H) : Prop := (formOf x).Admits v

/-- The right-hand side has the forms that the production expects, and the phrase that of its
value. -/
def FitsForms (p : Rule Production) : Prop :=
  Form.leAll (p.rhs.map formOf) p.action.expects = true ∧
    p.action.yields.le (formOf (.nonterminal p.lhs)) = true

instance (p : Rule Production) : Decidable (FitsForms p) := by
  unfold FitsForms
  infer_instance

theorem fitsForms {k : Nat} {p : Rule Production} (h : grammar.rules[k]? = some p) :
    FitsForms p := by
  have hall : ∀ p ∈ grammar.rules, FitsForms p := by decide +kernel
  exact hall p (List.mem_of_getElem? h)

theorem typed_ofToken {t : Token} (h : t.Sound) :
    Typed (.terminal t.kind) (Value.ofToken t : Value H) := by
  obtain ⟨kind, payload, span⟩ := t
  cases kind
  case flag =>
    obtain ⟨c, rfl⟩ := h
    exact ⟨c, rfl⟩
  case string | account | currency | number | date | bool | tag | link | key =>
    obtain ⟨s, rfl⟩ := h
    exact ⟨s, rfl⟩
  all_goals cases payload <;> rfl

theorem typed_error : Typed (.terminal .error) (.nothing : Value H) := rfl

end Language

end PlainLedger
