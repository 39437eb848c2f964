import PlainLedger.Proofs.Language.Plan
import PlainLedger.Proofs.Machine.Image

/-!
# Images of parses

The language passes objects on and does not look at them. If an interpretation does what another one
does, with other objects, then a parse under the one is the image of the parse under the other.
-/

namespace PlainLedger.Language

variable {H K ε σ τ ω ψ : Type}

/-! ## Objects under a map -/

def TxnLine.map (f : H → K) : TxnLine H → TxnLine K
  | posting h => .posting (f h)
  | detail h => .detail (f h)

def LotComponent.map (f : H → K) : LotComponent H → LotComponent K
  | cost h => .cost (f h)
  | date text => .date text
  | label text => .label text
  | merge => .merge

def MetaValue.map (f : H → K) : MetaValue H → MetaValue K
  | string s => .string s
  | account s => .account s
  | date s => .date s
  | currency s => .currency s
  | tag s => .tag s
  | bool b => .bool b
  | number h => .number (f h)
  | amount h => .amount (f h)
  | empty => .empty

def Value.map (f : H → K) : Value H → Value K
  | nothing => .nothing
  | char c => .char c
  | text s => .text s
  | handle h => .handle (f h)
  | pair amount tolerance? => .pair (f amount) (tolerance?.map f)
  | list hs => .list (hs.map f)
  | lines xs => .lines (xs.map (TxnLine.map f))
  | strings xs => .strings xs
  | fields x => .fields x
  | component x => .component (x.map f)
  | components xs => .components (xs.map (LotComponent.map f))
  | metadata m => .metadata (m.map f)

def PostingParts.map (f : H → K) (p : PostingParts H) : PostingParts K :=
  ⟨p.account, p.position?.map f, p.price?.map f, p.totalPrice, p.flag?, p.txnFlag⟩

def Statement.map (f : H → K) : Statement H → Statement K
  | openAccount account currencies booking? => .openAccount account currencies booking?
  | closeAccount account => .closeAccount account
  | commodity currency => .commodity currency
  | pad account source => .pad account source
  | balance account amount tolerance? => .balance account (f amount) (tolerance?.map f)
  | price currency amount => .price currency (f amount)
  | event topic description => .event topic description
  | note account comment => .note account comment
  | document account filename => .document account filename

def Construction.map (f : H → K) : Construction H → Construction K
  | number text => .number text
  | binary op lhs rhs => .binary op (f lhs) (f rhs)
  | negate value => .negate (f value)
  | amount n currency => .amount (f n) currency
  | compoundAmount perUnit? total? currency =>
    .compoundAmount (perUnit?.map f) (total?.map f) currency
  | lotSpec components => .lotSpec (components.map (LotComponent.map f))
  | position origin units lot? => .position origin (f units) (lot?.map f)
  | keyValue key value => .keyValue key (value.map f)
  | posting origin parts => .posting origin (parts.map f)
  | transaction origin date flag fields lines =>
    .transaction origin date flag fields (lines.map (TxnLine.map f))
  | statement origin date body details? =>
    .statement origin date (body.map f) (details?.map (List.map f))

def Plan.map (f : H → K) : Plan H → Plan K
  | keep v => .keep (v.map f)
  | warn message v => .warn message (v.map f)
  | construct c => .construct (c.map f)
  | measure c tolerance? => .measure (c.map f) (tolerance?.map f)
  | declare d => .declare d

def Args.map (f : H → K) (a : Args H) : Args K :=
  ⟨a.pending.map (Value.map f), a.unused.map (Value.map f)⟩

def Parsed.map (w : ω → ψ) : Parsed ω → Parsed ψ
  | complete whole ds => .complete (w whole) ds
  | failed cause ds => .failed cause ds
  | unfinished => .unfinished

def Session.map (g : σ → τ) (s : Session σ) : Session τ := ⟨g s.state, s.diagnostics⟩

/-! ## Places under a map -/

def Construction.relocate (g : Provenance → Provenance) : Construction H → Construction H
  | position origin units lot? => .position (g origin) units lot?
  | posting origin parts => .posting (g origin) parts
  | transaction origin date flag fields lines => .transaction (g origin) date flag fields lines
  | statement origin date body details? => .statement (g origin) date body details?
  | c => c

def Declaration.relocate (g : Provenance → Provenance) : Declaration → Declaration
  | option origin key value => .option (g origin) key value
  | includeFile origin filename => .includeFile (g origin) filename
  | plugin origin name config? => .plugin (g origin) name config?
  | d => d

def Plan.relocate (g : Provenance → Provenance) : Plan H → Plan H
  | construct c => .construct (c.relocate g)
  | measure c tolerance? => .measure (c.relocate g) tolerance?
  | declare d => .declare (d.relocate g)
  | plan => plan

/-! ## The objects held -/

section Handles

variable (f : H → K)

@[simp] theorem TxnLine.handles_map (x : TxnLine H) : (x.map f).handles = x.handles.map f := by
  cases x <;> rfl

@[simp] theorem LotComponent.handles_map (x : LotComponent H) :
    (x.map f).handles = x.handles.map f := by
  cases x <;> rfl

@[simp] theorem MetaValue.handles_map (m : MetaValue H) :
    (m.map f).handles = m.handles.map f := by
  cases m <;> rfl

theorem flatMap_handles_map {A B : Type} {hs : A → List H} {ks : B → List K} {g : A → B}
    (h : ∀ x, ks (g x) = (hs x).map f) (xs : List A) :
    (xs.map g).flatMap ks = (xs.flatMap hs).map f := by
  rw [List.flatMap_map, List.map_flatMap]
  exact congrArg (List.flatMap · xs) (funext h)

@[simp] theorem Value.handles_map (v : Value H) : (v.map f).handles = v.handles.map f := by
  cases v with
  | pair amount tolerance? => cases tolerance? <;> rfl
  | lines xs => exact flatMap_handles_map f (TxnLine.handles_map f) xs
  | components xs => exact flatMap_handles_map f (LotComponent.handles_map f) xs
  | component x => exact x.handles_map f
  | metadata m => exact m.handles_map f
  | _ => rfl

@[simp] theorem Construction.handles_map (c : Construction H) :
    (c.map f).handles = c.handles.map f := by
  cases c with
  | compoundAmount perUnit? total? currency => cases perUnit? <;> cases total? <;> rfl
  | lotSpec components => exact flatMap_handles_map f (LotComponent.handles_map f) components
  | position origin units lot? => cases lot? <;> rfl
  | keyValue key value => exact value.handles_map f
  | posting origin parts =>
    obtain ⟨account, position?, price?, total, flag?, txnFlag⟩ := parts
    cases position? <;> cases price? <;> rfl
  | transaction origin date flag fields lines =>
    exact flatMap_handles_map f (TxnLine.handles_map f) lines
  | statement origin date body details? =>
    have hbody : (body.map f).handles = body.handles.map f := by
      cases body with
      | balance account amount tolerance? => cases tolerance? <;> rfl
      | _ => rfl
    rw [Construction.map, Construction.handles, hbody, Construction.handles, List.map_append]
    cases details? <;> rfl
  | _ => rfl

@[simp] theorem Value.shape_map (v : Value H) : (v.map f).shape = v.shape := by
  cases v <;> rfl

@[simp] theorem Value.map_ofToken (t : Token) :
    (Value.ofToken t : Value H).map f = Value.ofToken t := by
  unfold ofToken
  cases t.payload <;> rfl

end Handles

/-! ## The identity -/

section Identity

@[simp] theorem TxnLine.map_id : (TxnLine.map id : TxnLine H → TxnLine H) = id := by
  funext x
  cases x <;> rfl

@[simp] theorem LotComponent.map_id :
    (LotComponent.map id : LotComponent H → LotComponent H) = id := by
  funext x
  cases x <;> rfl

@[simp] theorem MetaValue.map_id (m : MetaValue H) : m.map id = m := by
  cases m <;> rfl

@[simp] theorem PostingParts.map_id (p : PostingParts H) : p.map id = p := by
  simp [PostingParts.map]

@[simp] theorem Statement.map_id (s : Statement H) : s.map id = s := by
  cases s <;> simp [Statement.map]

@[simp] theorem Construction.map_id (c : Construction H) : c.map id = c := by
  cases c <;> simp [Construction.map]

@[simp] theorem Construction.relocate_id (c : Construction H) : c.relocate id = c := by
  cases c <;> rfl

@[simp] theorem Declaration.relocate_id (d : Declaration) : d.relocate id = d := by
  cases d <;> rfl

@[simp] theorem Plan.relocate_id (plan : Plan H) : plan.relocate id = plan := by
  cases plan <;> simp [Plan.relocate]

@[simp] theorem Parsed.map_id (p : Parsed ω) : p.map id = p := by
  cases p <;> rfl

end Identity

/-! ## Maps one after the other -/

section Composition

variable {L : Type} (f : H → K) (g : K → L)

@[simp] theorem TxnLine.map_map (x : TxnLine H) : (x.map f).map g = x.map (g ∘ f) := by
  cases x <;> rfl

@[simp] theorem LotComponent.map_map (x : LotComponent H) : (x.map f).map g = x.map (g ∘ f) := by
  cases x <;> rfl

@[simp] theorem MetaValue.map_map (m : MetaValue H) : (m.map f).map g = m.map (g ∘ f) := by
  cases m <;> rfl

@[simp] theorem PostingParts.map_map (p : PostingParts H) : (p.map f).map g = p.map (g ∘ f) := by
  simp [PostingParts.map]

@[simp] theorem Statement.map_map (s : Statement H) : (s.map f).map g = s.map (g ∘ f) := by
  cases s <;> simp [Statement.map]

@[simp] theorem Construction.map_map (c : Construction H) : (c.map f).map g = c.map (g ∘ f) := by
  cases c <;> simp [Construction.map]

theorem Construction.map_relocate (move : Provenance → Provenance) (c : Construction H) :
    (c.relocate move).map f = (c.map f).relocate move := by
  cases c <;> rfl

end Composition

/-! ## Maps that agree -/

section Congruence

variable {f g : H → K}

theorem TxnLine.map_congr {x : TxnLine H} (h : ∀ a ∈ x.handles, f a = g a) : x.map f = x.map g := by
  cases x <;> simp_all [map, handles]

theorem LotComponent.map_congr {x : LotComponent H} (h : ∀ a ∈ x.handles, f a = g a) :
    x.map f = x.map g := by
  cases x <;> simp_all [map, handles]

theorem MetaValue.map_congr {m : MetaValue H} (h : ∀ a ∈ m.handles, f a = g a) :
    m.map f = m.map g := by
  cases m <;> simp_all [map, handles]

theorem PostingParts.map_congr {p : PostingParts H} (h : ∀ a ∈ p.handles, f a = g a) :
    p.map f = p.map g := by
  obtain ⟨account, position?, price?, total, flag?, txnFlag⟩ := p
  cases position? <;> cases price? <;> simp_all [map, handles]

theorem Statement.map_congr {s : Statement H} (h : ∀ a ∈ s.handles, f a = g a) :
    s.map f = s.map g := by
  cases s with
  | balance account amount tolerance? => cases tolerance? <;> simp_all [map, handles]
  | _ => simp_all [map, handles]

/-- Requests are the same if the objects in them are. -/
theorem Construction.map_congr {c : Construction H} (h : ∀ a ∈ c.handles, f a = g a) :
    c.map f = c.map g := by
  cases c with
  | compoundAmount perUnit? total? currency =>
    cases perUnit? <;> cases total? <;> simp_all [map, handles]
  | lotSpec components =>
    refine congrArg lotSpec (List.map_congr_left fun x hx ↦ ?_)
    exact LotComponent.map_congr fun a ha ↦ h a (List.mem_flatMap.mpr ⟨x, hx, ha⟩)
  | position origin units lot? => cases lot? <;> simp_all [map, handles]
  | keyValue key value => exact congrArg (keyValue key) (MetaValue.map_congr h)
  | posting origin parts => exact congrArg (posting origin) (PostingParts.map_congr h)
  | transaction origin date flag fields lines =>
    refine congrArg (transaction origin date flag fields) (List.map_congr_left fun x hx ↦ ?_)
    exact TxnLine.map_congr fun a ha ↦ h a (List.mem_flatMap.mpr ⟨x, hx, ha⟩)
  | statement origin date body details? =>
    have hbody := Statement.map_congr (f := f) (g := g) fun a ha ↦ h a (List.mem_append_left _ ha)
    cases details? with
    | none => exact congrArg (statement origin date · none) hbody
    | some hs =>
      have hdetails : hs.map f = hs.map g :=
        List.map_congr_left fun a ha ↦ h a (List.mem_append_right _ ha)
      simp only [map, hbody, Option.map_some, hdetails]
  | _ => simp_all [map, handles]

end Congruence

/-! ## Taking values -/

namespace Take

variable {β γ β' γ' : Type} {f : H → K}

/-- From the images of values the image of the result is taken. -/
def Maps (f : H → K) (g : β → γ) (m : Take H β) (m' : Take K γ) : Prop :=
  ∀ a, m'.run (a.map f) = (m.run a).map fun out ↦ (g out.1, out.2.map f)

theorem maps_pure {g : β → γ} {b : β} {c : γ} (h : c = g b) :
    Maps f g (pure b : Take H β) (pure c) := by
  intro a
  subst h
  rfl

theorem maps_bind {g : β → γ} {g' : β' → γ'} {m : Take H β} {m' : Take K γ} {k : β → Take H β'}
    {k' : γ → Take K γ'} (h : Maps f g m m') (hk : ∀ b, Maps f g' (k b) (k' (g b))) :
    Maps f g' (m >>= k) (m' >>= k') := by
  intro a
  rw [StateT.run_bind, StateT.run_bind, h a]
  cases m.run a with
  | error misfit => rfl
  | ok out => exact hk out.1 out.2

theorem maps_throw {g : β → γ} (misfit : Misfit) :
    Maps f g (throw misfit : Take H β) (throw misfit) := by
  intro a
  rfl

theorem maps_next : Maps f (Value.map f) (next (H := H)) next := by
  intro a
  obtain ⟨pending, unused⟩ := a
  cases pending <;> rfl

theorem maps_skip : Maps f id (skip (H := H)) skip := by
  refine maps_bind maps_next fun v a ↦ ?_
  have hunused : (a.unused ++ [v]).map (Value.map f) =
      a.unused.map (Value.map f) ++ [v.map f] := List.map_append
  exact congrArg (fun unused ↦ Except.ok ((), Args.mk (a.pending.map (Value.map f)) unused))
    hunused.symm

theorem maps_shaped {g : β → γ} {expected : String} {pick : Value H → Option β}
    {pick' : Value K → Option γ} (h : ∀ v, pick' (v.map f) = (pick v).map g) :
    Maps f g (shaped expected pick) (shaped expected pick') := by
  refine maps_bind maps_next fun v ↦ ?_
  rw [h v, Value.shape_map]
  cases pick v with
  | none => exact maps_throw _
  | some b => exact maps_pure rfl

theorem maps_text : Maps f id (text (H := H)) text := maps_shaped fun v ↦ by cases v <;> rfl

theorem maps_optionalText : Maps f id (optionalText (H := H)) optionalText :=
  maps_shaped fun v ↦ by cases v <;> rfl

theorem maps_char : Maps f id (char (H := H)) char := maps_shaped fun v ↦ by cases v <;> rfl

theorem maps_optionalChar : Maps f id (optionalChar (H := H)) optionalChar :=
  maps_shaped fun v ↦ by cases v <;> rfl

theorem maps_handle : Maps f f handle handle := maps_shaped fun v ↦ by cases v <;> rfl

theorem maps_optionalHandle : Maps f (Option.map f) optionalHandle optionalHandle :=
  maps_shaped fun v ↦ by cases v <;> rfl

theorem maps_pair : Maps f (Prod.map f (Option.map f)) pair pair :=
  maps_shaped fun v ↦ by cases v <;> rfl

theorem maps_list : Maps f (List.map f) list list := maps_shaped fun v ↦ by cases v <;> rfl

theorem maps_details : Maps f (Option.map (List.map f)) details details := by
  refine maps_bind maps_list fun hs ↦ maps_pure ?_
  cases hs <;> rfl

theorem maps_lines : Maps f (List.map (TxnLine.map f)) lines lines :=
  maps_shaped fun v ↦ by cases v <;> rfl

theorem maps_strings : Maps f id (strings (H := H)) strings :=
  maps_shaped fun v ↦ by cases v <;> rfl

theorem maps_fields : Maps f id (fields (H := H)) fields := maps_shaped fun v ↦ by cases v <;> rfl

theorem maps_component : Maps f (LotComponent.map f) component component :=
  maps_shaped fun v ↦ by cases v <;> rfl

theorem maps_components : Maps f (List.map (LotComponent.map f)) components components :=
  maps_shaped fun v ↦ by cases v <;> rfl

theorem maps_metadata : Maps f (MetaValue.map f) metadata metadata :=
  maps_shaped fun v ↦ by cases v <;> rfl

section Plans

variable {g : Provenance → Provenance}

theorem maps_binary {op : Operator} :
    Maps f (fun plan ↦ (plan.map f).relocate g) (binary op) (binary op) :=
  maps_bind maps_handle fun _ ↦ maps_bind maps_skip fun _ ↦ maps_bind maps_handle fun _ ↦
    maps_pure rfl

theorem maps_posting {origin : Provenance} {txnFlag? : Option Char} {totalPrice : Bool}
    {parts : Take H (Option H × Option H)} {parts' : Take K (Option K × Option K)}
    (h : Maps f (Prod.map (Option.map f) (Option.map f)) parts parts') :
    Maps f (fun plan ↦ (plan.map f).relocate g) (posting origin txnFlag? totalPrice parts)
      (posting (g origin) txnFlag? totalPrice parts') := by
  unfold posting
  cases txnFlag? with
  | none => exact maps_throw _
  | some txnFlag =>
    exact maps_bind maps_skip fun _ ↦ maps_bind maps_optionalChar fun _ ↦
      maps_bind maps_text fun _ ↦ maps_bind h fun _ ↦ maps_pure rfl

theorem maps_priced :
    Maps f (Prod.map (Option.map f) (Option.map f)) priced priced :=
  maps_bind maps_handle fun _ ↦ maps_bind maps_skip fun _ ↦ maps_bind maps_handle fun _ ↦
    maps_pure rfl

theorem maps_dated {origin : Provenance} {body : Take H (Statement H)}
    {body' : Take K (Statement K)} (h : Maps f (Statement.map f) body body') :
    Maps f (fun plan ↦ (plan.map f).relocate g) (dated origin body) (dated (g origin) body') :=
  maps_bind maps_text fun _ ↦ maps_bind maps_skip fun _ ↦ maps_bind h fun _ ↦
    maps_bind maps_skip fun _ ↦ maps_bind maps_details fun _ ↦ maps_pure rfl

end Plans

end Take

open Take

/-- The plan for a phrase depends on what objects are and on where the phrase begins in passing them
on only. -/
theorem maps_plan_relocate (f : H → K) (g : Provenance → Provenance) (p : Production)
    (origin : Provenance) (txnFlag? : Option Char) :
    Maps f (fun plan ↦ (plan.map f).relocate g) (p.plan origin txnFlag?)
      (p.plan (g origin) txnFlag?) := by
  cases p
  case add | subtract | multiply | divide => exact maps_binary
  case postingBare => exact maps_posting (maps_pure rfl)
  case postingUnits => exact maps_posting (maps_bind maps_handle fun _ ↦ maps_pure rfl)
  case postingPerUnitPrice | postingTotalPrice => exact maps_posting maps_priced
  case openEntry =>
    exact maps_dated (maps_bind maps_text fun _ ↦ maps_bind maps_strings fun _ ↦
      maps_bind maps_optionalText fun _ ↦ maps_pure rfl)
  case closeEntry | commodity => exact maps_dated (maps_bind maps_text fun _ ↦ maps_pure rfl)
  case pad | event | note | document =>
    exact maps_dated (maps_bind maps_text fun _ ↦ maps_bind maps_text fun _ ↦ maps_pure rfl)
  case balance =>
    exact maps_dated (maps_bind maps_text fun _ ↦ maps_bind maps_pair fun _ ↦ maps_pure rfl)
  case price =>
    exact maps_dated (maps_bind maps_text fun _ ↦ maps_bind maps_handle fun _ ↦ maps_pure rfl)
  case file | declarationsDirective | declarationsError | forward | maybeNumberSome =>
    exact maps_bind maps_next fun _ ↦ maps_pure rfl
  case declarationsEntry | metaListAppend =>
    exact maps_bind maps_list fun _ ↦ maps_bind maps_handle fun _ ↦
      maps_pure (by simp [Plan.relocate, Plan.map, Value.map])
  case txnFlag | optFlagFlag => exact maps_bind maps_char fun _ ↦ maps_pure rfl
  case number | metaString | metaAccount | metaDate | metaCurrency | metaTag | metaBool
      | currenciesFirst | bookingSome | filename | lotDate | lotLabel =>
    exact maps_bind maps_text fun _ ↦ maps_pure rfl
  case metaNumber | metaAmount | position | lotCost =>
    exact maps_bind maps_handle fun _ ↦ maps_pure rfl
  case negate => exact maps_bind maps_skip fun _ ↦ maps_bind maps_handle fun _ ↦ maps_pure rfl
  case unaryPlus | parens =>
    exact maps_bind maps_skip fun _ ↦ maps_bind maps_next fun _ ↦ maps_pure rfl
  case fieldString | fieldLink | fieldTag =>
    exact maps_bind maps_fields fun _ ↦ maps_bind maps_text fun _ ↦ maps_pure rfl
  case fieldPipe => exact maps_bind maps_fields fun _ ↦ maps_pure rfl
  case transaction =>
    exact maps_bind maps_text fun _ ↦ maps_bind maps_char fun _ ↦ maps_bind maps_fields fun _ ↦
      maps_bind maps_skip fun _ ↦ maps_bind maps_lines fun _ ↦ maps_pure rfl
  case keyValue =>
    exact maps_bind maps_skip fun _ ↦ maps_bind maps_text fun _ ↦ maps_bind maps_metadata fun _ ↦
      maps_pure rfl
  case linesKeyValue | linesPosting =>
    exact maps_bind maps_lines fun _ ↦ maps_bind maps_handle fun _ ↦
      maps_pure (by simp [Plan.relocate, Plan.map, Value.map, TxnLine.map])
  case currenciesAppend =>
    exact maps_bind maps_strings fun _ ↦ maps_bind maps_skip fun _ ↦ maps_bind maps_text fun _ ↦
      maps_pure rfl
  case pushTag | popTag | includeFile | plugin =>
    exact maps_bind maps_skip fun _ ↦ maps_bind maps_text fun _ ↦ maps_pure rfl
  case optionSetting | pluginWithConfig =>
    exact maps_bind maps_skip fun _ ↦ maps_bind maps_text fun _ ↦ maps_bind maps_text fun _ ↦
      maps_pure rfl
  case amount | amountExact =>
    exact maps_bind maps_handle fun _ ↦ maps_bind maps_text fun _ ↦ maps_pure rfl
  case amountWithTolerance =>
    exact maps_bind maps_handle fun _ ↦ maps_bind maps_skip fun _ ↦ maps_bind maps_handle fun _ ↦
      maps_bind maps_text fun _ ↦ maps_pure rfl
  case compoundPerUnit =>
    exact maps_bind maps_optionalHandle fun _ ↦ maps_bind maps_text fun _ ↦ maps_pure rfl
  case compoundWithTotal =>
    exact maps_bind maps_optionalHandle fun _ ↦ maps_bind maps_skip fun _ ↦
      maps_bind maps_optionalHandle fun _ ↦ maps_bind maps_text fun _ ↦ maps_pure rfl
  case positionWithLot =>
    exact maps_bind maps_handle fun _ ↦ maps_bind maps_handle fun _ ↦ maps_pure rfl
  case lotSpec =>
    exact maps_bind maps_skip fun _ ↦ maps_bind maps_components fun _ ↦ maps_pure rfl
  case lotListFirst => exact maps_bind maps_component fun _ ↦ maps_pure rfl
  case lotListComma | lotListSlash =>
    exact maps_bind maps_components fun _ ↦ maps_bind maps_skip fun _ ↦
      maps_bind maps_component fun _ ↦ maps_pure (by simp [Plan.relocate, Plan.map, Value.map])
  all_goals exact maps_pure rfl

theorem maps_plan (f : H → K) (p : Production) (origin : Provenance) (txnFlag? : Option Char) :
    Maps f (Plan.map f) (p.plan origin txnFlag?) (p.plan origin txnFlag?) := by
  have hplan := maps_plan_relocate f id p origin txnFlag?
  simp only [Plan.relocate_id] at hplan
  exact hplan

/-! ## Parses -/

/-- Why a text is given up that does not come to a list. -/
def strayCause (v : Value H) : Abort :=
  .defect (.inReducer ("start symbol reduced to " ++ v.shape ++ " instead of an entry list"))

/-- The session once such a text has been given up. -/
def Session.stray (i : Interpretation H ε σ ω) (ctx : Context) (v : Value H) (s : Session σ) :
    Session σ :=
  (s.releaseAll i v.handles).report i ⟨ctx.file, Line.clamp 0, .fatal, (strayCause v).message⟩

/-- `j` answers as `i` does, up to the objects and to what is remembered. -/
structure Interpretation.Maps (i : Interpretation H ε σ ω) (j : Interpretation K ε τ ψ)
    (f : H → K) (g : σ → τ) (w : ω → ψ) : Prop where
  construct : ∀ c s, j.construct (c.map f) (g s) =
    ((i.construct c s).1.map f, g (i.construct c s).2)
  declare : ∀ d s, j.declare d (g s) = ((i.declare d s).1, g (i.declare d s).2)
  report : ∀ d s, j.report d (g s) = g (i.report d s)
  release : ∀ h s, j.release (f h) (g s) = g (i.release h s)
  finish : ∀ hs s, j.finish (hs.map f) (g s) = (w (i.finish hs s).1, g (i.finish hs s).2)
  message : ∀ x, j.message x = i.message x

section Maps

variable {i : Interpretation H ε σ ω} {j : Interpretation K ε τ ψ} {f : H → K} {g : σ → τ}
  {w : ω → ψ} (h : i.Maps j f g w)

include h

theorem report_map (d : Diagnostic) (s : Session σ) :
    (s.map g).report j d = (s.report i d).map g :=
  congrArg (Session.mk · (s.diagnostics.push d)) (h.report d s.state)

theorem releaseAll_map (hs : List H) (s : Session σ) :
    (s.map g).releaseAll j (hs.map f) = (s.releaseAll i hs).map g := by
  have hfold : ∀ (hs : List H) (state : σ),
      (hs.map f).foldl (fun state h ↦ j.release h state) (g state) =
        g (hs.foldl (fun state h ↦ i.release h state) state) := by
    intro hs
    induction hs with
    | nil => exact fun _ ↦ rfl
    | cons x hs ih =>
      intro state
      rw [List.map_cons, List.foldl_cons, List.foldl_cons, h.release]
      exact ih _
  exact congrArg (Session.mk · s.diagnostics) (hfold hs s.state)

theorem perform_map (origin : Provenance) (s : Session σ) (plan : Plan H) :
    (s.map g).perform j origin (plan.map f) =
      ((s.perform i origin plan).1.map (Value.map f), (s.perform i origin plan).2.map g) := by
  cases plan with
  | keep v => rfl
  | warn message v => exact congrArg _ (report_map h _ s)
  | construct c =>
    have hconstruct := h.construct c s.state
    simp only [Plan.map, Session.perform, Session.map, hconstruct]
    cases (i.construct c s.state).1 with
    | error reason => simp [Session.outcome, Verdict.map, h.message, Except.map]
    | ok a => rfl
  | measure c tolerance? =>
    have hconstruct := h.construct c s.state
    cases hanswer : i.construct c s.state with
    | mk answer state =>
      rw [hanswer] at hconstruct
      cases answer with
      | ok a =>
        rw [perform_measure_ok i hanswer, Plan.map, perform_measure_ok j hconstruct]
        rfl
      | error reason =>
        have hrelease := releaseAll_map h tolerance?.toList { s with state }
        rw [perform_measure_error i hanswer, Plan.map, perform_measure_error j hconstruct,
          h.message, ← hrelease]
        cases tolerance? <;> rfl
  | declare d =>
    have hdeclare := h.declare d s.state
    simp only [Plan.map, Session.perform, Session.map, hdeclare]
    cases (i.declare d s.state).1 with
    | error reason => simp [Session.outcome, Verdict.map, h.message]
    | ok _ => rfl

omit h in
theorem txnFlag?_map (p : Production) (below : List (Slot (Value H))) :
    txnFlag? p (below.map (Slot.map (Value.map f))) = txnFlag? p below := by
  unfold txnFlag?
  rw [List.getElem?_map]
  split
  · cases below[3]? with
    | none => rfl
    | some x =>
      obtain ⟨state, value, span⟩ := x
      cases value <;> rfl
  · rfl

/-- What is made of a phrase does not depend on what the objects are. -/
theorem maps_reducer (ctx : Context) :
    (reducer i ctx).Maps (reducer j ctx) (Value.map f) (Session.map g) where
  blank := rfl
  ofToken t s := congrArg (·, s.map g) (Value.map_ofToken f t).symm
  report d s := report_map h d s
  release v s := by
    have hrelease := releaseAll_map h v.handles s
    rw [← Value.handles_map] at hrelease
    exact hrelease
  reduce p red s := by
    have hplan := maps_plan f p (ctx.provenance red.span) (txnFlag? p red.below)
      { pending := red.values }
    have hhandles : ∀ vs : List (Value H), (vs.map (Value.map f)).flatMap Value.handles =
        (vs.flatMap Value.handles).map f := flatMap_handles_map f (Value.handles_map f)
    unfold reducer
    dsimp only
    rw [show (red.map (Value.map f)).below = red.below.map (Slot.map (Value.map f)) from rfl,
      txnFlag?_map, show (red.map (Value.map f)).span = red.span from rfl,
      show (red.map (Value.map f)).values = red.values.map (Value.map f) from rfl, hhandles,
      releaseAll_map h]
    rw [Args.map, List.map_nil] at hplan
    rw [hplan]
    cases (p.plan (ctx.provenance red.span) (txnFlag? p red.below)).run
        { pending := red.values } with
    | error misfit => rfl
    | ok out =>
      obtain ⟨plan, args⟩ := out
      dsimp only [Except.map, Args.map]
      rw [← List.map_append, hhandles, releaseAll_map h, perform_map h]

omit h in
/-- A text that does not come to a list is given up. -/
theorem conclude_of_ne_list (i : Interpretation H ε σ ω) (ctx : Context) {v : Value H}
    (hv : ∀ hs, v ≠ .list hs) (c : Config (Value H) (Session σ)) :
    conclude i ctx (.accepted v, c) =
      (.failed (strayCause v) (c.memory.stray i ctx v).diagnostics.toList,
        (c.memory.stray i ctx v).state) := by
  cases v with
  | list hs => exact (hv hs rfl).elim
  | _ => rfl

theorem stray_map (ctx : Context) (v : Value H) (s : Session σ) :
    (s.map g).stray j ctx (v.map f) = (s.stray i ctx v).map g := by
  unfold Session.stray strayCause
  rw [Value.handles_map, Value.shape_map, releaseAll_map h, report_map h]

theorem conclude_map (ctx : Context) (out : Outcome (Value H) × Config (Value H) (Session σ)) :
    conclude j ctx (out.1.map (Value.map f), out.2.map (Value.map f) (Session.map g)) =
      ((conclude i ctx out).1.map w, g (conclude i ctx out).2) := by
  obtain ⟨outcome, c⟩ := out
  cases outcome with
  | aborted cause => rfl
  | unfinished => rfl
  | accepted v =>
    by_cases hv : ∃ hs, v = .list hs
    · obtain ⟨hs, rfl⟩ := hv
      have hfinish := h.finish hs c.memory.state
      simp only [conclude, Outcome.map, Value.map, Config.map, Session.map, hfinish]
      rfl
    · have himage : ∀ hs, v.map f ≠ .list hs := by
        intro hs hlist
        cases v <;> cases hlist
        exact hv ⟨_, rfl⟩
      have hcause : strayCause (v.map f) = strayCause v := by
        unfold strayCause
        rw [Value.shape_map]
      rw [Outcome.map, conclude_of_ne_list i ctx (fun hs h ↦ hv ⟨hs, h⟩),
        conclude_of_ne_list j ctx himage, hcause]
      dsimp only [Config.map]
      rw [stray_map h]
      rfl

/-- A parse does not depend on what the objects are. -/
theorem parse_map (ctx : Context) (options : Options) (tokens : List Token) (state : σ) :
    parse j ctx options tokens (g state) =
      ((parse i ctx options tokens state).1.map w, g (parse i ctx options tokens state).2) := by
  have hrun := Engine.run_map (maps_reducer h ctx) (engine ctx options) (stepBudget tokens.length)
    tokens ⟨state, #[]⟩
  have hconclude := conclude_map h ctx (run i ctx options tokens state)
  unfold parse run at *
  rw [← hconclude, ← hrun]
  rfl

end Maps

/-! ## What every call keeps -/

section Keeps

variable {i : Interpretation H ε σ ω} {J : σ → Prop}

/-- Every call keeps what `J` says of the state. -/
structure Interpretation.Keeps (i : Interpretation H ε σ ω) (J : σ → Prop) : Prop where
  construct : ∀ c s, J s → J (i.construct c s).2
  declare : ∀ d s, J s → J (i.declare d s).2
  report : ∀ d s, J s → J (i.report d s)
  release : ∀ h s, J s → J (i.release h s)
  finish : ∀ hs s, J s → J (i.finish hs s).2

/-- The same interpretation, on the states that `J` holds of. -/
def Interpretation.keeping (i : Interpretation H ε σ ω) (h : i.Keeps J) :
    Interpretation H ε { s // J s } ω where
  construct c s := ((i.construct c s.1).1, ⟨(i.construct c s.1).2, h.construct c s.1 s.2⟩)
  declare d s := ((i.declare d s.1).1, ⟨(i.declare d s.1).2, h.declare d s.1 s.2⟩)
  report d s := ⟨i.report d s.1, h.report d s.1 s.2⟩
  release x s := ⟨i.release x s.1, h.release x s.1 s.2⟩
  finish hs s := ((i.finish hs s.1).1, ⟨(i.finish hs s.1).2, h.finish hs s.1 s.2⟩)
  message := i.message

theorem maps_keeping (h : i.Keeps J) : (i.keeping h).Maps i id Subtype.val id where
  construct c s := by
    rw [Construction.map_id]
    have hid : (i.construct c s.1).1.map id = (i.construct c s.1).1 := by
      cases (i.construct c s.1).1 <;> rfl
    exact Prod.ext hid.symm rfl
  declare _ _ := rfl
  report _ _ := rfl
  release _ _ := rfl
  finish hs s := by
    rw [List.map_id]
    rfl
  message _ := rfl

/-- What every call keeps, a parse keeps. -/
theorem parse_keeps (h : i.Keeps J) (ctx : Context) (options : Options) (tokens : List Token)
    {state : σ} (hstate : J state) : J (parse i ctx options tokens state).2 := by
  have hparse := parse_map (maps_keeping h) ctx options tokens ⟨state, hstate⟩
  -- what is compared are the two results, and not how they come about
  have hstates : ∀ {p : Parsed ω × σ} {q : Parsed ω × { s // J s }},
      p = (q.1.map id, q.2.1) → J p.2 := by
    rintro p q rfl
    exact q.2.2
  exact hstates hparse

end Keeps

end PlainLedger.Language
