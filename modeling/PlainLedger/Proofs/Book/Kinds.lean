import PlainLedger.Book.Build
import PlainLedger.Proofs.Language.Form

/-!
# Kinds of nodes

Nothing in the language says what kind of node a handle stands for. Yet every phrase stands for
nodes of one kind, a production is only given phrases of the kinds that its request is about, and
what is made on request is of the kind that the phrase stands for. So the kinds of nodes always
fit, and no request is refused on their account.
-/

namespace PlainLedger

open PlainLedger.Language

namespace BookError

/-- A node of the wrong kind, or the price of all units where there are none. -/
def Misplaced : BookError → Prop
  | unexpectedNode .. => True
  | totalPriceWithoutUnits => True
  | _ => False

/-- If something is refused, it is not for the kind of a node. -/
def InPlace {α : Type} (x : Except BookError α) : Prop := ∀ e, x = .error e → ¬e.Misplaced

section InPlace

variable {α β : Type} {x : Except BookError α}

theorem inPlace_ok (a : α) : InPlace (.ok a) := nofun

theorem inPlace_bind {f : α → Except BookError β} (hx : InPlace x)
    (hf : ∀ a, x = .ok a → InPlace (f a)) : InPlace (x >>= f) := by
  cases x with
  | error e => exact fun e' h ↦ hx e' (by cases h; rfl)
  | ok a => exact hf a rfl

theorem exists_of_bind_ok {f : α → Except BookError β} {b : β} (h : x >>= f = .ok b) :
    ∃ a, x = .ok a ∧ f a = .ok b := by
  cases x with
  | error e => cases h
  | ok a => exact ⟨a, rfl, h⟩

theorem inPlace_map {f : α → β} (hx : InPlace x) : InPlace (x.map f) := by
  cases x with
  | error e => exact fun e' h ↦ hx e' (by cases h; rfl)
  | ok a => exact inPlace_ok _

theorem inPlace_ifMissing {e : BookError} (h : ¬e.Misplaced) (a? : Option α) :
    InPlace (e.ifMissing a?) := by
  cases a? with
  | none => exact fun e' h' ↦ by cases h'; exact h
  | some a => exact inPlace_ok a

theorem inPlace_ite {p : Prop} [Decidable p] {y : Except BookError α} (hx : InPlace x)
    (hy : InPlace y) : InPlace (if p then x else y) := by
  split
  · exact hx
  · exact hy

theorem inPlace_error {e : BookError} (h : ¬e.Misplaced) : InPlace (.error e : Except _ α) :=
  fun e' h' ↦ by cases h'; exact h

theorem inPlace_mapM_option {f : α → Except BookError β} {a? : Option α}
    (h : ∀ a ∈ a?, InPlace (f a)) : InPlace (a?.mapM f) := by
  cases a? with
  | none => exact inPlace_ok _
  | some a => exact inPlace_bind (h a rfl) fun b _ ↦ inPlace_ok _

theorem inPlace_mapM {f : α → Except BookError β} {as : List α}
    (h : ∀ a ∈ as, InPlace (f a)) : InPlace (as.mapM f) := by
  induction as with
  | nil => exact inPlace_ok _
  | cons a as ih =>
    rw [List.mapM_cons]
    refine inPlace_bind (h a (List.mem_cons_self ..)) fun b _ ↦
      inPlace_bind (ih fun a' ha' ↦ h a' (List.mem_cons_of_mem _ ha')) fun bs _ ↦ inPlace_ok _

theorem inPlace_foldlM {f : β → α → Except BookError β} {as : List α}
    (h : ∀ b, ∀ a ∈ as, InPlace (f b a)) (b : β) : InPlace (as.foldlM f b) := by
  induction as generalizing b with
  | nil => exact inPlace_ok _
  | cons a as ih =>
    rw [List.foldlM_cons]
    exact inPlace_bind (h b a (List.mem_cons_self ..)) fun b' _ ↦
      ih (fun b a' ha' ↦ h b a' (List.mem_cons_of_mem _ ha')) b'

end InPlace

end BookError

open BookError

/-! ## What is made of nodes -/

namespace Node

variable {n : Node}

theorem inPlace_toNumber (h : n.kind = .number) : InPlace n.toNumber := by
  cases n <;> cases h
  exact inPlace_ok _

theorem inPlace_toAmount (h : n.kind = .amount) : InPlace n.toAmount := by
  cases n <;> cases h
  exact inPlace_ok _

theorem inPlace_toCompound (h : n.kind = .compound) : InPlace n.toCompound := by
  cases n <;> cases h
  exact inPlace_ok _

theorem inPlace_toCost (h : n.kind = .cost) : InPlace n.toCost := by
  cases n <;> cases h
  exact inPlace_ok _

theorem inPlace_toPosition (h : n.kind = .position) : InPlace n.toPosition := by
  cases n <;> cases h
  exact inPlace_ok _

theorem inPlace_toKeyValue (h : n.kind = .keyValue) : InPlace n.toKeyValue := by
  cases n <;> cases h
  exact inPlace_ok _

theorem inPlace_toPosting (h : n.kind = .posting) : InPlace n.toPosting := by
  cases n <;> cases h
  exact inPlace_ok _

end Node

namespace Language

/-- The line of a transaction holds what it is said to hold. -/
def TxnLine.Fits : TxnLine Node → Prop
  | posting n => n.kind = .posting
  | detail n => n.kind = .keyValue

def LotComponent.Fits : LotComponent Node → Prop
  | cost n => n.kind = .compound
  | _ => True

def MetaValue.Fits : MetaValue Node → Prop
  | number n => n.kind = .number
  | amount n => n.kind = .amount
  | _ => True

/-- There is a price of all units only where there are units. -/
structure PostingParts.Fits (p : PostingParts Node) : Prop where
  position : ∀ n ∈ p.position?, n.kind = .position
  price : ∀ n ∈ p.price?, n.kind = .amount
  units : p.totalPrice = true → p.position?.isSome = true

def Statement.Fits : Statement Node → Prop
  | balance _ amount tolerance? =>
    amount.kind = .amount ∧ ∀ n ∈ tolerance?, n.kind = .number
  | price _ amount => amount.kind = .amount
  | _ => True

namespace Construction

/-- The kind of node that is asked for. -/
def kind {H : Type} : Construction H → NodeKind
  | number _ => .number
  | binary .. => .number
  | negate _ => .number
  | amount .. => .amount
  | compoundAmount .. => .compound
  | lotSpec _ => .cost
  | position .. => .position
  | keyValue .. => .keyValue
  | posting .. => .posting
  | transaction .. => .entry
  | statement .. => .entry

/-- The nodes are of the kinds that the request is about. -/
def Fits : Construction Node → Prop
  | number _ => True
  | binary _ lhs rhs => lhs.kind = .number ∧ rhs.kind = .number
  | negate n => n.kind = .number
  | amount n _ => n.kind = .number
  | compoundAmount perUnit? total? _ =>
    (∀ n ∈ perUnit?, n.kind = .number) ∧ ∀ n ∈ total?, n.kind = .number
  | lotSpec components => ∀ x ∈ components, x.Fits
  | position _ units lot? => units.kind = .amount ∧ ∀ n ∈ lot?, n.kind = .cost
  | keyValue _ value => value.Fits
  | posting _ parts => parts.Fits
  | transaction _ _ _ _ lines => ∀ x ∈ lines, x.Fits
  | statement _ _ body details? => body.Fits ∧ ∀ n ∈ details?.getD [], n.kind = .keyValue

end Construction

end Language

section Build

variable {active : TextSet} {origin : Provenance}

theorem inPlace_calculate (op : Operator) (lhs rhs : Decimal) :
    InPlace (lhs.calculate op rhs) := by
  cases op with
  | divide => exact inPlace_ite (inPlace_error id) (inPlace_ifMissing id _)
  | _ => exact inPlace_ifMissing id _

theorem inPlace_addComponent (spec : CostSpec) {x : LotComponent Node} (h : x.Fits) :
    InPlace (spec.addComponent x) := by
  cases x with
  | cost n => exact inPlace_ite (inPlace_error id) (inPlace_map (Node.inPlace_toCompound h))
  | date text => exact inPlace_ite (inPlace_error id) (inPlace_map (inPlace_ifMissing id _))
  | label text => exact inPlace_ite (inPlace_error id) (inPlace_ok _)
  | merge => exact inPlace_ite (inPlace_error id) (inPlace_ok _)

theorem inPlace_ofValue {value : MetaValue Node} (h : value.Fits) :
    InPlace (MetaEntry.ofValue value) := by
  cases value with
  | date s => exact inPlace_map (inPlace_ifMissing id _)
  | number n => exact inPlace_map (Node.inPlace_toNumber h)
  | amount n => exact inPlace_map (Node.inPlace_toAmount h)
  | _ => exact inPlace_ok _

theorem inPlace_ofNodes {nodes : List Node} (h : ∀ n ∈ nodes, n.kind = .keyValue) :
    InPlace (Metadata.ofNodes origin nodes) :=
  inPlace_bind (inPlace_mapM fun n hn ↦ Node.inPlace_toKeyValue (h n hn)) fun _ _ ↦ inPlace_ok _

/-- The price of one unit can be found where there are units. -/
theorem inPlace_unitPrice {position? : Option Position} (h : position?.isSome = true)
    (price : Amount) : InPlace (unitPrice position? price) := by
  obtain ⟨position, rfl⟩ := Option.isSome_iff_exists.mp h
  refine inPlace_bind (inPlace_ok position) fun _ _ ↦ inPlace_ite ?_ ?_
  · exact inPlace_bind (inPlace_error (e := .totalPriceWithZeroUnits) id) nofun
  · exact inPlace_bind (inPlace_calculate _ _ _) fun _ _ ↦ inPlace_ok _

theorem isSome_of_mapM {α β : Type} {f : α → Except BookError β} {a? : Option α} {b? : Option β}
    (h : a?.mapM f = .ok b?) : b?.isSome = a?.isSome := by
  cases a? with
  | none =>
    cases h
    rfl
  | some a =>
    rw [Option.mapM_some] at h
    obtain ⟨b, -, h⟩ := exists_of_bind_ok h
    cases h
    rfl

theorem inPlace_ofParts {parts : PostingParts Node} (h : parts.Fits) :
    InPlace (Posting.ofParts origin parts) := by
  refine inPlace_bind (inPlace_mapM_option fun n hn ↦ Node.inPlace_toPosition (h.position n hn))
    fun position? hposition ↦ ?_
  refine inPlace_bind (inPlace_mapM_option fun n hn ↦ Node.inPlace_toAmount (h.price n hn))
    fun price? _ ↦ ?_
  dsimp only
  split
  · rename_i htotal
    refine inPlace_bind (inPlace_mapM_option fun price _ ↦ inPlace_unitPrice ?_ price)
      fun _ _ ↦ inPlace_ok _
    rw [isSome_of_mapM hposition, h.units htotal]
  · exact inPlace_ok _

theorem inPlace_directive {body : Statement Node} (h : body.Fits) :
    InPlace (Directive.ofStatement body) := by
  cases body with
  | openAccount account currencies booking? =>
    exact inPlace_bind (inPlace_mapM_option fun _ _ ↦ inPlace_ifMissing id _)
      fun _ _ ↦ inPlace_ok _
  | balance account amount tolerance? =>
    refine inPlace_bind (Node.inPlace_toAmount h.1) fun _ _ ↦ ?_
    exact inPlace_bind (inPlace_mapM_option fun n hn ↦ Node.inPlace_toNumber (h.2 n hn))
      fun _ _ ↦ inPlace_ok _
  | price currency amount =>
    exact inPlace_bind (Node.inPlace_toAmount h) fun _ _ ↦ inPlace_ok _
  | _ => exact inPlace_ok _

theorem inPlace_description (strings : List String) : InPlace (description strings) := by
  unfold description
  split
  · exact inPlace_ok _
  · exact inPlace_ok _
  · exact inPlace_ok _
  · exact inPlace_error id

theorem inPlace_attachLine (target : Metadata × List Posting) {x : TxnLine Node} (h : x.Fits) :
    InPlace (TxnItem.attachLine target x) := by
  refine inPlace_map ?_
  cases x with
  | posting n => exact inPlace_map (Node.inPlace_toPosting h)
  | detail n => exact inPlace_map (Node.inPlace_toKeyValue h)

/-- What is made of nodes of the right kinds is not refused on their account. -/
theorem inPlace_build {c : Construction Node} (h : c.Fits) : InPlace (Node.build active c) := by
  cases c with
  | number text => exact inPlace_map (inPlace_ifMissing id _)
  | binary op lhs rhs =>
    refine inPlace_bind (Node.inPlace_toNumber h.1) fun _ _ ↦ ?_
    refine inPlace_bind (Node.inPlace_toNumber h.2) fun _ _ ↦ ?_
    exact inPlace_bind (inPlace_calculate _ _ _) fun _ _ ↦ inPlace_ok _
  | negate n => exact inPlace_map (Node.inPlace_toNumber h)
  | amount n currency => exact inPlace_map (Node.inPlace_toNumber h)
  | compoundAmount perUnit? total? currency =>
    refine inPlace_bind (inPlace_mapM_option fun n hn ↦ Node.inPlace_toNumber (h.1 n hn))
      fun _ _ ↦ ?_
    exact inPlace_bind (inPlace_mapM_option fun n hn ↦ Node.inPlace_toNumber (h.2 n hn))
      fun _ _ ↦ inPlace_ok _
  | lotSpec components =>
    exact inPlace_map (inPlace_foldlM (fun spec x hx ↦ inPlace_addComponent spec (h x hx)) _)
  | position origin units lot? =>
    refine inPlace_bind (Node.inPlace_toAmount h.1) fun _ _ ↦ ?_
    exact inPlace_bind (inPlace_mapM_option fun n hn ↦ Node.inPlace_toCost (h.2 n hn))
      fun _ _ ↦ inPlace_ok _
  | keyValue key value => exact inPlace_map (inPlace_ofValue h)
  | posting origin parts => exact inPlace_map (inPlace_ofParts h)
  | transaction origin date flag fields lines =>
    refine inPlace_map (inPlace_bind (inPlace_description _) fun _ _ ↦ ?_)
    refine inPlace_bind (inPlace_foldlM (fun _ x hx ↦ inPlace_attachLine _ (h x hx)) _)
      fun _ _ ↦ ?_
    exact inPlace_bind (inPlace_ifMissing id _) fun _ _ ↦ inPlace_ok _
  | statement origin date body details? =>
    refine inPlace_map (inPlace_bind (inPlace_directive h.1) fun _ _ ↦ ?_)
    refine inPlace_bind (inPlace_ifMissing id _) fun _ _ ↦ ?_
    exact inPlace_bind (inPlace_ofNodes h.2) fun _ _ ↦ inPlace_ok _

/-- What is made is of the kind that was asked for. -/
theorem kind_of_build {c : Construction Node} {n : Node} (h : Node.build active c = .ok n) :
    n.kind = c.kind := by
  have hmap : ∀ {α : Type} {x : Except BookError α} {f : α → Node} {k : NodeKind},
      (∀ a, (f a).kind = k) → x.map f = .ok n → n.kind = k := by
    intro α x f k hf hx
    cases x with
    | error e => cases hx
    | ok a =>
      cases hx
      exact hf a
  cases c with
  | binary op lhs rhs =>
    obtain ⟨_, -, h⟩ := exists_of_bind_ok h
    obtain ⟨_, -, h⟩ := exists_of_bind_ok h
    obtain ⟨_, -, h⟩ := exists_of_bind_ok h
    cases h
    rfl
  | compoundAmount perUnit? total? currency =>
    obtain ⟨_, -, h⟩ := exists_of_bind_ok h
    obtain ⟨_, -, h⟩ := exists_of_bind_ok h
    cases h
    rfl
  | position origin units lot? =>
    obtain ⟨_, -, h⟩ := exists_of_bind_ok h
    obtain ⟨_, -, h⟩ := exists_of_bind_ok h
    cases h
    rfl
  | _ => exact hmap (fun _ ↦ rfl) h

end Build

end PlainLedger
