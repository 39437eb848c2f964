import PlainLedger.Proofs.Language.Form

/-!
# What becomes of the handles of a right-hand side

A production takes the values of its right-hand side from left to right, and passes on every handle
that they hold: into the value it comes to, or into the request that it makes, unless it sets the
value aside. In a parse, the values that are set aside hold none, whatever the tokens carry.
-/

namespace PlainLedger.Language

variable {H β γ : Type}

/-- The handles that go on: into a request, or into the value that comes of it. -/
def Plan.handles : Plan H → List H
  | keep v => v.handles
  | warn _ v => v.handles
  | construct c => c.handles
  | measure c tolerance? => c.handles ++ tolerance?.toList
  | declare _ => []

/-- The plan comes to a value without handles. -/
def Plan.Bare : Plan H → Prop
  | keep v => v.handles = []
  | warn _ v => v.handles = []
  | construct _ => False
  | measure _ _ => False
  | declare _ => True

/-- Values at blank places hold no handles, and neither do those that no form is asked of. -/
def Form.Spares : List Form → List (Value H) → Prop
  | [], vs => ∀ v ∈ vs, v.handles = []
  | _ :: _, [] => True
  | f :: fs, v :: vs => (f = .blank → v.handles = []) ∧ Spares fs vs

/-- The handles that have not been taken. -/
def Args.handles (a : Args H) : List H := (a.unused ++ a.pending).flatMap Value.handles

/-- The values not yet taken spare the forms, those set aside hold no handles, and together with
those in `base` there are all the handles that there were. -/
structure Args.Owes (fs : List Form) (base all : List H) (a : Args H) : Prop where
  spares : Form.Spares fs a.pending
  unused : a.unused.flatMap Value.handles = []
  all : base ++ a.pending.flatMap Value.handles = all

namespace Take

variable {fs fs' fs'' : List Form} {base : List H} {held : β → List H} {held' : γ → List H}

/-- With the handles in `base` taken before, the result holds all that have been taken. No handle is
lost, and if the values spare the forms then none is set aside. -/
def Passes (fs : List Form) (base : List H) (m : Take H β) (fs' : List Form)
    (held : β → List H) : Prop :=
  ∀ a b a', m.run a = .ok (b, a') → (held b ++ a'.handles).Perm (base ++ a.handles) ∧
    ∀ all, a.Owes fs base all → a'.Owes fs' (held b) all

theorem passes_pure {b : β} (h : base = held b) : Passes fs base (pure b : Take H β) fs held := by
  intro a b' a' hrun
  cases hrun
  exact h ▸ ⟨.refl _, fun _ howes ↦ howes⟩

theorem passes_bind {m : Take H β} {k : β → Take H γ} (h : Passes fs base m fs' held)
    (hk : ∀ b, Passes fs' (held b) (k b) fs'' held') : Passes fs base (m >>= k) fs'' held' := by
  intro a c a' hrun
  rw [StateT.run_bind] at hrun
  cases hm : m.run a with
  | error misfit =>
    rw [hm] at hrun
    cases hrun
  | ok out =>
    rw [hm] at hrun
    obtain ⟨hperm, howes⟩ := h a out.1 out.2 hm
    obtain ⟨hperm', howes'⟩ := hk out.1 out.2 c a' hrun
    exact ⟨hperm'.trans hperm, fun all h ↦ howes' all (howes all h)⟩

theorem passes_throw {misfit : Misfit} :
    Passes fs base (throw misfit : Take H β) fs' held := by
  intro a b a' hrun
  cases hrun

theorem passes_next {f : Form} : Passes (f :: fs) base next fs fun v ↦ base ++ v.handles := by
  intro a v a' hrun
  obtain ⟨pending, unused⟩ := a
  cases pending with
  | nil => cases hrun
  | cons w rest =>
    cases hrun
    refine ⟨?_, fun all howes ↦ ⟨howes.spares.2, howes.unused, ?_⟩⟩
    · unfold Args.handles
      rw [List.append_assoc]
      refine List.Perm.append_left base ?_
      simp only [List.flatMap_append, List.flatMap_cons, ← List.append_assoc]
      exact List.perm_append_comm.append_right _
    · rw [List.append_assoc]
      exact howes.all

theorem passes_skip : Passes (.blank :: fs) base skip fs fun _ ↦ base := by
  intro a v a' hrun
  obtain ⟨pending, unused⟩ := a
  cases pending with
  | nil => cases hrun
  | cons w rest =>
    cases hrun
    refine ⟨?_, fun all howes ↦ ?_⟩
    · unfold Args.handles
      rw [List.append_assoc]
      exact .refl _
    · have hw : w.handles = [] := howes.spares.1 rfl
      have hunused := howes.unused
      have hall := howes.all
      rw [List.flatMap_cons, hw, List.nil_append] at hall
      exact ⟨howes.spares.2, by simpa [hw] using hunused, hall⟩

theorem passes_shaped {f : Form} {expected : String} {pick : Value H → Option β}
    (h : ∀ v b, pick v = some b → base ++ v.handles = held b) :
    Passes (f :: fs) base (shaped expected pick) fs held := by
  refine passes_bind passes_next fun v ↦ ?_
  cases hpick : pick v with
  | none => exact passes_throw
  | some b => exact passes_pure (h v b hpick)

section Shapes

variable {f : Form}

theorem passes_text : Passes (f :: fs) base text fs fun _ ↦ base :=
  passes_shaped fun v b h ↦ by cases v <;> cases h; exact List.append_nil _

theorem passes_optionalText : Passes (f :: fs) base optionalText fs fun _ ↦ base :=
  passes_shaped fun v b h ↦ by cases v <;> cases h <;> exact List.append_nil _

theorem passes_char : Passes (f :: fs) base char fs fun _ ↦ base :=
  passes_shaped fun v b h ↦ by cases v <;> cases h; exact List.append_nil _

theorem passes_optionalChar : Passes (f :: fs) base optionalChar fs fun _ ↦ base :=
  passes_shaped fun v b h ↦ by cases v <;> cases h <;> exact List.append_nil _

theorem passes_strings : Passes (f :: fs) base strings fs fun _ ↦ base :=
  passes_shaped fun v b h ↦ by cases v <;> cases h; exact List.append_nil _

theorem passes_fields : Passes (f :: fs) base fields fs fun _ ↦ base :=
  passes_shaped fun v b h ↦ by cases v <;> cases h; exact List.append_nil _

theorem passes_handle : Passes (f :: fs) base handle fs fun h ↦ base ++ [h] :=
  passes_shaped fun v b h ↦ by cases v <;> cases h; rfl

theorem passes_optionalHandle :
    Passes (f :: fs) base optionalHandle fs fun h? ↦ base ++ h?.toList :=
  passes_shaped fun v b h ↦ by cases v <;> cases h <;> rfl

theorem passes_pair : Passes (f :: fs) base pair fs fun p ↦ base ++ p.1 :: p.2.toList :=
  passes_shaped fun v b h ↦ by cases v <;> cases h; rfl

theorem passes_list : Passes (f :: fs) base list fs fun hs ↦ base ++ hs :=
  passes_shaped fun v b h ↦ by cases v <;> cases h; rfl

theorem passes_details : Passes (f :: fs) base details fs fun hs? ↦ base ++ hs?.getD [] := by
  refine passes_bind passes_list fun hs ↦ passes_pure ?_
  cases hs <;> rfl

theorem passes_lines :
    Passes (f :: fs) base lines fs fun xs ↦ base ++ xs.flatMap TxnLine.handles :=
  passes_shaped fun v b h ↦ by cases v <;> cases h; rfl

theorem passes_component : Passes (f :: fs) base component fs fun x ↦ base ++ x.handles :=
  passes_shaped fun v b h ↦ by cases v <;> cases h; rfl

theorem passes_components :
    Passes (f :: fs) base components fs fun xs ↦ base ++ xs.flatMap LotComponent.handles :=
  passes_shaped fun v b h ↦ by cases v <;> cases h; rfl

theorem passes_metadata : Passes (f :: fs) base metadata fs fun m ↦ base ++ m.handles :=
  passes_shaped fun v b h ↦ by cases v <;> cases h; rfl

end Shapes

theorem passes_binary {f f' : Form} {op : Operator} :
    Passes (H := H) (f :: .blank :: f' :: fs) [] (binary op) fs Plan.handles :=
  passes_bind passes_handle fun _ ↦ passes_bind passes_skip fun _ ↦
    passes_bind passes_handle fun _ ↦ passes_pure rfl

/-- The handles of the parts of a posting. -/
def partHandles (parts : Option H × Option H) : List H := parts.1.toList ++ parts.2.toList

theorem passes_posting {f f' : Form} {origin : Provenance} {txnFlag? : Option Char}
    {totalPrice : Bool} {parts : Take H (Option H × Option H)}
    (h : Passes fs [] parts fs' partHandles) :
    Passes (.blank :: f :: f' :: fs) [] (posting origin txnFlag? totalPrice parts) fs'
      Plan.handles := by
  unfold posting
  cases txnFlag? with
  | none => exact passes_throw
  | some txnFlag =>
    exact passes_bind passes_skip fun _ ↦ passes_bind passes_optionalChar fun _ ↦
      passes_bind passes_text fun _ ↦ passes_bind h fun _ ↦ passes_pure rfl

theorem passes_priced {f f' : Form} :
    Passes (H := H) (f :: .blank :: f' :: fs) [] priced fs partHandles :=
  passes_bind passes_handle fun _ ↦ passes_bind passes_skip fun _ ↦
    passes_bind passes_handle fun _ ↦ passes_pure rfl

theorem passes_dated {f f' : Form} {origin : Provenance} {body : Take H (Statement H)}
    (h : Passes fs [] body (.blank :: f' :: fs') Statement.handles) :
    Passes (f :: .blank :: fs) [] (dated origin body) fs' Plan.handles :=
  passes_bind passes_text fun _ ↦ passes_bind passes_skip fun _ ↦ passes_bind h fun _ ↦
    passes_bind passes_skip fun _ ↦ passes_bind passes_details fun _ ↦ passes_pure rfl

end Take

open Take

/-- A plan passes on all the handles of the values that it is made from. -/
theorem passes_plan (p : Production) (origin : Provenance) (txnFlag? : Option Char) :
    Passes (H := H) p.expects [] (p.plan origin txnFlag?) [] Plan.handles := by
  cases p
  case add | subtract | multiply | divide => exact passes_binary
  case postingBare => exact passes_posting (passes_pure rfl)
  case postingUnits => exact passes_posting (passes_bind passes_handle fun _ ↦ passes_pure rfl)
  case postingPerUnitPrice | postingTotalPrice => exact passes_posting passes_priced
  case openEntry =>
    exact passes_dated (passes_bind passes_text fun _ ↦ passes_bind passes_strings fun _ ↦
      passes_bind passes_optionalText fun _ ↦ passes_pure rfl)
  case closeEntry | commodity =>
    exact passes_dated (passes_bind passes_text fun _ ↦ passes_pure rfl)
  case pad | event | note | document =>
    exact passes_dated (passes_bind passes_text fun _ ↦ passes_bind passes_text fun _ ↦
      passes_pure rfl)
  case balance =>
    exact passes_dated (passes_bind passes_text fun _ ↦ passes_bind passes_pair fun _ ↦
      passes_pure rfl)
  case price =>
    exact passes_dated (passes_bind passes_text fun _ ↦ passes_bind passes_handle fun _ ↦
      passes_pure rfl)
  case file | declarationsDirective | declarationsError | forward | maybeNumberSome =>
    exact passes_bind passes_next fun _ ↦ passes_pure rfl
  case declarationsEntry | metaListAppend =>
    exact passes_bind passes_list fun _ ↦ passes_bind passes_handle fun _ ↦ passes_pure rfl
  case txnFlag | optFlagFlag => exact passes_bind passes_char fun _ ↦ passes_pure rfl
  case number | metaString | metaAccount | metaDate | metaCurrency | metaTag | metaBool
      | currenciesFirst | bookingSome | filename | lotDate | lotLabel =>
    exact passes_bind passes_text fun _ ↦ passes_pure rfl
  case metaNumber | metaAmount | position | lotCost =>
    exact passes_bind passes_handle fun _ ↦ passes_pure rfl
  case negate =>
    exact passes_bind passes_skip fun _ ↦ passes_bind passes_handle fun _ ↦ passes_pure rfl
  case unaryPlus | parens =>
    exact passes_bind passes_skip fun _ ↦ passes_bind passes_next fun _ ↦ passes_pure rfl
  case fieldString | fieldLink | fieldTag =>
    exact passes_bind passes_fields fun _ ↦ passes_bind passes_text fun _ ↦ passes_pure rfl
  case fieldPipe => exact passes_bind passes_fields fun _ ↦ passes_pure rfl
  case transaction =>
    exact passes_bind passes_text fun _ ↦ passes_bind passes_char fun _ ↦
      passes_bind passes_fields fun _ ↦ passes_bind passes_skip fun _ ↦
      passes_bind passes_lines fun _ ↦ passes_pure rfl
  case keyValue =>
    exact passes_bind passes_skip fun _ ↦ passes_bind passes_text fun _ ↦
      passes_bind passes_metadata fun _ ↦ passes_pure rfl
  case linesKeyValue | linesPosting =>
    exact passes_bind passes_lines fun _ ↦ passes_bind passes_handle fun _ ↦
      passes_pure (by simp [Plan.handles, Value.handles, TxnLine.handles])
  case currenciesAppend =>
    exact passes_bind passes_strings fun _ ↦ passes_bind passes_skip fun _ ↦
      passes_bind passes_text fun _ ↦ passes_pure rfl
  case pushTag | popTag | includeFile | plugin =>
    exact passes_bind passes_skip fun _ ↦ passes_bind passes_text fun _ ↦ passes_pure rfl
  case optionSetting | pluginWithConfig =>
    exact passes_bind passes_skip fun _ ↦ passes_bind passes_text fun _ ↦
      passes_bind passes_text fun _ ↦ passes_pure rfl
  case amount | amountExact =>
    exact passes_bind passes_handle fun _ ↦ passes_bind passes_text fun _ ↦ passes_pure rfl
  case amountWithTolerance =>
    exact passes_bind passes_handle fun _ ↦ passes_bind passes_skip fun _ ↦
      passes_bind passes_handle fun _ ↦ passes_bind passes_text fun _ ↦ passes_pure rfl
  case compoundPerUnit =>
    exact passes_bind passes_optionalHandle fun _ ↦ passes_bind passes_text fun _ ↦
      passes_pure (by simp [Plan.handles, Construction.handles])
  case compoundWithTotal =>
    exact passes_bind passes_optionalHandle fun _ ↦ passes_bind passes_skip fun _ ↦
      passes_bind passes_optionalHandle fun _ ↦ passes_bind passes_text fun _ ↦ passes_pure rfl
  case positionWithLot =>
    exact passes_bind passes_handle fun _ ↦ passes_bind passes_handle fun _ ↦ passes_pure rfl
  case lotSpec =>
    exact passes_bind passes_skip fun _ ↦ passes_bind passes_components fun _ ↦ passes_pure rfl
  case lotListFirst =>
    exact passes_bind passes_component fun _ ↦
      passes_pure (by simp [Plan.handles, Value.handles])
  case lotListComma | lotListSlash =>
    exact passes_bind passes_components fun _ ↦ passes_bind passes_skip fun _ ↦
      passes_bind passes_component fun _ ↦ passes_pure (by simp [Plan.handles, Value.handles])
  all_goals exact passes_pure rfl

/-! ## Values without handles -/

theorem Args.Owes.of_nil {base all : List H} {a : Args H} (h : a.Owes [] base all) :
    base = all ∧ (a.unused ++ a.pending).flatMap Value.handles = [] := by
  have hpending : a.pending.flatMap Value.handles = [] :=
    List.flatMap_eq_nil_iff.mpr h.spares
  have hall := h.all
  rw [hpending, List.append_nil] at hall
  rw [List.flatMap_append, h.unused, hpending]
  exact ⟨hall, rfl⟩

/-- The value holds handles only if the form of the symbol allows for them. -/
def Bare (x : Symbol) (v : Value H) : Prop := (formOf x).le .blank = true → v.handles = []

theorem bare_ofToken (t : Token) : Bare (.terminal t.kind) (Value.ofToken t : Value H) := by
  intro _
  unfold Value.ofToken
  cases t.payload <;> rfl

theorem bare_error : Bare (.terminal .error) (.nothing : Value H) := fun _ ↦ rfl

theorem Form.spares_nil {fs : List Form} : Form.Spares (H := H) fs [] := by
  cases fs with
  | nil => simp [Spares]
  | cons => trivial

/-- The values of a right-hand side spare the forms that the production asks for. -/
theorem Form.spares_of_bare {xs : List Symbol} {vs : List (Value H)} {fs : List Form}
    (h : List.Forall₂ Bare xs vs) (hle : Form.leAll (xs.map formOf) fs = true) :
    Form.Spares fs vs := by
  induction h generalizing fs with
  | nil => exact spares_nil
  | @cons x v xs vs hv hvs ih =>
    cases fs with
    | nil =>
      have hblank : ∀ f ∈ (x :: xs).map formOf, f.le blank = true := List.all_eq_true.mp hle
      have hrest : Form.leAll (xs.map formOf) [] = true := by
        rw [leAll_nil, List.all_eq_true]
        exact fun f hf ↦ hblank f (List.mem_cons_of_mem _ hf)
      intro w hw
      rcases List.mem_cons.mp hw with rfl | hw
      · exact hv (hblank _ (List.mem_cons_self ..))
      · exact ih hrest w hw
    | cons f fs =>
      obtain ⟨hf, hrest⟩ := Bool.and_eq_true_iff.mp hle
      exact ⟨fun hblank ↦ hv (hblank ▸ hf), ih hrest⟩

/-- A phrase that allows for no handles has a plan for a value without any. -/
theorem returns_bare {p : Production} (h : p.yields.le .blank = true) (origin : Provenance)
    (txnFlag? : Option Char) : Returns (H := H) Plan.Bare (p.plan origin txnFlag?) := by
  cases p
  case discard | txnKeyword | txnAsterisk | optFlagNone | optFlagAsterisk | bookingNone =>
    exact returns_pure rfl
  case txnFlag | optFlagFlag | bookingSome | filename =>
    exact returns_bind fun _ ↦ returns_pure rfl
  case pushTag | popTag | includeFile | plugin =>
    exact returns_bind fun _ ↦ returns_bind fun _ ↦ returns_pure trivial
  case optionSetting | pluginWithConfig =>
    exact returns_bind fun _ ↦ returns_bind fun _ ↦ returns_bind fun _ ↦ returns_pure trivial
  all_goals cases h

theorem Form.le_blank_trans {f g : Form} (h : f.le g = true) (h' : g.le .blank = true) :
    f.le .blank = true := by
  cases g <;> cases h' <;> cases f <;> first
    | rfl
    | cases h

end PlainLedger.Language
