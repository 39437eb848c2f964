import Mathlib.Data.List.Induction
import PlainLedger.Proofs.Book.Kinds

/-!
# Lot specifications do not depend on the order of their clauses

A lot specification takes one clause of each kind, and its date has to be a date. What it comes to
holds just the clauses, so it is the same in whatever order they are written; and where it is
refused in one order, it is refused in every order.
-/

namespace PlainLedger

open PlainLedger.Language

def Language.LotComponent.clause {H : Type} : LotComponent H → LotClause
  | cost _ => .cost
  | date _ => .date
  | label _ => .label
  | merge => .merge

/-- There is at most one clause of each kind, and a date among them is one. -/
structure AreSingle (components : List (LotComponent Node)) : Prop where
  single : ∀ clause, components.countP (·.clause == clause) ≤ 1
  valid : ∀ text, .date text ∈ components → ∃ d, Date.read text = .ok d

namespace CostSpec

/-- There is a clause of the kind in the specification. -/
def has (spec : CostSpec) : LotClause → Bool
  | .cost => spec.currency?.isSome
  | .date => spec.date?.isSome
  | .label => spec.label?.isSome
  | .merge => spec.merge

/-- The cost as it was written in the lot. -/
def compound? (spec : CostSpec) : Option Compound :=
  spec.currency?.map fun currency ↦ ⟨spec.perUnit?, spec.total?, currency⟩

/-- The specification says what the clauses say, and nothing else. -/
structure Holds (spec : CostSpec) (components : List (LotComponent Node)) : Prop where
  cost : ∀ c, spec.compound? = some c ↔ .cost (.compound c) ∈ components
  costless : spec.currency? = none → spec.perUnit? = none ∧ spec.total? = none
  date : ∀ d, spec.date? = some d ↔ ∃ text, .date text ∈ components ∧ Date.read text = .ok d
  label : ∀ text, spec.label? = some text ↔ .label text ∈ components
  merge : spec.merge = true ↔ .merge ∈ components

end CostSpec

section Perm

variable {components components' : List (LotComponent Node)} {spec spec' : CostSpec}

theorem AreSingle.perm (h : AreSingle components) (hperm : components.Perm components') :
    AreSingle components' where
  single clause := hperm.countP_eq (·.clause == clause) ▸ h.single clause
  valid text htext := h.valid text (hperm.mem_iff.mpr htext)

theorem CostSpec.Holds.perm (h : spec.Holds components) (hperm : components.Perm components') :
    spec.Holds components' where
  cost c := (h.cost c).trans hperm.mem_iff
  costless := h.costless
  date d := (h.date d).trans (exists_congr fun _ ↦ and_congr_left' hperm.mem_iff)
  label text := (h.label text).trans hperm.mem_iff
  merge := h.merge.trans hperm.mem_iff

/-- The clauses determine the specification. -/
theorem CostSpec.Holds.unique (h : spec.Holds components) (h' : spec'.Holds components) :
    spec = spec' := by
  have hcost : spec.compound? = spec'.compound? :=
    Option.ext fun c ↦ (h.cost c).trans (h'.cost c).symm
  have hdate : spec.date? = spec'.date? := Option.ext fun d ↦ (h.date d).trans (h'.date d).symm
  have hlabel : spec.label? = spec'.label? :=
    Option.ext fun text ↦ (h.label text).trans (h'.label text).symm
  have hmerge : spec.merge = spec'.merge := Bool.eq_iff_iff.mpr (h.merge.trans h'.merge.symm)
  obtain ⟨perUnit?, total?, currency?, date?, label?, merge⟩ := spec
  obtain ⟨perUnit?', total?', currency?', date?', label?', merge'⟩ := spec'
  have hbare := h.costless
  have hbare' := h'.costless
  unfold compound? at hcost
  cases currency? <;> cases currency?' <;> simp_all

end Perm

/-! ## One more clause -/

section Snoc

variable {components : List (LotComponent Node)} {x : LotComponent Node} {spec : CostSpec}

/-- One more clause is one of a kind that there is none of yet. -/
theorem areSingle_concat : AreSingle (components ++ [x]) ↔
    AreSingle components ∧ (∀ y ∈ components, y.clause ≠ x.clause) ∧
      ∀ text, x = .date text → ∃ d, Date.read text = .ok d := by
  have hcount : ∀ clause, (components ++ [x]).countP (·.clause == clause) =
      components.countP (·.clause == clause) + if x.clause = clause then 1 else 0 := by
    intro clause
    simp [List.countP_append, List.countP_cons]
  constructor
  · intro h
    refine ⟨⟨fun clause ↦ ?_, fun text htext ↦ h.valid text (List.mem_append_left _ htext)⟩, ?_, ?_⟩
    · have hle := h.single clause
      rw [hcount] at hle
      omega
    · intro y hy heq
      have hle := h.single x.clause
      have hpos : 0 < components.countP (·.clause == x.clause) :=
        List.countP_pos_iff.mpr ⟨y, hy, by simp [heq]⟩
      rw [hcount, if_pos rfl] at hle
      omega
    · rintro text rfl
      exact h.valid text (List.mem_append_right _ (List.mem_singleton_self _))
  · rintro ⟨h, hfresh, hvalid⟩
    refine ⟨fun clause ↦ ?_, fun text htext ↦ ?_⟩
    · rw [hcount]
      split_ifs with hx
      · have hzero : components.countP (·.clause == clause) = 0 :=
          List.countP_eq_zero.mpr fun y hy ↦ by simpa [← hx] using hfresh y hy
        omega
      · exact h.single clause
    · rcases List.mem_append.mp htext with htext | htext
      · exact h.valid text htext
      · exact hvalid text (List.mem_singleton.mp htext).symm

namespace CostSpec

/-- A specification has the kinds of clauses that it is made of. -/
theorem Holds.has_iff (h : spec.Holds components) (hsingle : AreSingle components)
    (hfits : ∀ y ∈ components, y.Fits) (clause : LotClause) :
    spec.has clause = true ↔ ∃ y ∈ components, y.clause = clause := by
  cases clause with
  | cost =>
    have hcost : spec.has .cost = spec.compound?.isSome := by simp [has, compound?]
    rw [hcost, Option.isSome_iff_exists]
    constructor
    · rintro ⟨c, hc⟩
      exact ⟨_, (h.cost c).mp hc, rfl⟩
    · rintro ⟨y, hy, hclause⟩
      cases y <;> cases hclause
      rename_i n
      have hn : n.kind = .compound := hfits _ hy
      cases n <;> cases hn
      exact ⟨_, (h.cost _).mpr hy⟩
  | date =>
    rw [has, Option.isSome_iff_exists]
    constructor
    · rintro ⟨d, hd⟩
      obtain ⟨text, htext, -⟩ := (h.date d).mp hd
      exact ⟨_, htext, rfl⟩
    · rintro ⟨y, hy, hclause⟩
      cases y <;> cases hclause
      obtain ⟨d, hd⟩ := hsingle.valid _ hy
      exact ⟨d, (h.date d).mpr ⟨_, hy, hd⟩⟩
  | label =>
    rw [has, Option.isSome_iff_exists]
    constructor
    · rintro ⟨text, htext⟩
      exact ⟨_, (h.label text).mp htext, rfl⟩
    · rintro ⟨y, hy, hclause⟩
      cases y <;> cases hclause
      exact ⟨_, (h.label _).mpr hy⟩
  | merge =>
    rw [has, h.merge]
    constructor
    · exact fun hmem ↦ ⟨_, hmem, rfl⟩
    · rintro ⟨y, hy, hclause⟩
      cases y <;> cases hclause
      exact hy

/-- A second clause of a kind is refused. -/
theorem addComponent_of_has (h : spec.has x.clause = true) :
    spec.addComponent x = .error (.duplicateClause x.clause) := by
  cases x <;> exact if_pos h

/-- The first clause of a kind is added to those that are held. -/
theorem Holds.addComponent (h : spec.Holds components) (hhas : spec.has x.clause = false)
    (hx : x.Fits) (hfresh : ∀ y ∈ components, y.clause ≠ x.clause)
    (hvalid : ∀ text, x = .date text → ∃ d, Date.read text = .ok d) :
    ∃ spec', spec.addComponent x = .ok spec' ∧ spec'.Holds (components ++ [x]) := by
  have hnone : ¬spec.has x.clause = true := by simp [hhas]
  cases x with
  | cost n =>
    cases n <;> cases hx
    rename_i c
    refine ⟨spec.withCompound c, if_neg hnone, ?_, nofun, ?_, ?_, ?_⟩
    · intro c'
      have hnot : .cost (.compound c') ∉ components := fun hmem ↦ hfresh _ hmem rfl
      simp only [compound?, withCompound, Option.map_some, Option.some.injEq, List.mem_append, hnot,
        List.mem_singleton, LotComponent.cost.injEq, Node.compound.injEq, false_or]
      exact eq_comm
    · simpa [withCompound] using h.date
    · simpa [withCompound] using h.label
    · simpa [withCompound] using h.merge
  | date text =>
    obtain ⟨d, hd⟩ := hvalid text rfl
    refine ⟨{ spec with date? := some d }, ?_, ?_, h.costless, ?_, ?_, ?_⟩
    · have hadd : spec.addComponent (.date text) =
          (Date.read text).map fun d ↦ { spec with date? := some d } := if_neg hnone
      rw [hadd, hd]
      rfl
    · simpa [compound?] using h.cost
    · intro d'
      have hnot : ∀ text', .date text' ∉ components := fun text' hmem ↦ hfresh _ hmem rfl
      simp [hnot, hd]
    · simpa using h.label
    · simpa using h.merge
  | label text =>
    refine ⟨{ spec with label? := some text }, if_neg hnone, ?_, h.costless, ?_, ?_, ?_⟩
    · simpa [compound?] using h.cost
    · simpa using h.date
    · intro text'
      have hnot : .label text' ∉ components := fun hmem ↦ hfresh _ hmem rfl
      simp [hnot, eq_comm]
    · simpa using h.merge
  | merge =>
    refine ⟨{ spec with merge := true }, if_neg hnone, ?_, h.costless, ?_, ?_, ?_⟩
    · simpa [compound?] using h.cost
    · simpa using h.date
    · simpa using h.label
    · simp

/-! ## All clauses -/

theorem ofComponents_concat (components : List (LotComponent Node)) (x : LotComponent Node) :
    ofComponents (components ++ [x]) = ofComponents components >>= (addComponent · x) := by
  unfold ofComponents
  rw [List.foldlM_append]
  exact bind_congr fun spec ↦ bind_pure _

/-- Clauses make a specification that holds them, or there are two of a kind or a date that is
none. -/
theorem holds_or_refused (components : List (LotComponent Node))
    (hfits : ∀ x ∈ components, x.Fits) :
    (AreSingle components ∧ ∃ spec, ofComponents components = .ok spec ∧ spec.Holds components) ∨
      ¬AreSingle components ∧ ∃ e, ofComponents components = .error e ∧
        ((∀ text, .date text ∈ components → ∃ d, Date.read text = .ok d) →
          ∃ clause, e = .duplicateClause clause) := by
  induction components using List.reverseRecOn with
  | nil =>
    refine Or.inl ⟨⟨fun _ ↦ Nat.zero_le 1, nofun⟩, {}, rfl, ?_⟩
    exact ⟨fun c ↦ by simp [compound?], fun _ ↦ ⟨rfl, rfl⟩, fun d ↦ by simp, fun text ↦ by simp,
      by simp⟩
  | append_singleton components x ih =>
    have hx : x.Fits := hfits x (List.mem_append_right _ (List.mem_singleton_self x))
    have hfits : ∀ y ∈ components, y.Fits := fun y hy ↦ hfits y (List.mem_append_left _ hy)
    rw [ofComponents_concat, areSingle_concat]
    rcases ih hfits with ⟨hsingle, spec, hspec, hholds⟩ | ⟨hnot, e, he, hcause⟩
    · rw [hspec]
      change (_ ∧ ∃ spec', spec.addComponent x = _ ∧ _) ∨ _ ∧ ∃ e, spec.addComponent x = _ ∧ _
      have hhas := hholds.has_iff hsingle hfits x.clause
      cases hfresh : spec.has x.clause with
      | true =>
        obtain ⟨y, hy, hclause⟩ := hhas.mp hfresh
        exact Or.inr ⟨fun h ↦ h.2.1 y hy hclause, _, addComponent_of_has hfresh, fun _ ↦ ⟨_, rfl⟩⟩
      | false =>
        have hfresh' : ∀ y ∈ components, y.clause ≠ x.clause := fun y hy hclause ↦ by
          rw [hhas.mpr ⟨y, hy, hclause⟩] at hfresh
          cases hfresh
        by_cases hvalid : ∀ text, x = .date text → ∃ d, Date.read text = .ok d
        · exact Or.inl ⟨⟨hsingle, hfresh', hvalid⟩, hholds.addComponent hfresh hx hfresh' hvalid⟩
        · refine Or.inr ⟨fun h ↦ hvalid h.2.2, ?_⟩
          obtain ⟨text, hvalid⟩ := not_forall.mp hvalid
          obtain ⟨rfl, hd⟩ := Classical.not_imp.mp hvalid
          have hadd : spec.addComponent (.date text) =
              (Date.read text).map fun d ↦ { spec with date? := some d } :=
            if_neg (Bool.eq_false_iff.mp hfresh)
          cases hread : Date.read text with
          | ok d => exact (hd ⟨d, hread⟩).elim
          | error e =>
            rw [hadd, hread]
            exact ⟨e, rfl, fun hall ↦ (hd (hall text (by simp))).elim⟩
    · rw [he]
      refine Or.inr ⟨fun h ↦ hnot h.1, e, rfl, fun h ↦ hcause fun text htext ↦ ?_⟩
      exact h text (List.mem_append_left _ htext)

end CostSpec

end Snoc

/-! ## Lot specifications on request -/

section Lots

variable (active : TextSet) {components : List (LotComponent Node)}

theorem build_lotSpec_ok {spec : CostSpec} (h : CostSpec.ofComponents components = .ok spec) :
    Node.build active (.lotSpec components) = .ok (.cost spec) := by
  rw [Node.build, h]
  rfl

theorem build_lotSpec_error {e : BookError} (h : CostSpec.ofComponents components = .error e) :
    Node.build active (.lotSpec components) = .error e := by
  rw [Node.build, h]
  rfl

/-- The order of the clauses of a lot does not matter. There is a specification if there is at most
one clause of each kind and the date is a date; it holds just the clauses, and is the same in every
order. Otherwise the lot is refused in every order, and for a second clause of a kind if all its
dates are dates. -/
theorem lot_unordered (hfits : ∀ x ∈ components, x.Fits) :
    ((∃ n, Node.build active (.lotSpec components) = .ok n) ↔ AreSingle components) ∧
      (∀ n, Node.build active (.lotSpec components) = .ok n →
        ∃ spec : CostSpec, n = .cost spec ∧ spec.Holds components) ∧
      ∀ components', components.Perm components' →
        (∀ n, Node.build active (.lotSpec components) = .ok n ↔
          Node.build active (.lotSpec components') = .ok n) ∧
        ∀ e, Node.build active (.lotSpec components) = .error e →
          ∃ e', Node.build active (.lotSpec components') = .error e' ∧
            ((∀ text, .date text ∈ components → ∃ d, Date.read text = .ok d) →
              ∃ clause, e' = .duplicateClause clause) := by
  rcases CostSpec.holds_or_refused components hfits with
    ⟨hsingle, spec, hspec, hholds⟩ | ⟨hnot, e, he, -⟩
  · have hbuild := build_lotSpec_ok active hspec
    refine ⟨iff_of_true ⟨_, hbuild⟩ hsingle, fun n hn ↦ ?_,
      fun components' hperm ↦ ⟨fun n ↦ ?_, ?_⟩⟩
    · exact ⟨spec, Except.ok.inj (hn.symm.trans hbuild), hholds⟩
    · have hfits' : ∀ x ∈ components', x.Fits := fun x hx ↦ hfits x (hperm.mem_iff.mpr hx)
      rcases CostSpec.holds_or_refused components' hfits' with
        ⟨-, spec', hspec', hholds'⟩ | ⟨hnot', -⟩
      · obtain rfl := (hholds.perm hperm).unique hholds'
        rw [hbuild, build_lotSpec_ok active hspec']
      · exact (hnot' (hsingle.perm hperm)).elim
    · intro e he
      rw [hbuild] at he
      cases he
  · have hbuild := build_lotSpec_error active he
    have hne : ∀ n, Node.build active (.lotSpec components) ≠ .ok n := fun n hn ↦ by
      rw [hbuild] at hn
      cases hn
    refine ⟨iff_of_false (fun ⟨n, hn⟩ ↦ hne n hn) hnot, fun n hn ↦ (hne n hn).elim,
      fun components' hperm ↦ ?_⟩
    have hfits' : ∀ x ∈ components', x.Fits := fun x hx ↦ hfits x (hperm.mem_iff.mpr hx)
    rcases CostSpec.holds_or_refused components' hfits' with
      ⟨hsingle', -⟩ | ⟨-, e', he', hcause'⟩
    · exact (hnot (hsingle'.perm hperm.symm)).elim
    · have hbuild' := build_lotSpec_error active he'
      refine ⟨fun n ↦ iff_of_false (hne n) fun hn ↦ ?_, fun _ _ ↦ ⟨e', hbuild', fun hvalid ↦ ?_⟩⟩
      · rw [hbuild'] at hn
        cases hn
      · exact hcause' fun text htext ↦ hvalid text (hperm.mem_iff.mpr htext)

/-- The lot `{*, "first", 2024-01-02, 7 EUR}`. -/
def mergedLot : List (LotComponent Node) :=
  [.merge, .label "first", .date "2024-01-02",
    .cost (.compound ⟨some ⟨false, 7, 0, by decide, Decimal.zero.scale_le⟩, none, "EUR"⟩)]

theorem lot_unordered_mergedLot :
    (∀ x ∈ mergedLot, x.Fits) ∧
      ∃ n, Node.build .empty (.lotSpec mergedLot) = .ok n ∧
        (∃ spec : CostSpec, n = .cost spec ∧ spec.Holds mergedLot) ∧
        Node.build .empty (.lotSpec mergedLot.reverse) = .ok n := by
  have hfits : ∀ x ∈ mergedLot, x.Fits := by simp [mergedLot, LotComponent.Fits, Node.kind]
  obtain ⟨-, hholds, hperm⟩ := lot_unordered .empty hfits
  obtain ⟨n, hn⟩ : ∃ n, Node.build .empty (.lotSpec mergedLot) = .ok n := ⟨_, rfl⟩
  exact ⟨hfits, n, hn, hholds n hn,
    ((hperm mergedLot.reverse mergedLot.reverse_perm.symm).1 n).mp hn⟩

end Lots

end PlainLedger
