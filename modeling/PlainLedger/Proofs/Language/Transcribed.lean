import PlainLedger.Proofs.Language.Neighbours

/-!
# Transcripts of what is granted

A transcript that refuses nothing writes down the requests that any other interpretation would be
given that grants everything and makes of a request the text of the object.
-/

namespace PlainLedger

open PlainLedger.Language

namespace Language

variable {H K ε : Type}

def Exchange.map (f : H → K) : Exchange H ε → Exchange K ε
  | construct c answer => .construct (c.map f) (answer.map f)
  | declare d answer => .declare d answer
  | report d => .report d
  | finish entries => .finish (entries.map f)

@[simp] theorem Construction.name_map (f : H → K) (c : Construction H) :
    (c.map f).name = c.name := by
  cases c with
  | statement origin date body details? => cases body <;> rfl
  | _ => rfl

@[simp] theorem Construction.origin?_map (f : H → K) (c : Construction H) :
    (c.map f).origin? = c.origin? := by
  cases c <;> rfl

end Language

namespace Transcript

/-- Something was asked for: it is no report, nor the last call. -/
def Call.isRequest (c : Call) : Bool := c.name ≠ "report_error" && c.name ≠ "finalize"

/-- The requests that were granted. -/
def requests (t : Transcript) : List Call := t.calls.toList.filter Call.isRequest

/-- The object without its number. -/
def Handle.bare (h : Handle) : Handle := ⟨0, h.text⟩

/-- The object that has the text asked for, and no number. -/
def make (c : Construction Handle) : Handle := ⟨0, objectText c⟩

/-- The call of a request, if the exchange is one. -/
def called? : Exchange Handle Refusal → Option Call
  | .construct c _ => some ⟨c.name, c.origin?.map Provenance.line, constructionText c⟩
  | .declare d _ => some ⟨d.name, d.origin?.map Provenance.line, declarationText d⟩
  | _ => none

section Texts

@[simp] theorem componentText_map (x : LotComponent Handle) :
    componentText (x.map Handle.bare) = componentText x := by
  cases x <;> rfl

@[simp] theorem metaText_map (m : MetaValue Handle) :
    metaText (m.map Handle.bare) = metaText m := by
  cases m <;> rfl

@[simp] theorem lineText_map (x : TxnLine Handle) : lineText (x.map Handle.bare) = lineText x := by
  cases x <;> rfl

theorem postingText_map (p : PostingParts Handle) :
    postingText (p.map Handle.bare) = postingText p := by
  obtain ⟨account, position?, price?, total, flag?, txnFlag⟩ := p
  cases position? <;> cases price? <;> rfl

theorem statementText_map (s : Statement Handle) :
    statementText (s.map Handle.bare) = statementText s := by
  cases s with
  | balance account amount tolerance? => cases tolerance? <;> rfl
  | _ => rfl

theorem detailsText_map (details? : Option (List Handle)) :
    detailsText (details?.map (List.map Handle.bare)) = detailsText details? := by
  cases details? with
  | none => rfl
  | some hs =>
    unfold detailsText
    rw [Option.map_some, Option.map_some, List.map_map, Option.map_some]
    rfl

/-- The text of an object does not tell the numbers of its parts. -/
theorem objectText_map (c : Construction Handle) :
    objectText (c.map Handle.bare) = objectText c := by
  have hmap : ∀ {A B : Type} {g : A → B} {show' : B → String} {show'' : A → String},
      (∀ x, show' (g x) = show'' x) → ∀ xs : List A, (xs.map g).map show' = xs.map show'' :=
    fun h xs ↦ by
      rw [List.map_map]
      exact List.map_congr_left fun x _ ↦ h x
  cases c with
  | compoundAmount perUnit? total? currency => cases perUnit? <;> cases total? <;> rfl
  | lotSpec components =>
    exact congrArg (fun xs ↦ "\x7b" ++ commaList xs ++ "\x7d") (hmap componentText_map components)
  | position origin units lot? => cases lot? <;> rfl
  | keyValue key value => exact congrArg (key ++ ": " ++ ·) (metaText_map value)
  | posting origin parts => exact congrArg (applied "posting") (postingText_map parts)
  | transaction origin date flag fields lines =>
    change applied _ (transactionText date flag fields (lines.map _)) = applied _ _
    unfold transactionText
    rw [hmap lineText_map]
    rfl
  | statement origin date body details? =>
    have hname := Construction.name_map Handle.bare (.statement origin date body details?)
    change applied (Construction.map _ (.statement origin date body details?)).name
      (date :: statementText _ ++ ["meta=" ++ detailsText _]) = _
    rw [hname, statementText_map, detailsText_map]
    rfl
  | _ => rfl

theorem constructionText_map (c : Construction Handle) :
    constructionText (c.map Handle.bare) = constructionText c := by
  have htext := objectText_map c
  have hname := Construction.name_map Handle.bare c
  cases c with
  | posting | transaction | statement => exact htext
  | _ => exact congrArg (fun text ↦ applied _ [text]) htext

theorem called?_map (x : Exchange Handle Refusal) :
    called? (x.map Handle.bare) = called? x := by
  cases x with
  | construct c answer =>
    unfold Exchange.map called?
    dsimp only
    rw [Construction.name_map, Construction.origin?_map, constructionText_map]
  | _ => rfl

end Texts

/-! ## Parses -/

/-- The transcript refuses nothing, and its calls are the requests that have been made. -/
structure Granting (s : Transcript × List (Exchange Handle Refusal)) : Prop where
  names : s.1.refusedNames = []
  texts : s.1.refusedTexts = []
  requests : s.1.requests = s.2.filterMap called?

theorem calls_releaseAll (t : Transcript) (hs : List Handle) :
    (t.releaseAll hs).refusedNames = t.refusedNames ∧
      (t.releaseAll hs).refusedTexts = t.refusedTexts ∧ (t.releaseAll hs).calls = t.calls := by
  unfold releaseAll
  induction hs generalizing t with
  | nil => exact ⟨rfl, rfl, rfl⟩
  | cons h hs ih => exact ih (t.release h)

theorem isRequest_construction (c : Construction Handle) (line? : Option Line) (text : String) :
    Call.isRequest ⟨c.name, line?, text⟩ = true := by
  cases c with
  | binary op => cases op <;> rfl
  | statement origin date body => cases body <;> rfl
  | _ => rfl

theorem isRequest_declaration (d : Declaration) (line? : Option Line) (text : String) :
    Call.isRequest ⟨d.name, line?, text⟩ = true := by
  cases d <;> rfl

section Granting

variable {s : Transcript × List (Exchange Handle Refusal)} {t : Transcript}

/-- A request is noted. -/
theorem Granting.call (h : Granting s) {c : Call} {x : Exchange Handle Refusal}
    (hnames : t.refusedNames = s.1.refusedNames) (htexts : t.refusedTexts = s.1.refusedTexts)
    (hcalls : t.calls = s.1.calls.push c) (hc : [c].filter Call.isRequest = (called? x).toList) :
    Granting (t, s.2 ++ [x]) where
  names := hnames.trans h.names
  texts := htexts.trans h.texts
  requests := by
    have hrequests : t.requests = s.1.requests ++ [c].filter Call.isRequest := by
      unfold Transcript.requests
      rw [hcalls, Array.toList_push, List.filter_append]
    rw [hrequests, hc, h.requests, List.filterMap_append]
    cases hcalled : called? x <;> simp [hcalled]

theorem Granting.construct (h : Granting s) (c : Construction Handle) :
    (s.1.construct c).1 = .ok ⟨s.1.acquired, objectText c⟩ ∧
      Granting (interpretation.watched.construct c s).2 := by
  have hgranted : s.1.refuses c.name (objectText c) = false := by
    unfold Transcript.refuses
    rw [h.names, h.texts]
    rfl
  have hconstruct : s.1.construct c = (.ok ⟨s.1.acquired, objectText c⟩,
      ((s.1.call ⟨c.name, c.origin?.map Provenance.line, constructionText c⟩).acquire
        (objectText c)).2.releaseAll c.handles) := by
    unfold Transcript.construct
    dsimp only
    rw [hgranted]
    rfl
  obtain ⟨hnames, htexts, hcalls⟩ := calls_releaseAll ((s.1.call
    ⟨c.name, c.origin?.map Provenance.line, constructionText c⟩).acquire (objectText c)).2 c.handles
  rw [show interpretation.watched.construct c s = ((s.1.construct c).1,
    ((s.1.construct c).2, s.2 ++ [.construct c (s.1.construct c).1])) from rfl, hconstruct]
  refine ⟨rfl, h.call hnames htexts hcalls ?_⟩
  rw [List.filter_singleton, isRequest_construction]
  rfl

theorem Granting.declare (h : Granting s) (d : Declaration) :
    (s.1.declare d).1 = .ok () ∧ Granting (interpretation.watched.declare d s).2 := by
  have hgranted : s.1.refuses d.name (declarationText d) = false := by
    unfold Transcript.refuses
    rw [h.names, h.texts]
    rfl
  have hdeclare : s.1.declare d =
      (.ok (), s.1.call ⟨d.name, d.origin?.map Provenance.line, declarationText d⟩) := by
    unfold Transcript.declare
    dsimp only
    rw [hgranted]
    rfl
  rw [show interpretation.watched.declare d s = ((s.1.declare d).1,
    ((s.1.declare d).2, s.2 ++ [.declare d (s.1.declare d).1])) from rfl, hdeclare]
  refine ⟨rfl, h.call rfl rfl rfl ?_⟩
  rw [List.filter_singleton, isRequest_declaration]
  rfl

theorem keeps_granting : interpretation.watched.Keeps Granting where
  construct c _ h := (h.construct c).2
  declare d _ h := (h.declare d).2
  report _ _ h := h.call rfl rfl rfl rfl
  release _ _ h := ⟨h.names, h.texts, h.requests⟩
  finish hs s h := by
    obtain ⟨hnames, htexts, hcalls⟩ := calls_releaseAll
      (s.1.call ⟨"finalize", none, applied "finalize" [toString hs.length]⟩) hs
    exact h.call hnames htexts hcalls rfl

theorem map_snoc (xs : List (Exchange Handle Refusal)) (x : Exchange Handle Refusal) :
    (xs ++ [x]).map (Exchange.map Handle.bare) =
      xs.map (Exchange.map Handle.bare) ++ [x.map Handle.bare] := List.map_append

/-- Without the numbers, the answers of such a transcript are those that grant everything. -/
theorem maps_granting : (interpretation.watched.keeping keeps_granting).Maps
    (Interpretation.granting make).watched Handle.bare
    (fun s ↦ ((), s.1.2.map (Exchange.map Handle.bare))) (List.map fun text ↦ ⟨0, text⟩) where
  construct c s := by
    have hanswer := (s.2.construct c).1
    have hmake : make (c.map Handle.bare) = ⟨0, objectText c⟩ := by
      rw [make, objectText_map]
    refine Prod.ext ?_ (Prod.ext rfl ?_)
    · change Except.ok (make (c.map Handle.bare)) = (s.1.1.construct c).1.map Handle.bare
      rw [hanswer, hmake]
      rfl
    · change s.1.2.map (Exchange.map Handle.bare) ++
          [Exchange.construct (c.map Handle.bare) (.ok (make (c.map Handle.bare)))] =
        (s.1.2 ++ [Exchange.construct c (s.1.1.construct c).1]).map (Exchange.map Handle.bare)
      rw [hanswer, hmake, map_snoc]
      rfl
  declare d s := by
    have hanswer := (s.2.declare d).1
    refine Prod.ext hanswer.symm (Prod.ext rfl ?_)
    change s.1.2.map (Exchange.map Handle.bare) ++ [Exchange.declare d (.ok ())] =
      (s.1.2 ++ [Exchange.declare d (s.1.1.declare d).1]).map (Exchange.map Handle.bare)
    rw [hanswer, map_snoc]
    rfl
  report d s := Prod.ext rfl (map_snoc s.1.2 (Exchange.report d)).symm
  release _ _ := rfl
  finish hs s := Prod.ext (List.map_map (l := hs)).symm
    (Prod.ext rfl (map_snoc s.1.2 (Exchange.finish hs)).symm)
  message _ := rfl

/-- What is read into a transcript is what is read where everything is granted. -/
theorem parse_granting (ctx : Context) (options : Options) (tokens : List Token) :
    ∃ xs, parse (Interpretation.granting make).watched ctx options tokens ((), []) =
        ((parse interpretation ctx options tokens {}).1.map (List.map fun text ↦ ⟨0, text⟩),
          (), xs) ∧
      (parse interpretation ctx options tokens {}).2.requests = xs.filterMap called? := by
  have hstart : Granting ({}, []) := ⟨rfl, rfl, rfl⟩
  have hwatched := parse_watched interpretation ctx options tokens {} []
  have hkeeping := parse_map (maps_keeping keeps_granting) ctx options tokens ⟨({}, []), hstart⟩
  have hmap := parse_map maps_granting ctx options tokens ⟨({}, []), hstart⟩
  rw [Parsed.map_id] at hkeeping
  -- what is compared are the results, and not how they come about
  have hresults : ∀ {p : Parsed (List String) × Transcript × List (Exchange Handle Refusal)}
      {p' : Parsed (List String) × Transcript} {q : Parsed (List String) × { s // Granting s }}
      {r : Parsed (List Handle) × Unit × List (Exchange Handle Refusal)}, p = (q.1, q.2.1) →
      p.1 = p'.1 ∧ p.2.1 = p'.2 → r = (q.1.map (List.map fun text ↦ ⟨0, text⟩), (),
        q.2.1.2.map (Exchange.map Handle.bare)) →
      ∃ xs, r = (p'.1.map (List.map fun text ↦ ⟨0, text⟩), (), xs) ∧
        p'.2.requests = xs.filterMap called? := by
    rintro _ ⟨_, _⟩ q _ rfl ⟨rfl, rfl⟩ rfl
    refine ⟨_, rfl, ?_⟩
    rw [List.filterMap_map, show called? ∘ Exchange.map Handle.bare = called? from
      funext called?_map]
    exact q.2.2.requests
  exact hresults hkeeping hwatched hmap

end Granting

end Transcript

end PlainLedger
