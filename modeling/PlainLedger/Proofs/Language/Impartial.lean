import PlainLedger.Proofs.Language.Image
import PlainLedger.Transcript

/-!
# Interpretations that do not mind lines

Requests come from lines of a file, and between them diagnostics are reported. An interpretation is
impartial if what it grants depends on neither. A transcript is: it refuses requests by their names
and by texts in which no line is told.
-/

namespace PlainLedger

namespace Language

variable {H ε σ ω : Type}

/-- Two courses of calls from one state on, in which the same is asked for and granted, but from
other lines of the same files, and other diagnostics are reported. The pairs are of objects that the
same request was granted for in the one course and in the other, and that have not been used up. -/
inductive Interpretation.Courses (i : Interpretation H ε σ ω) (state : σ) :
    List (H × H) → σ → σ → Prop where
  | start : Courses i state [] state state
  | perm {ps qs : List (H × H)} {s t : σ} (h : Courses i state ps s t) (hperm : ps.Perm qs) :
      Courses i state qs s t
  | report {ps : List (H × H)} {s t : σ} (h : Courses i state ps s t) (d d' : Diagnostic) :
      Courses i state ps (i.report d s) (i.report d' t)
  | release {p : H × H} {ps : List (H × H)} {s t : σ} (h : Courses i state (p :: ps) s t) :
      Courses i state ps (i.release p.1 s) (i.release p.2 t)
  | made {c : Construction (H × H)} {ps : List (H × H)} {s t s' t' : σ} {a b : H}
      {move : Provenance → Provenance} (hmove : ∀ origin, (move origin).file = origin.file)
      (h : Courses i state (c.handles ++ ps) s t)
      (hleft : i.construct (c.map Prod.fst) s = (.ok a, s'))
      (hright : i.construct ((c.map Prod.snd).relocate move) t = (.ok b, t')) :
      Courses i state ((a, b) :: ps) s' t'
  | refused {c : Construction (H × H)} {ps : List (H × H)} {s t s' t' : σ} {x y : ε}
      {move : Provenance → Provenance} (hmove : ∀ origin, (move origin).file = origin.file)
      (h : Courses i state (c.handles ++ ps) s t)
      (hleft : i.construct (c.map Prod.fst) s = (.error x, s'))
      (hright : i.construct ((c.map Prod.snd).relocate move) t = (.error y, t')) :
      Courses i state ps s' t'
  | declared {d : Declaration} {ps : List (H × H)} {s t s' t' : σ} {x y : Except ε Unit}
      {move : Provenance → Provenance} (hmove : ∀ origin, (move origin).file = origin.file)
      (h : Courses i state ps s t) (hleft : i.declare d s = (x, s'))
      (hright : i.declare (d.relocate move) t = (y, t')) (hgranted : x.isOk = y.isOk) :
      Courses i state ps s' t'

/-- Both requests are granted, or both are refused, with messages that are related by `said`. -/
def Interpretation.Alike (i : Interpretation H ε σ ω) (said : String → String → Prop) {A B : Type} :
    Except ε A → Except ε B → Prop
  | .ok _, .ok _ => True
  | .error x, .error y => said (i.message x) (i.message y)
  | _, _ => False

/-- Whether a request is granted depends neither on the line that it comes from, nor on the lines
that those before it came from, nor on the diagnostics. The messages with which it is refused can,
as long as they are related by `said`. -/
structure Interpretation.Impartial (i : Interpretation H ε σ ω) (said : String → String → Prop)
    (state : σ) : Prop where
  construct {c : Construction (H × H)} {ps : List (H × H)} {s t : σ}
    {move : Provenance → Provenance} (hmove : ∀ origin, (move origin).file = origin.file)
    (h : i.Courses state (c.handles ++ ps) s t) :
    i.Alike said (i.construct (c.map Prod.fst) s).1
      (i.construct ((c.map Prod.snd).relocate move) t).1
  declare (d : Declaration) {ps : List (H × H)} {s t : σ} {move : Provenance → Provenance}
    (hmove : ∀ origin, (move origin).file = origin.file) (h : i.Courses state ps s t) :
    i.Alike said (i.declare d s).1 (i.declare (d.relocate move) t).1

end Language

/-! ## Transcripts -/

open PlainLedger.Language

namespace Transcript

/-- The transcripts refuse the same, and have handed out as many objects. -/
structure Agrees (t t' : Transcript) : Prop where
  names : t'.refusedNames = t.refusedNames
  texts : t'.refusedTexts = t.refusedTexts
  acquired : t'.acquired = t.acquired

variable {s s' t t' : Transcript}

theorem Agrees.releaseAll (h : Agrees t t') (hs hs' : List Handle) :
    Agrees (t.releaseAll hs) (t'.releaseAll hs') := by
  have hkeeps : ∀ (hs : List Handle) (t : Transcript),
      (t.releaseAll hs).refusedNames = t.refusedNames ∧
        (t.releaseAll hs).refusedTexts = t.refusedTexts ∧
        (t.releaseAll hs).acquired = t.acquired := by
    intro hs
    induction hs with
    | nil => exact fun _ ↦ ⟨rfl, rfl, rfl⟩
    | cons x hs ih => exact fun t ↦ ih (t.release x)
  obtain ⟨hnames, htexts, hacquired⟩ := hkeeps hs t
  obtain ⟨hnames', htexts', hacquired'⟩ := hkeeps hs' t'
  exact ⟨hnames'.trans (h.names.trans hnames.symm), htexts'.trans (h.texts.trans htexts.symm),
    hacquired'.trans (h.acquired.trans hacquired.symm)⟩

theorem Agrees.refuses_eq (h : Agrees t t') (name text : String) :
    t'.refuses name text = t.refuses name text := by
  unfold refuses
  rw [h.names, h.texts]

/-- What is written down of a request does not tell where it comes from. -/
theorem Agrees.construct (h : Agrees t t') (c : Construction Handle)
    (move : Provenance → Provenance) :
    (interpretation.construct (c.relocate move) t').1 = (interpretation.construct c t).1 ∧
      Agrees (interpretation.construct c t).2
        (interpretation.construct (c.relocate move) t').2 := by
  have hname : (c.relocate move).name = c.name := by cases c <;> rfl
  have htext : objectText (c.relocate move) = objectText c := by cases c <;> rfl
  unfold interpretation Transcript.construct
  dsimp only
  rw [hname, htext, h.refuses_eq]
  split
  · refine ⟨rfl, Agrees.releaseAll ?_ _ _⟩
    exact ⟨h.names, h.texts, h.acquired⟩
  · refine ⟨?_, Agrees.releaseAll ?_ _ _⟩
    · exact congrArg (fun n ↦ Except.ok (Handle.mk n (objectText c))) h.acquired
    · exact ⟨h.names, h.texts, congrArg (· + 1) h.acquired⟩

theorem Agrees.declare (h : Agrees t t') (d : Declaration) (move : Provenance → Provenance) :
    (interpretation.declare (d.relocate move) t').1 = (interpretation.declare d t).1 ∧
      Agrees (interpretation.declare d t).2 (interpretation.declare (d.relocate move) t').2 := by
  have hname : (d.relocate move).name = d.name := by cases d <;> rfl
  have htext : declarationText (d.relocate move) = declarationText d := by cases d <;> rfl
  unfold interpretation Transcript.declare
  dsimp only
  rw [hname, htext, h.refuses_eq]
  split
  · exact ⟨rfl, h.names, h.texts, h.acquired⟩
  · exact ⟨rfl, h.names, h.texts, h.acquired⟩

/-- The same objects are in two requests if they are the same in pairs. -/
theorem map_snd_eq {c : Construction (Handle × Handle)} {ps : List (Handle × Handle)}
    (h : ∀ p ∈ c.handles ++ ps, p.1 = p.2) : c.map Prod.snd = c.map Prod.fst :=
  Construction.map_congr fun p hp ↦ (h p (List.mem_append_left _ hp)).symm

/-- In two courses of calls to a transcript the objects are the same. -/
theorem agrees_of_courses {ps : List (Handle × Handle)} (h : interpretation.Courses t ps s s') :
    Agrees s s' ∧ ∀ p ∈ ps, p.1 = p.2 := by
  induction h with
  | start => exact ⟨⟨rfl, rfl, rfl⟩, fun p hp ↦ by cases hp⟩
  | perm _ hperm ih => exact ⟨ih.1, fun p hp ↦ ih.2 p (hperm.mem_iff.mpr hp)⟩
  | report _ d d' ih => exact ⟨⟨ih.1.names, ih.1.texts, ih.1.acquired⟩, ih.2⟩
  | release _ ih =>
    exact ⟨⟨ih.1.names, ih.1.texts, ih.1.acquired⟩, fun p hp ↦ ih.2 p (List.mem_cons_of_mem _ hp)⟩
  | @made c ps s t s' t' a b move _ _ hleft hright ih =>
    obtain ⟨hsame, hagrees⟩ := ih.1.construct (c.map Prod.fst) move
    rw [map_snd_eq ih.2] at hright
    rw [hleft, hright] at hsame hagrees
    refine ⟨hagrees, List.forall_mem_cons.mpr ⟨(Except.ok.inj hsame).symm, fun p hp ↦ ?_⟩⟩
    exact ih.2 p (List.mem_append_right _ hp)
  | @refused c ps s t s' t' x y move _ _ hleft hright ih =>
    obtain ⟨-, hagrees⟩ := ih.1.construct (c.map Prod.fst) move
    rw [map_snd_eq ih.2] at hright
    rw [hleft, hright] at hagrees
    exact ⟨hagrees, fun p hp ↦ ih.2 p (List.mem_append_right _ hp)⟩
  | @declared d ps s t s' t' x y move _ _ hleft hright _ ih =>
    obtain ⟨-, hagrees⟩ := ih.1.declare d move
    rw [hleft, hright] at hagrees
    exact ⟨hagrees, ih.2⟩

theorem alike_of_eq {A : Type} {x y : Except Refusal A} (h : y = x) :
    interpretation.Alike Eq x y := by
  subst h
  cases y with
  | ok a => trivial
  | error reason => rfl

/-- What a transcript refuses depends on names and texts only. -/
theorem impartial (t : Transcript) : interpretation.Impartial Eq t where
  construct {c ps s s' move} _ h := by
    obtain ⟨hagrees, hsame⟩ := agrees_of_courses h
    rw [map_snd_eq hsame]
    exact alike_of_eq (hagrees.construct _ move).1
  declare d ps s s' move _ h := alike_of_eq ((agrees_of_courses h).1.declare d move).1

end Transcript

end PlainLedger
