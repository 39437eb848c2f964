import PlainLedger.Book
import PlainLedger.Proofs.Language.Diagnostics

/-!
# Histories of books

A book can be asked for nodes and told settings and messages, in any order and as often as one
likes. What it remembers of all that, and what it answers, can be read off the history of the calls.
-/

namespace PlainLedger

open PlainLedger.Language

namespace Book

/-- A call before the ledger is handed over. -/
inductive Request where
  | construct (c : Construction Node)
  | declare (d : Declaration)
  | report (d : Diagnostic)

abbrev History := List (Exchange Node BookError)

/-- Makes a call and puts it on record. -/
def ask (s : Book × History) : Request → Book × History
  | .construct c => (interpretation.watched.construct c s).2
  | .declare d => (interpretation.watched.declare d s).2
  | .report d => interpretation.watched.report d s

/-- What becomes of a book, and the history of the calls, with the answers. -/
def askAll (b : Book) (requests : List Request) : Book × History :=
  requests.foldl ask (b, [])

namespace History

/-! ## What a history says -/

def request? : Exchange Node BookError → Option Request
  | .construct c _ => some (.construct c)
  | .declare d _ => some (.declare d)
  | .report d => some (.report d)
  | .finish _ => none

/-- The call was refused. -/
def Refused : Exchange Node BookError → Prop
  | .construct _ answer => ∃ e, answer = .error e
  | .declare _ answer => ∃ e, answer = .error e
  | _ => False

def value? (key : String) : Exchange Node BookError → Option String
  | .declare (.option _ k v) _ => if k = key then some v else none
  | _ => none

def include? : Exchange Node BookError → Option String
  | .declare (.includeFile _ filename) _ => some filename
  | _ => none

def plugin? : Exchange Node BookError → Option Plugin
  | .declare (.plugin _ name config?) _ => some ⟨name, config?⟩
  | _ => none

abbrev push (tag : String) : Exchange Node BookError := .declare (.pushTag tag) (.ok ())

abbrev pop (tag : String) : Exchange Node BookError := .declare (.popTag tag) (.ok ())

/-- The tag was pushed, and since then it has not been popped. -/
def Pushed (tag : String) (h : History) : Prop :=
  ∃ before after, h = before ++ push tag :: after ∧ pop tag ∉ after

/-- The answer is the one that the calls `before` it make for. -/
def Answers (before : History) : Exchange Node BookError → Prop
  | .declare (.popTag tag) answer =>
    Pushed tag before ∧ answer = .ok () ∨ ¬Pushed tag before ∧ answer = .error (.absentTag tag)
  | .declare _ answer => answer = .ok ()
  | .construct (.transaction _ _ _ fields _) (.ok node) =>
    ∃ entry transaction, node = .entry entry ∧ entry.directive = .transaction transaction ∧
      ∀ tag, tag ∈ transaction.tags.toList ↔ tag ∈ fields.tags ∨ Pushed tag before
  | _ => True

theorem filterMap_snoc {β : Type} (f : Exchange Node BookError → Option β) (h : History)
    (x : Exchange Node BookError) : (h ++ [x]).filterMap f = h.filterMap f ++ (f x).toList := by
  rw [List.filterMap_append]
  cases hx : f x <;> simp [hx]

theorem not_pushed_nil (tag : String) : ¬Pushed tag [] := by
  rintro ⟨before, after, h, -⟩
  simp at h

theorem pushed_append {tag : String} {h : History} {x : Exchange Node BookError} :
    Pushed tag (h ++ [x]) ↔ x = push tag ∨ Pushed tag h ∧ x ≠ pop tag := by
  constructor
  · rintro ⟨before, after, heq, hafter⟩
    rcases List.eq_nil_or_concat after with rfl | ⟨after, z, rfl⟩
    · exact Or.inl (List.singleton_inj.mp (List.append_inj' heq rfl).2)
    · rw [List.concat_eq_append] at heq hafter
      rw [← List.cons_append, ← List.append_assoc] at heq
      obtain ⟨rfl, hx⟩ := List.append_inj' heq rfl
      cases hx
      rw [List.mem_append, not_or] at hafter
      refine Or.inr ⟨⟨before, after, rfl, hafter.1⟩, fun hpop ↦ hafter.2 ?_⟩
      rw [hpop]
      exact List.mem_singleton_self _
  · rintro (rfl | ⟨⟨before, after, rfl, hafter⟩, hx⟩)
    · exact ⟨h, [], rfl, List.not_mem_nil⟩
    · refine ⟨before, after ++ [x], by simp, fun hmem ↦ ?_⟩
      rcases List.mem_append.mp hmem with hmem | hmem
      · exact hafter hmem
      · exact hx (List.mem_singleton.mp hmem).symm

/-- Each call was answered as the calls before it make for. -/
def Answered (h : History) : Prop :=
  ∀ before x after, h = before ++ x :: after → Answers before x

theorem answered_nil : Answered [] := by
  intro before x after h
  simp at h

theorem Answered.snoc {h : History} {x : Exchange Node BookError} (hh : Answered h)
    (hx : Answers h x) : Answered (h ++ [x]) := by
  intro before y after heq
  rcases List.eq_nil_or_concat after with rfl | ⟨after, z, rfl⟩
  · obtain ⟨rfl, hxy⟩ := List.append_inj' heq rfl
    rwa [← List.singleton_inj.mp hxy]
  · rw [List.concat_eq_append, ← List.cons_append, ← List.append_assoc] at heq
    exact hh before y after (List.append_inj' heq rfl).1

end History

open History

/-! ## What a book remembers -/

/-- The present value of an option and the earlier ones are all that it was given. -/
structure Recalls (present? : Option String) (earlier? : Option (List String))
    (values : List String) : Prop where
  all : earlier?.getD [] ++ present?.toList = values
  /-- There is no list of earlier values before the second one. -/
  twice : earlier? ≠ none → 2 ≤ values.length
  set : present? = none → values = []

section Recalls

variable {earlier? : Option (List String)} {values : List String}

theorem Recalls.first (h : Recalls none earlier? values) (v : String) :
    Recalls (some v) earlier? (values ++ [v]) := by
  obtain ⟨hall, htwice, hset⟩ := h
  refine ⟨by simpa using hall, fun hne ↦ ?_, nofun⟩
  have hlength := htwice hne
  rw [hset rfl] at hlength
  simp at hlength

theorem Recalls.next {present : String} (h : Recalls (some present) earlier? values)
    (v : String) :
    Recalls (some v) (some (earlier?.getD [] ++ [present])) (values ++ [v]) := by
  obtain ⟨rfl, -, -⟩ := h
  exact ⟨by simp, by simp, nofun⟩

end Recalls

/-- Setting an option is told of that option only. -/
theorem recalls_setOption {b : Book} {key k : String} {values : List String}
    (h : Recalls (b.options.get? k) (b.optionHistory.get? k) values) (v : String) :
    Recalls ((b.setOption key v).options.get? k) ((b.setOption key v).optionHistory.get? k)
      (values ++ (if key = k then some v else none).toList) := by
  by_cases hk : key = k
  · subst hk
    cases hpresent : b.options.get? key with
    | none => simpa [setOption, hpresent] using (hpresent ▸ h).first v
    | some present => simpa [setOption, hpresent] using (hpresent ▸ h).next v
  · have hk' : k ≠ key := fun h ↦ hk h.symm
    cases hpresent : b.options.get? key <;>
      simpa [setOption, hpresent, hk, TextMap.get?_put_of_ne _ hk'] using h

/-- The book holds what the history says. -/
structure Reflects (file : String) (h : History) (b : Book) : Prop where
  file : b.file = file
  options : ∀ key, Recalls (b.options.get? key) (b.optionHistory.get? key)
    (h.filterMap (value? key))
  includes : b.includes = h.filterMap include?
  plugins : b.plugins = h.filterMap plugin?
  errors : b.errors = h.filterMap Exchange.reported?
  tags : ∀ tag, b.activeTags.contains tag = true ↔ Pushed tag h

theorem reflects_new (file : String) : Reflects file [] { file } where
  file := rfl
  options _ := ⟨rfl, fun h ↦ (h rfl).elim, fun _ ↦ rfl⟩
  includes := rfl
  plugins := rfl
  errors := rfl
  tags tag := iff_of_false (by simp [TextSet.contains, TextSet.empty]) (not_pushed_nil tag)

section Step

variable {file : String} {h : History} {b b' : Book} {x : Exchange Node BookError}

theorem Reflects.snoc (hb : Reflects file h b) (hfile : b'.file = b.file)
    (hoptions : ∀ key values, Recalls (b.options.get? key) (b.optionHistory.get? key) values →
      Recalls (b'.options.get? key) (b'.optionHistory.get? key)
        (values ++ (value? key x).toList))
    (hincludes : b'.includes = b.includes ++ (include? x).toList)
    (hplugins : b'.plugins = b.plugins ++ (plugin? x).toList)
    (herrors : b'.errors = b.errors ++ (Exchange.reported? x).toList)
    (htags : ∀ tag, b'.activeTags.contains tag = true ↔
      x = push tag ∨ b.activeTags.contains tag = true ∧ x ≠ pop tag) :
    Reflects file (h ++ [x]) b' where
  file := hfile.trans hb.file
  options key := by
    rw [filterMap_snoc]
    exact hoptions key _ (hb.options key)
  includes := by rw [filterMap_snoc, hincludes, hb.includes]
  plugins := by rw [filterMap_snoc, hplugins, hb.plugins]
  errors := by rw [filterMap_snoc, herrors, hb.errors]
  tags tag := by rw [htags, pushed_append, hb.tags]

/-- A call that has to do with no option and no tag. -/
theorem Reflects.note (hb : Reflects file h b) (hfile : b'.file = b.file)
    (hoptions : b'.options = b.options) (hhistory : b'.optionHistory = b.optionHistory)
    (htags : b'.activeTags = b.activeTags)
    (hincludes : b'.includes = b.includes ++ (include? x).toList)
    (hplugins : b'.plugins = b.plugins ++ (plugin? x).toList)
    (herrors : b'.errors = b.errors ++ (Exchange.reported? x).toList)
    (hvalue : ∀ key, value? key x = none) (hpush : ∀ tag, x ≠ push tag)
    (hpop : ∀ tag, x ≠ pop tag) : Reflects file (h ++ [x]) b' := by
  refine hb.snoc hfile (fun key values hvalues ↦ ?_) hincludes hplugins herrors fun tag ↦ ?_
  · rwa [hoptions, hhistory, hvalue, Option.toList_none, List.append_nil]
  · simp [htags, hpush, hpop]

/-- A call that leaves the book as it is. -/
theorem Reflects.idle (hb : Reflects file h b) (hvalue : ∀ key, value? key x = none)
    (hinclude : include? x = none) (hplugin : plugin? x = none)
    (hmessage : Exchange.reported? x = none)
    (hpush : ∀ tag, x ≠ push tag) (hpop : ∀ tag, x ≠ pop tag) : Reflects file (h ++ [x]) b := by
  refine hb.note rfl rfl rfl rfl ?_ ?_ ?_ hvalue hpush hpop
  · rw [hinclude, Option.toList_none, List.append_nil]
  · rw [hplugin, Option.toList_none, List.append_nil]
  · rw [hmessage, Option.toList_none, List.append_nil]

/-- A transaction has its own tags and those that are pushed. -/
theorem exists_of_ofTransaction {active : TextSet} {origin : Provenance} {date : String}
    {flag : Char} {fields : TxnFields} {lines : List (TxnLine Node)} {entry : Entry}
    (h : Entry.ofTransaction active origin date flag fields lines = .ok entry) :
    ∃ t, entry.directive = .transaction t ∧
      t.tags = (TextSet.ofList fields.tags).union active := by
  unfold Entry.ofTransaction at h
  cases hdescription : description fields.strings with
  | error _ =>
    rw [hdescription] at h
    cases h
  | ok described =>
    cases hitems : lines.foldlM TxnItem.attachLine (Metadata.ofOrigin origin, []) with
    | error _ =>
      rw [hdescription, hitems] at h
      cases h
    | ok items =>
      cases hdate : Date.read date with
      | error _ =>
        rw [hdescription, hitems, hdate] at h
        cases h
      | ok d =>
        rw [hdescription, hitems, hdate] at h
        cases h
        exact ⟨_, rfl, rfl⟩

theorem answers_construct (hb : Reflects file h b) (c : Construction Node) :
    Answers h (.construct c (Node.build b.activeTags c)) := by
  cases c with
  | transaction origin date flag fields lines =>
    cases hentry : Entry.ofTransaction b.activeTags origin date flag fields lines with
    | error e =>
      rw [Node.build, hentry]
      trivial
    | ok entry =>
      obtain ⟨t, hdirective, htags⟩ := exists_of_ofTransaction hentry
      rw [Node.build, hentry]
      refine ⟨entry, t, rfl, hdirective, fun tag ↦ ?_⟩
      rw [htags, ← hb.tags]
      simp [TextSet.union, TextSet.ofList, TextSet.contains]
  | _ => trivial

/-- A declaration is answered as the history asks for, and goes into the book unless it is
refused. -/
theorem Reflects.declare (hb : Reflects file h b) (d : Declaration) :
    Answers h (.declare d (b.declare d).1) ∧
      Reflects file (h ++ [.declare d (b.declare d).1]) (b.declare d).2 := by
  cases d with
  | option origin key value =>
    refine ⟨rfl, hb.snoc rfl (fun k values hvalues ↦ recalls_setOption hvalues value)
      (List.append_nil _).symm (List.append_nil _).symm (List.append_nil _).symm fun tag ↦ ?_⟩
    simp [Book.declare, setOption]
  | includeFile origin filename =>
    exact ⟨rfl, hb.note rfl rfl rfl rfl rfl (List.append_nil _).symm (List.append_nil _).symm
      (fun _ ↦ rfl) (by simp) (by simp)⟩
  | plugin origin name config? =>
    exact ⟨rfl, hb.note rfl rfl rfl rfl (List.append_nil _).symm rfl (List.append_nil _).symm
      (fun _ ↦ rfl) (by simp) (by simp)⟩
  | pushTag tag =>
    refine ⟨rfl, hb.snoc rfl (fun key values hvalues ↦ ?_) (List.append_nil _).symm
      (List.append_nil _).symm (List.append_nil _).symm fun t ↦ ?_⟩
    · exact (List.append_nil values).symm ▸ hvalues
    · rw [show (b.declare (.pushTag tag)).2 = b.pushTag tag from rfl, Book.pushTag,
        TextSet.contains_insert]
      simp [@eq_comm _ t tag, Book.declare]
  | popTag tag =>
    by_cases htag : b.activeTags.contains tag = true
    · have hpop : b.declare (.popTag tag) = (.ok (), b.popTag tag) := if_pos htag
      rw [hpop]
      refine ⟨Or.inl ⟨(hb.tags tag).mp htag, rfl⟩, hb.snoc rfl (fun key values hvalues ↦ ?_)
        (List.append_nil _).symm (List.append_nil _).symm (List.append_nil _).symm fun t ↦ ?_⟩
      · exact (List.append_nil values).symm ▸ hvalues
      · rw [Book.popTag, TextSet.contains_erase]
        simp [@eq_comm _ t tag, and_comm]
    · have hrefused : b.declare (.popTag tag) = (.error (.absentTag tag), b) := if_neg htag
      rw [hrefused]
      exact ⟨Or.inr ⟨fun hpushed ↦ htag ((hb.tags tag).mpr hpushed), rfl⟩,
        hb.idle (fun _ ↦ rfl) rfl rfl rfl (by simp) (by simp)⟩

theorem Reflects.construct (hb : Reflects file h b) (c : Construction Node) :
    Reflects file (h ++ [.construct c (Node.build b.activeTags c)]) b :=
  hb.idle (fun _ ↦ rfl) rfl rfl rfl (by simp) (by simp)

theorem Reflects.report (hb : Reflects file h b) (d : Diagnostic) :
    Reflects file (h ++ [.report d]) (b.report d) :=
  hb.note rfl rfl rfl rfl (List.append_nil _).symm (List.append_nil _).symm rfl (fun _ ↦ rfl)
    (by simp) (by simp)

/-- Every call is answered as the history asks for, and the book goes on to hold what the history
says. -/
theorem Reflects.ask (hb : Reflects file h b) (q : Request) :
    ∃ x, (Book.ask (b, h) q).2 = h ++ [x] ∧ request? x = some q ∧ Answers h x ∧
      Reflects file (h ++ [x]) (Book.ask (b, h) q).1 := by
  cases q with
  | construct c =>
    exact ⟨.construct c (Node.build b.activeTags c), rfl, rfl, answers_construct hb c,
      hb.construct c⟩
  | declare d =>
    obtain ⟨hanswers, hreflects⟩ := hb.declare d
    exact ⟨.declare d (b.declare d).1, rfl, rfl, hanswers, hreflects⟩
  | report d => exact ⟨.report d, rfl, rfl, trivial, hb.report d⟩

end Step

/-! ## All calls -/

theorem askAll_snoc (b : Book) (requests : List Request) (q : Request) :
    b.askAll (requests ++ [q]) = Book.ask (b.askAll requests) q := by
  simp [askAll]

theorem reflects_askAll (file : String) (requests : List Request) :
    (askAll { file } requests).2.map request? = requests.map some ∧
      Answered (askAll { file } requests).2 ∧
      Reflects file (askAll { file } requests).2 (askAll { file } requests).1 := by
  induction requests using List.reverseRecOn with
  | nil => exact ⟨rfl, answered_nil, reflects_new file⟩
  | append_singleton requests q ih =>
    obtain ⟨hrequests, hanswered, hreflects⟩ := ih
    obtain ⟨x, hx, hrequest, hanswers, hreflects'⟩ := hreflects.ask q
    rw [askAll_snoc, hx]
    refine ⟨?_, hanswered.snoc hanswers, hreflects'⟩
    rw [List.map_append, List.map_append, hrequests]
    exact congrArg _ (congrArg (fun y ↦ [y]) hrequest)

/-- What calls come to does not depend on what is on record before them. -/
theorem foldl_ask (b : Book) (h : History) (requests : List Request) :
    requests.foldl Book.ask (b, h) = ((b.askAll requests).1, h ++ (b.askAll requests).2) := by
  have hstep : ∀ (b : Book) (h : History) q, Book.ask (b, h) q =
      ((Book.ask (b, []) q).1, h ++ (Book.ask (b, []) q).2) := by
    intro b h q
    cases q <;> rfl
  induction requests generalizing b h with
  | nil => simp [askAll]
  | cons q requests ih =>
    have hall : b.askAll (q :: requests) = ((Book.ask (b, []) q).1.askAll requests).map id
        ((Book.ask (b, []) q).2 ++ ·) := ih _ _
    rw [List.foldl_cons, hstep, ih, hall, List.append_assoc]
    rfl

theorem askAll_append (b : Book) (xs ys : List Request) :
    b.askAll (xs ++ ys) = (((b.askAll xs).1.askAll ys).1,
      (b.askAll xs).2 ++ ((b.askAll xs).1.askAll ys).2) := by
  rw [askAll, List.foldl_append, ← foldl_ask]
  rfl

/-- A refused call leaves the book as it was. -/
theorem ask_of_refused {b : Book} {h : History} {x : Exchange Node BookError} {q : Request}
    (hx : (Book.ask (b, h) q).2 = h ++ [x]) (hrefused : Refused x) :
    (Book.ask (b, h) q).1 = b := by
  cases q with
  | construct c => rfl
  | declare d =>
    have hd : .declare d (b.declare d).1 = x :=
      List.singleton_inj.mp (List.append_cancel_left hx)
    subst hd
    obtain ⟨e, he⟩ := hrefused
    exact declare_of_error he
  | report d =>
    have hd : .report d = x := List.singleton_inj.mp (List.append_cancel_left hx)
    subst hd
    exact hrefused.elim

theorem exists_ask (b : Book) (q : Request) : ∃ x, (Book.ask (b, []) q).2 = [x] := by
  cases q <;> exact ⟨_, rfl⟩

theorem length_askAll (b : Book) (requests : List Request) :
    (b.askAll requests).2.length = requests.length := by
  induction requests using List.reverseRecOn with
  | nil => rfl
  | append_singleton requests q ih =>
    rw [askAll_append, List.length_append, ih, List.length_append]
    exact congrArg (requests.length + ·) (by cases q <;> rfl)

/-- A refused call leaves no trace but its answer. -/
theorem exists_asked_of_refused {b b' : Book} {requests : List Request} {before after : History}
    {x : Exchange Node BookError} (hall : b.askAll requests = (b', before ++ x :: after))
    (hrefused : Refused x) :
    ∃ asked q rest, requests = asked ++ q :: rest ∧ asked.length = before.length ∧
      b.askAll (asked ++ rest) = (b', before ++ after) := by
  have hlength := length_askAll b requests
  rw [hall, List.length_append, List.length_cons] at hlength
  obtain ⟨asked, q, rest, rfl, hasked⟩ : ∃ asked q rest, requests = asked ++ q :: rest ∧
      asked.length = before.length := by
    refine ⟨requests.take before.length, requests[before.length],
      requests.drop (before.length + 1), ?_, ?_⟩
    · rw [List.getElem_cons_drop, List.take_append_drop]
    · rw [List.length_take]
      omega
  refine ⟨asked, q, rest, rfl, hasked, ?_⟩
  obtain ⟨y, hy⟩ := exists_ask (b.askAll asked).1 q
  rw [askAll_append, askAll, List.foldl_cons, foldl_ask, hy] at hall
  obtain ⟨hbook, hhistory⟩ := Prod.mk.inj hall
  obtain ⟨hbefore, hrest⟩ := List.append_inj hhistory ((length_askAll b asked).trans hasked)
  obtain ⟨rfl, hafter⟩ := List.cons.inj hrest
  rw [ask_of_refused hy hrefused] at hbook hafter
  rw [askAll_append, ← hbook, ← hbefore, ← hafter]
  rfl

/-! ## The ledger -/

/-- What the history says of a ledger, and what the nodes are that it is made from. -/
structure Accounts (file : String) (h : History) (nodes : List Node) (l : Ledger) : Prop where
  options : ∀ key, Recalls (l.options.get? key) (l.optionHistory.get? key)
    (h.filterMap (value? key))
  includes : l.includes = h.filterMap include?
  plugins : l.plugins = h.filterMap plugin?
  entries : l.entries.map Node.entry = nodes.filter fun n ↦ n.kind = .entry
  errors : ∃ tags : List String, tags.Pairwise (· < ·) ∧ (∀ tag, tag ∈ tags ↔ Pushed tag h) ∧
    l.errors = h.filterMap Exchange.reported? ++
      (nodes.filter fun n ↦ n.kind ≠ .entry).map (fun n ↦
        ⟨file, .clamp 0, .semantic, (BookError.unexpectedNode .entry n.kind).message⟩) ++
      tags.map fun tag ↦ ⟨file, .clamp 0, .semantic, (BookError.unbalancedTag tag).message⟩

theorem map_entriesOf (nodes : List Node) :
    (entriesOf nodes).map Node.entry = nodes.filter fun n ↦ n.kind = .entry := by
  induction nodes with
  | nil => rfl
  | cons n nodes ih =>
    cases n <;> simpa [entriesOf, Node.toEntry, Node.kind, Except.toOption, Node.refuse] using ih

theorem strays_eq (nodes : List Node) :
    strays nodes = (nodes.filter fun n ↦ n.kind ≠ .entry).map
      fun n ↦ .unexpectedNode .entry n.kind := by
  induction nodes with
  | nil => rfl
  | cons n nodes ih =>
    cases n <;> simpa [strays, Node.toEntry, Node.kind, Node.refuse] using ih

theorem Reflects.accounts {file : String} {h : History} {b : Book} (hb : Reflects file h b)
    (nodes : List Node) : Accounts file h nodes (b.finish nodes).1 where
  options := hb.options
  includes := hb.includes
  plugins := hb.plugins
  entries := map_entriesOf nodes
  errors := by
    refine ⟨b.activeTags.toList, b.activeTags.ascending, fun tag ↦ ?_, ?_⟩
    · rw [← hb.tags, TextSet.contains, List.contains_iff_mem]
    · change b.errors ++ (strays nodes).map b.complaint ++ _ = _
      rw [hb.errors, strays_eq, List.map_map, ← hb.file]
      rfl

/-- A book is a fold of the calls made to it: the answers and the ledger are those that the history
of the calls asks for, a refused call leaves no trace but its answer, and once the ledger has been
handed over the book is a new one. -/
theorem folds_history (file : String) (requests : List Request) (nodes : List Node) :
    ∃ b h, askAll { file } requests = (b, h) ∧ h.map request? = requests.map some ∧ Answered h ∧
      Accounts file h nodes (b.finish nodes).1 ∧ (b.finish nodes).2 = { file } ∧
      ∀ before x after, h = before ++ x :: after → Refused x →
        ∃ asked q rest, requests = asked ++ q :: rest ∧ asked.length = before.length ∧
          askAll { file } (asked ++ rest) = (b, before ++ after) := by
  obtain ⟨hrequests, hanswered, hreflects⟩ := reflects_askAll file requests
  generalize hall : askAll { file } requests = out at hrequests hanswered hreflects
  refine ⟨out.1, out.2, rfl, hrequests, hanswered, hreflects.accounts nodes, ?_, ?_⟩
  · rw [finish_snd, hreflects.file]
  · intro before x after hsplit hrefused
    exact exists_asked_of_refused (hall.trans (Prod.ext rfl hsplit)) hrefused

end Book

end PlainLedger
