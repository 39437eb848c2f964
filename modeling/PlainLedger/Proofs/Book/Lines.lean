import PlainLedger.Book
import PlainLedger.Proofs.Book.Kinds

/-!
# Lines of a transaction are attached where they are written

The postings of a transaction are those of its lines, in order. What is written under a key goes to
the posting above it, or to the transaction if there is none above it, and takes the place of what
was there under the key before.
-/

namespace PlainLedger

open PlainLedger.Language

/-! ## Lines -/

namespace Language.TxnLine

def isPosting {H : Type} : TxnLine H → Bool
  | posting _ => true
  | detail _ => false

/-- The key and the value that a line holds. -/
def pair? : TxnLine Node → Option (String × MetaEntry)
  | detail (.keyValue key value) => some (key, value)
  | _ => none

/-- The last value written under the key before the next posting. -/
def written? (key : String) (lines : List (TxnLine Node)) : Option MetaEntry :=
  ((lines.takeWhile fun x ↦ !x.isPosting).filterMap pair?).reverse.lookup key

end Language.TxnLine

open TxnLine

/-! ## Items -/

namespace TxnItem

/-- The metadata before the first posting. -/
def leading : List TxnItem → List (String × MetaEntry)
  | detail k v :: rest => (k, v) :: leading rest
  | _ => []

/-- The postings, each with the metadata up to the next one. -/
def postings : List TxnItem → List Posting
  | [] => []
  | posting p :: rest => { p with metadata := p.metadata.putAll (leading rest) } :: postings rest
  | detail .. :: rest => postings rest

/-- What is known of the object of a line. -/
def ofLine? (x : TxnLine Node) : Option TxnItem := (ofLine x).toOption

variable {lines : List (TxnLine Node)}

/-- Lines that hold what they are said to hold are all understood. -/
theorem foldlM_attachLine (hfits : ∀ x ∈ lines, x.Fits) (target : Metadata × List Posting) :
    lines.foldlM attachLine target = .ok ((lines.filterMap ofLine?).foldl attach target) := by
  induction lines generalizing target with
  | nil => rfl
  | cons x lines ih =>
    obtain ⟨hx, hlines⟩ := List.forall_mem_cons.mp hfits
    have hitem : ∃ item, ofLine x = .ok item := by
      cases x with
      | posting n => cases n <;> cases hx; exact ⟨_, rfl⟩
      | detail n => cases n <;> cases hx; exact ⟨_, rfl⟩
    obtain ⟨item, hitem⟩ := hitem
    have hline : attachLine target x = .ok (attach target item) := by rw [attachLine, hitem]; rfl
    have hkept : ofLine? x = some item := by rw [ofLine?, hitem]; rfl
    rw [List.foldlM_cons, hline, List.filterMap_cons, hkept, List.foldl_cons]
    exact ih hlines _

/-- The details before the first posting line. -/
theorem leading_filterMap (hfits : ∀ x ∈ lines, x.Fits) :
    leading (lines.filterMap ofLine?) =
      (lines.takeWhile fun x ↦ !x.isPosting).filterMap pair? := by
  induction lines with
  | nil => rfl
  | cons x lines ih =>
    obtain ⟨hx, hlines⟩ := List.forall_mem_cons.mp hfits
    cases x with
    | posting n =>
      cases n <;> cases hx
      rfl
    | detail n =>
      cases n <;> cases hx
      exact congrArg _ (ih hlines)

/-- A posting begins a group of its own. -/
theorem postings_append (items rest : List TxnItem) (p : Posting) :
    postings (items ++ posting p :: rest) = postings items ++ postings (posting p :: rest) := by
  have hleading : ∀ items, leading (items ++ posting p :: rest) = leading items := by
    intro items
    induction items with
    | nil => rfl
    | cons item items ih =>
      cases item with
      | posting q => rfl
      | detail k v => exact congrArg ((k, v) :: ·) ih
  induction items with
  | nil => rfl
  | cons item items ih =>
    cases item with
    | posting q => rw [List.cons_append, postings, postings, ih, hleading, List.cons_append]
    | detail k v => exact ih

theorem length_postings_filterMap (hfits : ∀ x ∈ lines, x.Fits) :
    (postings (lines.filterMap ofLine?)).length = lines.countP isPosting := by
  induction lines with
  | nil => rfl
  | cons x lines ih =>
    obtain ⟨hx, hlines⟩ := List.forall_mem_cons.mp hfits
    cases x with
    | posting n =>
      cases n <;> cases hx
      rw [List.countP_cons_of_pos rfl, ← ih hlines]
      rfl
    | detail n =>
      cases n <;> cases hx
      exact ih hlines

/-! ### Line by line -/

theorem foldl_attach_concat (m : Metadata) (ps : List Posting) (p : Posting)
    (items : List TxnItem) :
    items.foldl attach (m, ps ++ [p]) = (m, ps ++ postings (posting p :: items)) := by
  induction items generalizing ps p with
  | nil => rfl
  | cons item items ih =>
    rw [List.foldl_cons]
    cases item with
    | posting q =>
      have hnext : attach (m, ps ++ [p]) (posting q) = (m, (ps ++ [p]) ++ [q]) := rfl
      rw [hnext, ih, List.append_assoc]
      rfl
    | detail k v =>
      have hnext : attach (m, ps ++ [p]) (detail k v) =
          (m, ps ++ [{ p with metadata := p.metadata.putAll [(k, v)] }]) := by
        simp [attach, Metadata.putAll]
      rw [hnext, ih]
      rfl

/-- The postings and the metadata of a transaction are what taking the lines one by one comes to. -/
theorem foldl_attach (m : Metadata) (items : List TxnItem) :
    items.foldl attach (m, []) = (m.putAll (leading items), postings items) := by
  induction items generalizing m with
  | nil => rfl
  | cons item items ih =>
    cases item with
    | posting p => exact foldl_attach_concat m [] p items
    | detail k v => exact ih (m.putAll [(k, v)])

end TxnItem

/-- Of several values under one key the last one counts. -/
theorem Metadata.get?_putAll (m : Metadata) (pairs : List (String × MetaEntry)) (key : String) :
    (m.putAll pairs).values.get? key = (pairs.reverse.lookup key).or (m.values.get? key) := by
  induction pairs generalizing m with
  | nil => rfl
  | cons pair pairs ih =>
    obtain ⟨k, v⟩ := pair
    have hnext : m.putAll ((k, v) :: pairs) = (m.putAll [(k, v)]).putAll pairs := rfl
    have hput : (m.putAll [(k, v)]).values = m.values.put k v := rfl
    rw [hnext, ih, hput, List.reverse_cons, List.lookup_append, Option.or_assoc]
    congr 1
    by_cases hkey : key = k
    · subst hkey
      rw [TextMap.get?_put_self, List.lookup_cons_self, Option.some_or]
    · rw [TextMap.get?_put_of_ne _ hkey, List.lookup_cons, beq_eq_false_iff_ne.mpr hkey]
      rfl

/-! ## Transactions -/

/-- The payee and the narration that the strings of a transaction stand for. -/
def Describes (strings : List String) (payee? : Option String) (narration : String) : Prop :=
  match strings with
  | [] => payee? = none ∧ narration = ""
  | [text] => payee? = none ∧ narration = text
  | [payee, text] => payee? = some payee ∧ narration = text
  | _ => False

/-- What is written in a transaction is where it belongs. -/
structure Transaction.Records (t : Transaction) (active : TextSet) (flag : Char)
    (fields : TxnFields) (lines : List (TxnLine Node)) : Prop where
  flag : t.flag = flag
  description : Describes fields.strings t.payee? t.narration
  tags : ∀ tag, tag ∈ t.tags.toList ↔ tag ∈ fields.tags ∨ tag ∈ active.toList
  links : ∀ link, link ∈ t.links.toList ↔ link ∈ fields.links
  length : t.postings.length = lines.countP isPosting
  /-- A posting is that of its line, but for the values written under it. -/
  postings : ∀ before p after, lines = before ++ .posting (.posting p) :: after →
    ∃ values, t.postings[before.countP isPosting]? =
        some { p with metadata := { p.metadata with values } } ∧
      ∀ key, values.get? key = (written? key after).or (p.metadata.values.get? key)

section Transactions

variable {active : TextSet} {origin : Provenance} {date : String} {flag : Char}
  {fields : TxnFields} {lines : List (TxnLine Node)}

theorem description_eq_ok_iff {strings : List String} {payee? : Option String}
    {narration : String} :
    description strings = .ok (payee?, narration) ↔ Describes strings payee? narration := by
  unfold description Describes
  split <;> simp [eq_comm]

theorem exists_description_iff {strings : List String} :
    (∃ described, description strings = .ok described) ↔ strings.length ≤ 2 := by
  match strings with
  | [] => exact iff_of_true ⟨_, rfl⟩ (by decide)
  | [_] => exact iff_of_true ⟨_, rfl⟩ (Nat.le_succ 1)
  | [_, _] => exact iff_of_true ⟨_, rfl⟩ (Nat.le_refl 2)
  | _ :: _ :: _ :: _ => exact iff_of_false nofun (by simp)

/-- The transaction that is made of lines that are understood. -/
def Transaction.ofItems (active : TextSet) (flag : Char) (fields : TxnFields)
    (described : Option String × String) (items : List TxnItem) : Transaction where
  flag
  payee? := described.1
  narration := described.2
  tags := (TextSet.ofList fields.tags).union active
  links := .ofList fields.links
  postings := TxnItem.postings items

theorem mem_union_ofList {tag : String} {tags : List String} :
    tag ∈ ((TextSet.ofList tags).union active).toList ↔ tag ∈ tags ∨ tag ∈ active.toList := by
  simp [TextSet.union, TextSet.mem_toList_ofList]

theorem records_ofItems {described : Option String × String}
    (hdescribed : description fields.strings = .ok described) (hfits : ∀ x ∈ lines, x.Fits) :
    (Transaction.ofItems active flag fields described
      (lines.filterMap TxnItem.ofLine?)).Records active flag fields lines where
  flag := rfl
  description := description_eq_ok_iff.mp hdescribed
  tags _ := mem_union_ofList
  links _ := TextSet.mem_toList_ofList
  length := TxnItem.length_postings_filterMap hfits
  postings := by
    rintro before p after rfl
    have hbefore : ∀ x ∈ before, x.Fits := fun x hx ↦ hfits x (List.mem_append_left _ hx)
    have hafter : ∀ x ∈ after, x.Fits := fun x hx ↦
      hfits x (List.mem_append_right _ (List.mem_cons_of_mem _ hx))
    have hitems : (before ++ .posting (.posting p) :: after).filterMap TxnItem.ofLine? =
        before.filterMap TxnItem.ofLine? ++ .posting p :: after.filterMap TxnItem.ofLine? := by
      rw [List.filterMap_append]
      rfl
    refine ⟨_, ?_, p.metadata.get?_putAll _⟩
    change (TxnItem.postings _)[_]? = _
    rw [hitems, TxnItem.postings_append, ← TxnItem.length_postings_filterMap hbefore,
      List.getElem?_append_right (Nat.le_refl _), Nat.sub_self, TxnItem.postings,
      TxnItem.leading_filterMap hafter]
    rfl

/-- A transaction is made if there are at most two strings and the date is a date. -/
theorem ofTransaction_eq (hfits : ∀ x ∈ lines, x.Fits) :
    Entry.ofTransaction active origin date flag fields lines =
      description fields.strings >>= fun described ↦ Date.read date >>= fun d ↦
        .ok ⟨d, (Metadata.ofOrigin origin).putAll
            (TxnItem.leading (lines.filterMap TxnItem.ofLine?)),
          .transaction (.ofItems active flag fields described
            (lines.filterMap TxnItem.ofLine?))⟩ := by
  unfold Entry.ofTransaction
  rw [TxnItem.foldlM_attachLine hfits, TxnItem.foldl_attach]
  rfl

/-- A transaction is made if there are at most two strings and the date is a date. It has the
postings of its lines, in order, and what is written under a key belongs to the posting above, or to
the transaction where there is none above; there the last value under a key counts. -/
theorem transaction_attaches (b : Book) (origin : Provenance) (date : String) (flag : Char)
    (fields : TxnFields) (hfits : ∀ x ∈ lines, x.Fits) :
    ((∃ n, (b.construct (.transaction origin date flag fields lines)).1 = .ok n) ↔
        fields.strings.length ≤ 2 ∧ ∃ d, Date.read date = .ok d) ∧
      ∀ n, (b.construct (.transaction origin date flag fields lines)).1 = .ok n →
        ∃ d values t, Date.read date = .ok d ∧
          n = .entry ⟨d, ⟨origin.file, origin.line, values⟩, .transaction t⟩ ∧
          (∀ key, values.get? key = written? key lines) ∧
          t.Records b.activeTags flag fields lines := by
  have hbuild : (b.construct (.transaction origin date flag fields lines)).1 =
      (Entry.ofTransaction b.activeTags origin date flag fields lines).map .entry := rfl
  rw [hbuild, ofTransaction_eq hfits, ← exists_description_iff]
  cases hdescribed : description fields.strings with
  | error e =>
    exact ⟨iff_of_false (fun ⟨n, hn⟩ ↦ by cases hn) (fun ⟨⟨x, hx⟩, _⟩ ↦ by cases hx),
      fun n hn ↦ by cases hn⟩
  | ok described =>
    cases hdate : Date.read date with
    | error e =>
      exact ⟨iff_of_false (fun ⟨n, hn⟩ ↦ by cases hn) (fun ⟨_, d, hd⟩ ↦ by cases hd),
        fun n hn ↦ by cases hn⟩
    | ok d =>
      refine ⟨iff_of_true ⟨_, rfl⟩ ⟨⟨_, rfl⟩, _, rfl⟩, fun n hn ↦ ?_⟩
      refine ⟨d, _, _, rfl, (Except.ok.inj hn).symm, fun key ↦ ?_,
        records_ofItems hdescribed hfits⟩
      refine ((Metadata.ofOrigin origin).get?_putAll _ key).trans ?_
      rw [TxnItem.leading_filterMap hfits]
      exact Option.or_none

/-- The lines `a: 1`, `Assets:Cash` and, under the posting, `a: 2`, `a: 3`. -/
def annotatedLines : List (TxnLine Node) :=
  [.detail (.keyValue "a" (.string "1")),
    .posting (.posting ⟨"Assets:Cash", none, none, none, ⟨"main", .clamp 2, .empty⟩⟩),
    .detail (.keyValue "a" (.string "2")), .detail (.keyValue "a" (.string "3"))]

theorem transaction_attaches_annotatedLines :
    (∀ x ∈ annotatedLines, x.Fits) ∧
      ∃ d values t, Date.read "2024-01-02" = .ok d ∧
        (Book.construct (.transaction ⟨"main", 1⟩ "2024-01-02" '*' {} annotatedLines)
          ⟨"main", .empty, .empty, .empty, [], [], []⟩).1 =
            .ok (.entry ⟨d, ⟨"main", 1, values⟩, .transaction t⟩) ∧
        (∀ key, values.get? key = written? key annotatedLines) ∧
        t.Records .empty '*' {} annotatedLines := by
  have hfits : ∀ x ∈ annotatedLines, x.Fits := by simp [annotatedLines, TxnLine.Fits, Node.kind]
  obtain ⟨hmade, hall⟩ := transaction_attaches ⟨"main", .empty, .empty, .empty, [], [], []⟩
    ⟨"main", 1⟩ "2024-01-02" '*' {} hfits
  obtain ⟨n, hn⟩ := hmade.mpr ⟨Nat.zero_le 2, _, rfl⟩
  obtain ⟨d, values, t, hdate, rfl, hvalues, ht⟩ := hall n hn
  exact ⟨hfits, d, values, t, hdate, hn, hvalues, ht⟩

end Transactions

end PlainLedger
