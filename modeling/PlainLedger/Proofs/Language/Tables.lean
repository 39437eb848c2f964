import PlainLedger.Language.Parse
import PlainLedger.Proofs.Automaton.Row
import PlainLedger.Proofs.Language.Listing
import PlainLedger.Proofs.Language.Plan

/-!
# What the tables of the language say

What the rules, the edges and the rows of the automaton have to do with whole declarations: where
declarations begin and end, and what the states before, between and after them do. All of it is read
off the listing.
-/

namespace PlainLedger.Language

/-- The state in which a text begins. -/
def opening : Nat := 0

/-- The state in which a whole ledger has been read. -/
def closing : Nat := 1

/-- The state between two declarations. -/
def between : Nat := 2

/-- The state after skipped text. -/
def skipped : Nat := 3

/-- The symbol of a category. -/
def Category.symbol (c : Category) : Symbol := .nonterminal c.index

/-- The dated entries, by the keyword that each is written with. -/
def entryCategories : List Category :=
  [.transaction, .balance, .openEntry, .closeEntry, .pad, .event, .note, .document, .price,
    .commodity]

/-- The symbols of whole declarations. -/
def declarationSymbols : List Symbol :=
  (.directive :: .entry :: .emptyLine :: .pushTag :: .popTag :: .optionSetting :: .includeFile ::
    .plugin :: entryCategories).map Category.symbol

/-- The symbols of dated entries. -/
def EntrySymbol (x : Symbol) : Prop :=
  x = Category.entry.symbol ∨ ∃ c ∈ entryCategories, x = c.symbol

instance (x : Symbol) : Decidable (EntrySymbol x) := by
  unfold EntrySymbol
  infer_instance

/-! ## Rules -/

/-- What the rule has to do with whole declarations. -/
structure DeclarationRule (p : Rule Production) : Prop where
  makesEntry : p.action.makesEntry = true ↔ ∃ c ∈ entryCategories, p.lhs = c.index
  file_not_mem : Category.file.symbol ∉ p.rhs
  gathers : p.lhs = Category.file.index ∨ p.lhs = Category.declarations.index →
    p.action.gathers = true
  rhs_file : p.lhs = Category.file.index → p.rhs = [Category.declarations.symbol]
  lhs_posting : p.action.isPosting = true → p.lhs = Category.posting.index
  rhs_transaction : p.action = .transaction → p.rhs = [.terminal .date, Category.txn.symbol,
    Category.txnFields.symbol, Category.eol.symbol, Category.postingOrKvList.symbol]
  forward : p.lhs = Category.entry.index →
    p.action = .forward ∧ ∃ c ∈ entryCategories, p.rhs = [c.symbol]
  declarations_mem : Category.declarations.symbol ∈ p.rhs →
    p.action = .file ∧ p.lhs = Category.file.index ∧ p.rhs = [Category.declarations.symbol] ∨
    p.lhs = Category.declarations.index ∧
      (p.action = .declarationsDirective ∧
          p.rhs = [Category.declarations.symbol, Category.directive.symbol] ∨
        p.action = .declarationsEntry ∧
          p.rhs = [Category.declarations.symbol, Category.entry.symbol] ∨
        p.action = .declarationsError ∧
          p.rhs = [Category.declarations.symbol, .terminal .error])

instance (p : Rule Production) : Decidable (DeclarationRule p) :=
  decidable_of_iff (_ ∧ _ ∧ _ ∧ _ ∧ _ ∧ _ ∧ _ ∧ _)
    ⟨fun ⟨h₁, h₂, h₃, h₄, h₅, h₆, h₇, h₈⟩ ↦ ⟨h₁, h₂, h₃, h₄, h₅, h₆, h₇, h₈⟩,
      fun ⟨h₁, h₂, h₃, h₄, h₅, h₆, h₇, h₈⟩ ↦ ⟨h₁, h₂, h₃, h₄, h₅, h₆, h₇, h₈⟩⟩

theorem declarationRule {k : Nat} {p : Rule Production} (h : grammar.rules[k]? = some p) :
    DeclarationRule p := by
  have hall : ∀ p ∈ grammar.rules, DeclarationRule p := by decide +kernel
  exact hall p (List.mem_of_getElem? h)

/-! ## States -/

/-- In the state a rule is completed whatever comes next. -/
def Completes (n : Nat) (lhs : Category) (rhs : List Symbol) (action : Production) : Prop :=
  ∃ row ∈ tables.row? n, row.actions = [] ∧ ∃ k ∈ row.default?, ∃ p ∈ grammar.rules[k]?,
    p.lhs = lhs.index ∧ p.rhs = rhs ∧ p.action = action

instance (n : Nat) (lhs : Category) (rhs : List Symbol) (action : Production) :
    Decidable (Completes n lhs rhs action) := by
  unfold Completes
  infer_instance

/-- In the state that kernels of the list of lines belong to, a head line has been read. -/
def UnderHeadLine (n : Nat) : Prop :=
  ∃ s ∈ grammar.states[n]?, ∃ i ∈ s.kernel, i.dot = 5 ∧
    ∃ p ∈ grammar.rules[i.rule]?, p.action = .transaction

instance (n : Nat) : Decidable (UnderHeadLine n) := by
  unfold UnderHeadLine
  infer_instance

/-- What the edge has to do with whole declarations. -/
def DeclarationEdge (n : Nat) (x : Symbol) (m : Nat) : Prop :=
  (n = opening → x = Category.file.symbol ∨ x = Category.declarations.symbol) ∧
    n ≠ closing ∧
    (x = Category.file.symbol ↔ m = closing) ∧
    (x = Category.declarations.symbol ↔ m = between) ∧
    (x = Category.file.symbol ∨ x = Category.declarations.symbol → n = opening) ∧
    (x = .terminal .error → n = between ∧ m = skipped) ∧
    (x ∈ declarationSymbols → n = between) ∧
    x ≠ .terminal .endOfInput ∧
    (x = Category.entry.symbol →
      Completes m .declarations [Category.declarations.symbol, Category.entry.symbol]
        .declarationsEntry) ∧
    (∀ c ∈ entryCategories, x = c.symbol → Completes m .entry [c.symbol] .forward) ∧
    (x = Category.posting.symbol → UnderHeadLine n)

instance (n : Nat) (x : Symbol) (m : Nat) : Decidable (DeclarationEdge n x m) := by
  unfold DeclarationEdge
  infer_instance

/-- The row says nothing before the terminal, or to read it. -/
def ReadsOrFails (row : Row) (t : Terminal) : Prop :=
  match row.decide t with
  | none => True
  | some (.shift _) => True
  | _ => False

instance (row : Row) (t : Terminal) : Decidable (ReadsOrFails row t) := by
  unfold ReadsOrFails
  split <;> infer_instance

/-- The symbols after which nothing is read ahead before the next step. -/
def Brisk : Symbol → Prop
  | .terminal t => t ≠ .error
  | x => x = Category.lotComp.symbol ∨ x = Category.compoundAmount.symbol

instance : DecidablePred Brisk := fun x ↦ by
  unfold Brisk
  split <;> infer_instance

/-- A row that looks ahead completes no rule that warns, and none of a symbol after which nothing is
read ahead. -/
def Prompt (row : Row) : Prop :=
  row.needsLookahead = true → ∀ k ∈ Row.reduced row.actions ++ row.default?.toList,
    ∀ p ∈ grammar.rules[k]?, p.action.warns = false ∧ ¬Brisk (.nonterminal p.lhs)

instance (row : Row) : Decidable (Prompt row) := by
  unfold Prompt
  infer_instance

theorem prompt_of_mem {row : Row} (h : row ∈ tables.rows) : Prompt row := by
  have hall : ∀ row ∈ listedTables.rows, Prompt row := by decide +kernel
  exact hall row (tables_eq ▸ h)

/-- Before anything else there is the empty list of declarations. -/
theorem completes_opening : Completes opening .declarations [] .declarationsEmpty := by
  unfold Completes
  rw [tables_eq]
  decide +kernel

/-- Skipped text is dropped. -/
theorem completes_skipped :
    Completes skipped .declarations [Category.declarations.symbol, .terminal .error]
      .declarationsError := by
  unfold Completes
  rw [tables_eq]
  decide +kernel

/-- Between declarations, the end of the text completes the ledger, and everything else is read or
unexpected. -/
theorem exists_row_between : ∃ row ∈ tables.row? between,
    row.errorShift? = some skipped ∧
      (∃ k ∈ grammar.rulesOf Category.file.index, row.decide .endOfInput = some (.reduce k)) ∧
      ∀ t ∈ Terminal.all, t = .endOfInput ∨ ReadsOrFails row t := by
  rw [tables_eq]
  decide +kernel

theorem exists_row_closing :
    ∃ row ∈ tables.row? closing, row.decide .endOfInput = some .accept := by
  rw [tables_eq]
  decide +kernel

section Edges

variable {n m : Nat} {x : Symbol}

set_option synthInstance.maxSize 1000 in
theorem declarationEdge (h : grammar.Edge n x m) : DeclarationEdge n x m := by
  have hall : ∀ s ∈ grammar.states.zipIdx, ∀ e ∈ s.1.edges, DeclarationEdge s.2 e.1 e.2 := by
    unfold DeclarationEdge Completes UnderHeadLine
    rw [states_eq, tables_eq]
    decide +kernel
  obtain ⟨s, hs, hx⟩ := h
  obtain ⟨l₁, l₂, hedges, -⟩ := List.lookup_eq_some_iff.mp hx
  have hmem : (s, n) ∈ grammar.states.zipIdx := List.mem_zipIdx_iff_getElem?.mpr hs
  have hedge : (x, m) ∈ s.edges := by
    rw [hedges]
    exact List.mem_append_right _ (List.mem_cons_self ..)
  exact hall (s, n) hmem (x, m) hedge

theorem edge_opening (h : grammar.Edge opening x m) :
    (x = Category.file.symbol ∧ m = closing) ∨
      (x = Category.declarations.symbol ∧ m = between) := by
  obtain ⟨hx, -, hfile, hdeclarations, -⟩ := declarationEdge h
  rcases hx rfl with hx | hx
  · exact Or.inl ⟨hx, hfile.mp hx⟩
  · exact Or.inr ⟨hx, hdeclarations.mp hx⟩

theorem not_edge_closing : ¬grammar.Edge closing x m :=
  fun h ↦ (declarationEdge h).2.1 rfl

theorem edge_to_closing (h : grammar.Edge n x closing) :
    n = opening ∧ x = Category.file.symbol := by
  obtain ⟨-, -, hfile, -, hopening, -⟩ := declarationEdge h
  exact ⟨hopening (Or.inl (hfile.mpr rfl)), hfile.mpr rfl⟩

theorem edge_to_between (h : grammar.Edge n x between) :
    n = opening ∧ x = Category.declarations.symbol := by
  obtain ⟨-, -, -, hdeclarations, hopening, -⟩ := declarationEdge h
  exact ⟨hopening (Or.inr (hdeclarations.mpr rfl)), hdeclarations.mpr rfl⟩

theorem edge_file (h : grammar.Edge n Category.file.symbol m) : n = opening ∧ m = closing := by
  obtain ⟨-, -, hfile, -, hopening, -⟩ := declarationEdge h
  exact ⟨hopening (Or.inl rfl), hfile.mp rfl⟩

theorem edge_declarations (h : grammar.Edge n Category.declarations.symbol m) :
    n = opening ∧ m = between := by
  obtain ⟨-, -, -, hdeclarations, hopening, -⟩ := declarationEdge h
  exact ⟨hopening (Or.inr rfl), hdeclarations.mp rfl⟩

theorem edge_error (h : grammar.Edge n (.terminal .error) m) : n = between ∧ m = skipped := by
  obtain ⟨-, -, -, -, -, herror, -⟩ := declarationEdge h
  exact herror rfl

/-- Declarations begin between declarations. -/
theorem edge_declaration (h : grammar.Edge n x m) (hx : x ∈ declarationSymbols) :
    n = between := by
  obtain ⟨-, -, -, -, -, -, hdeclaration, -⟩ := declarationEdge h
  exact hdeclaration hx

theorem not_edge_end : ¬grammar.Edge n (.terminal .endOfInput) m := by
  intro h
  obtain ⟨-, -, -, -, -, -, -, hend, -⟩ := declarationEdge h
  exact hend rfl

/-- An entry is appended to the declarations whatever comes next. -/
theorem completes_of_edge_entry (h : grammar.Edge n Category.entry.symbol m) :
    Completes m .declarations [Category.declarations.symbol, Category.entry.symbol]
      .declarationsEntry := by
  obtain ⟨-, -, -, -, -, -, -, -, hentry, -⟩ := declarationEdge h
  exact hentry rfl

/-- What is written with one of the keywords is an entry, whatever comes next. -/
theorem completes_of_edge_entryCategory {c : Category} (hc : c ∈ entryCategories)
    (h : grammar.Edge n c.symbol m) : Completes m .entry [c.symbol] .forward := by
  obtain ⟨-, -, -, -, -, -, -, -, -, hentry, -⟩ := declarationEdge h
  exact hentry c hc rfl

theorem underHeadLine_of_edge (h : grammar.Edge n Category.posting.symbol m) :
    UnderHeadLine n := by
  obtain ⟨-, -, -, -, -, -, -, -, -, -, hposting⟩ := declarationEdge h
  exact hposting rfl

end Edges

end PlainLedger.Language
