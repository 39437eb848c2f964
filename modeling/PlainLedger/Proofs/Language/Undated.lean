import PlainLedger.Proofs.Language.Isolation

/-!
# Texts without dates

Every entry begins with a date. A text in which there is none comes to no entry, whatever else is in
it.
-/

namespace PlainLedger.Language

open Transcript (Refusal)

variable {H : Type}

/-- A dated entry is made of a date or of a dated entry, and a ledger without declarations of
nothing, of a dated entry or of such a ledger. -/
def UndatedRule (p : Rule Production) : Prop :=
  (EntrySymbol (.nonterminal p.lhs) → ∃ x ∈ p.rhs, x = .terminal .date ∨ EntrySymbol x) ∧
    (p.lhs = Category.file.index ∨ p.lhs = Category.declarations.index →
      p.rhs = [] ∧ p.action = .declarationsEmpty ∨
      Category.entry.symbol ∈ p.rhs ∨
      p.rhs.head? = some Category.declarations.symbol ∧
        p.action ∈ [.file, .declarationsDirective, .declarationsError])

instance (p : Rule Production) : Decidable (UndatedRule p) := by
  unfold UndatedRule
  infer_instance

theorem undatedRule {k : Nat} {p : Rule Production} (h : grammar.rules[k]? = some p) :
    UndatedRule p := by
  have hall : ∀ p ∈ grammar.rules, UndatedRule p := by decide +kernel
  exact hall p (List.mem_of_getElem? h)

/-- What stands for a symbol as long as no date has been read. -/
def Undated (x : Symbol) (v : Value H) : Prop :=
  x ≠ .terminal .date ∧ ¬EntrySymbol x ∧
    (x = Category.file.symbol ∨ x = Category.declarations.symbol → v = .list [])

theorem undated_terminal {t : Terminal} (ht : t ≠ .date) (v : Value H) :
    Undated (.terminal t) v := by
  refine ⟨fun h ↦ ht (Symbol.terminal.inj h), not_entrySymbol_terminal t, ?_⟩
  rintro (h | h) <;> cases h

section Steps

variable {ε σ ω : Type} {i : Interpretation H ε σ ω} {ctx : Context} {options : Options}
  {c c' : Config (Value H) (Session σ)}

theorem undated_reduce {k : Nat} {p : Rule Production} {red : Reduction (Value H)}
    {m m' : Session σ} {v : Value H} (hrule : grammar.rules[k]? = some p)
    (hvalues : List.Forall₂ Undated p.rhs red.values)
    (hverdict : (reducer i ctx).reduce p.action red m = (.value v, m')) :
    Undated (.nonterminal p.lhs) v := by
  obtain ⟨hentry, hlist⟩ := undatedRule hrule
  have hundated : ∀ x ∈ p.rhs, x ≠ .terminal .date ∧ ¬EntrySymbol x := by
    intro x hx
    obtain ⟨n, hn, rfl⟩ := List.getElem_of_mem hx
    have hnth := List.forall₂_iff_get.mp hvalues
    obtain ⟨hdate, hsymbol, -⟩ := hnth.2 n hn (hnth.1 ▸ hn)
    exact ⟨hdate, hsymbol⟩
  refine ⟨nofun, fun hx ↦ ?_, fun hx ↦ ?_⟩
  · obtain ⟨x, hx, hdate | hsymbol⟩ := hentry hx
    · exact (hundated x hx).1 hdate
    · exact (hundated x hx).2 hsymbol
  · rcases hlist (hx.imp Symbol.nonterminal.inj Symbol.nonterminal.inj) with
      ⟨hrhs, haction⟩ | hmem | ⟨hhead, haction⟩
    · rw [haction] at hverdict
      cases hverdict
      rfl
    · exact ((hundated _ hmem).2 (Or.inl rfl)).elim
    · obtain ⟨xs, hrhs⟩ := List.head?_eq_some_iff.mp hhead
      rw [hrhs] at hvalues
      cases hvalue : red.values with
      | nil =>
        rw [hvalue] at hvalues
        cases hvalues
      | cons w ws =>
        rw [hvalue] at hvalues
        obtain ⟨⟨-, -, hw⟩, -⟩ := List.forall₂_cons.mp hvalues
        obtain rfl := hw (Or.inr rfl)
        simp only [List.mem_cons, List.not_mem_nil, or_false] at haction
        rcases haction with haction | haction | haction <;>
        · rw [haction] at hverdict
          simp only [reducer, hvalue] at hverdict
          cases hverdict
          rfl

/-- As long as no date is read, there is no entry in the list of declarations. -/
theorem post_step_undated
    (h : (∃ xs, Spelled grammar Undated c.stack.slots xs) ∧ ∀ t ∈ c.pending, t.kind ≠ .date) :
    (c.step (engine ctx options) (reducer i ctx)).Post
      (fun c ↦ (∃ xs, Spelled grammar Undated c.stack.slots xs) ∧ ∀ t ∈ c.pending, t.kind ≠ .date)
      (fun v _ ↦ v = .list []) fun _ _ ↦ True := by
  obtain ⟨⟨xs, hs⟩, hpending⟩ := h
  have hmoves := Config.moves_step (e := engine ctx options) (r := reducer i ctx)
    tables_engine (fun _ _ ↦ not_edge_end) hs.path
  cases hstep : c.step (engine ctx options) (reducer i ctx) with
  | running c' =>
    rw [hstep] at hmoves
    refine ⟨?_, fun t ht ↦ hpending t (hmoves.pending_suffix.subset ht)⟩
    refine hmoves.spelled tables_engine hs (undated_terminal (by decide) _) ?_ ?_
    · exact fun t ht _ ↦ undated_terminal (hpending t ht) _
    · exact fun k p red m v m' hrule hvalues hverdict ↦ undated_reduce hrule hvalues hverdict
  | accepted v c' =>
    rw [hstep] at hmoves
    cases hmoves with
    | @accept x y row _ hslots hrow hdecide _ _ _ =>
      rw [hslots] at hs
      obtain ⟨-, hhas⟩ : c.upcoming = .endOfInput ∧ grammar.Has x.state ⟨_, 1⟩ :=
        Grammar.allows_of_decide (show grammar.tables.row? x.state = some row from hrow) hdecide
      have hpath := hs.path
      rw [List.map_cons] at hpath
      obtain ⟨-, rfl⟩ := hpath.accept hhas
      cases hs with
      | push _ _ hv => exact hv.2.2 (Or.inl rfl)
    | reject _ _ _ _ _ _ _ hrecover => cases hrecover
    | skip _ _ _ _ _ _ hrecover => cases hrecover
    | fail _ _ _ _ _ hrecover => cases hrecover
  | aborted cause c' => trivial

end Steps

/-- A text without dates comes to no entry. -/
theorem eq_nil_of_undated {make : Construction H → H} {ctx : Context} {options : Options}
    {ts : List Token} {hs : List H} {xs : List (Exchange H Refusal)} {ds : List Diagnostic}
    (h : Reads make ctx options ts hs xs ds) (hdates : ∀ t ∈ ts, t.kind ≠ .date) : hs = [] := by
  obtain ⟨k, c, hk, -, -⟩ := h
  have hpost := (engine ctx options).post_steps (granter make ctx)
    (fun c h ↦ post_step_undated h) k (s := begin make ctx options ts)
    (Engine.post_start _ _ ?_ fun _ _ _ ↦ trivial)
  · rw [hk] at hpost
    exact Value.list.inj hpost
  · intro c hslots hahead hinput hexhausted _ _
    refine ⟨⟨[], hslots ▸ .bottom rfl⟩, fun t ht ↦ hdates t ?_⟩
    unfold Config.pending at ht
    rw [hahead, hinput, hexhausted] at ht
    exact (List.takeWhile_sublist _).subset ht

end PlainLedger.Language
