import PlainLedger.Proofs.Language.Outline
import PlainLedger.Proofs.Machine.Pieces

/-!
# Head lines

The line that a transaction begins with is a date, the token that gives its flag, the description,
and the end of the line. Wherever a posting is completed, the four slots of the head line of its
transaction are on the stack below it, under the lines that come before the posting. What the tokens
in those slots are does not depend on what went wrong earlier in the text.
-/

namespace PlainLedger

/-- The flag of the transaction that the token is written at the head of. -/
def Token.headFlag? (t : Token) : Option Char :=
  match t.kind, t.payload with
  | .txn, _ => some '*'
  | .asterisk, _ => some '*'
  | .flag, .char c => some c
  | _, _ => none

namespace Language

variable {H ε σ ω : Type}

/-- Payee, narration, links and tags, and the pipes between them. -/
def IsDescription (ps : List Piece) : Prop :=
  ∀ q ∈ ps, q = .nothing ∨ ∃ t, q = .token t ∧ t.kind ∈ [Terminal.string, .link, .tag, .pipe]

/-- The end of a line, perhaps after a comment. -/
def IsLineEnd (ps : List Piece) : Prop :=
  (∃ t, ps = [.token t] ∧ t.kind = .eol) ∨
    ∃ t u, ps = [.token t, .token u] ∧ t.kind = .comment ∧ u.kind = .eol

/-- The slots stand for the lines that come before a posting and the head line of its transaction,
whose flag is `flag`. -/
def UnderHead (flag : Char) (pss : List (List Piece)) : Prop :=
  ∃ lines lineEnd description head date rest,
    pss = lines :: lineEnd :: description :: [.token head] :: [.token date] :: rest ∧
      date.kind = .date ∧ head.headFlag? = some flag ∧ IsDescription description ∧
      IsLineEnd lineEnd

/-- What a slot stands for, as far as head lines are made of it. -/
structure Written (X : Symbol) (x : Slot (Value H)) (ps : List Piece) : Prop where
  token : ∀ k, X = .terminal k → k ≠ .error →
    ∃ t, ps = [.token t] ∧ t.kind = k ∧ t.Sound ∧ x.value = .ofToken t
  head : X = Category.txn.symbol →
    ∃ t c, ps = [.token t] ∧ t.headFlag? = some c ∧ x.value = .char c
  description : X = Category.txnFields.symbol → IsDescription ps
  lineEnd : X = Category.eol.symbol → IsLineEnd ps

/-- The rules for the parts of head lines. -/
def HeadRule (p : Rule Production) : Prop :=
  (p.lhs = Category.txn.index →
    p.rhs = [.terminal .txn] ∧ p.action = .txnKeyword ∨
      p.rhs = [.terminal .asterisk] ∧ p.action = .txnAsterisk ∨
      p.rhs = [.terminal .flag] ∧ p.action = .txnFlag) ∧
    (p.lhs = Category.txnFields.index → p.rhs = [] ∨
      ∃ k ∈ [Terminal.string, .link, .tag, .pipe],
        p.rhs = [Category.txnFields.symbol, .terminal k]) ∧
    (p.lhs = Category.eol.index →
      p.rhs = [.terminal .eol] ∨ p.rhs = [.terminal .comment, .terminal .eol])

instance (p : Rule Production) : Decidable (HeadRule p) := by
  unfold HeadRule
  infer_instance

theorem headRule {k : Nat} {p : Rule Production} (h : grammar.rules[k]? = some p) :
    HeadRule p := by
  have hall : ∀ p ∈ grammar.rules, HeadRule p := by decide +kernel
  exact hall p (List.mem_of_getElem? h)

/-- The value of a rule for which nothing is asked. -/
theorem value_of_keep {i : Interpretation H ε σ ω} {ctx : Context} {p : Production}
    {red : Reduction (Value H)} {s s' : Session σ} {v w : Value H} {args : Args H}
    (hplan : (p.plan (ctx.provenance red.span) (txnFlag? p red.below)).run
      { pending := red.values } = .ok (.keep w, args))
    (h : (reducer i ctx).reduce p red s = (.value v, s')) : v = w := by
  simp only [reducer, hplan, Session.perform] at h
  cases h
  rfl

section Completed

variable {i : Interpretation H ε σ ω} {ctx : Context} {x : Slot (Value H)}
  {rest : List (Slot (Value H))} {xs : List Symbol} {pss : List (List Piece)} {k n : Nat}
  {p : Rule Production} {s s' : Session σ} {v : Value H} {span : Span}

/-- The flag of a transaction is that of the token it is read from. -/
theorem exists_headFlag
    (hs : Pieced grammar (fun X _ x ps ↦ Written X x ps) (x :: rest) xs pss)
    (hrule : grammar.rules[k]? = some p) (htake : (xs.take p.rhs.length).reverse = p.rhs)
    (hlhs : p.lhs = Category.txn.index)
    (hverdict : (reducer i ctx).reduce p.action (.ofSlots k p.rhs.length (x :: rest)) s =
      (.value v, s')) :
    ∃ t c, (Reduction.ofSlots k p.rhs.length (x :: rest)).pieces pss = [.token t] ∧
      t.headFlag? = some c ∧ v = .char c := by
  rcases (headRule hrule).1 hlhs with ⟨hrhs, haction⟩ | ⟨hrhs, haction⟩ | ⟨hrhs, haction⟩
  · rw [hrhs] at htake hverdict ⊢
    rw [haction] at hverdict
    obtain ⟨ps, hps, hwritten⟩ := hs.of_take_one k htake
    obtain ⟨t, rfl, hkind, -, -⟩ := hwritten.token _ rfl (by decide)
    exact ⟨t, '*', hps, by simp [Token.headFlag?, hkind], value_of_keep rfl hverdict⟩
  · rw [hrhs] at htake hverdict ⊢
    rw [haction] at hverdict
    obtain ⟨ps, hps, hwritten⟩ := hs.of_take_one k htake
    obtain ⟨t, rfl, hkind, -, -⟩ := hwritten.token _ rfl (by decide)
    exact ⟨t, '*', hps, by simp [Token.headFlag?, hkind], value_of_keep rfl hverdict⟩
  · rw [hrhs] at htake hverdict ⊢
    rw [haction] at hverdict
    obtain ⟨ps, hps, hwritten⟩ := hs.of_take_one k htake
    obtain ⟨t, rfl, hkind, hsound, hvalue⟩ := hwritten.token _ rfl (by decide)
    rw [Token.Sound, hkind] at hsound
    obtain ⟨c, hpayload⟩ := hsound
    obtain ⟨state, value, span⟩ := x
    have hchar : value = .char c := by
      rw [show value = _ from hvalue, Value.ofToken, hpayload]
    subst hchar
    exact ⟨t, c, hps, by simp [Token.headFlag?, hkind, hpayload], value_of_keep rfl hverdict⟩

/-- A completed part of a head line is written as such a part is. -/
theorem written_of_rule
    (hs : Pieced grammar (fun X _ x ps ↦ Written X x ps) (x :: rest) xs pss)
    (hrule : grammar.rules[k]? = some p) (hhas : grammar.Has x.state ⟨k, p.rhs.length⟩)
    (hverdict : (reducer i ctx).reduce p.action (.ofSlots k p.rhs.length (x :: rest)) s =
      (.value v, s')) :
    Written (.nonterminal p.lhs) ⟨n, v, span⟩
      ((Reduction.ofSlots k p.rhs.length (x :: rest)).pieces pss) := by
  have htake := (hs.spelled.reduce hrule hhas).2.1
  obtain ⟨-, hfields, heol⟩ := headRule hrule
  refine ⟨?_, ?_, ?_, ?_⟩
  · rintro k ⟨⟩
  · intro hlhs
    exact exists_headFlag hs hrule htake (Symbol.nonterminal.inj hlhs) hverdict
  · intro hlhs
    rcases hfields (Symbol.nonterminal.inj hlhs) with hrhs | ⟨t, ht, hrhs⟩
    · rw [hrhs]
      intro q hq
      exact Or.inl (List.mem_singleton.mp hq)
    · rw [hrhs] at htake ⊢
      obtain ⟨y, below, ps, qs, rfl, hpieces, hfirst, hlast⟩ := hs.of_take_two k htake
      have herror : t ≠ .error := by
        rintro rfl
        exact absurd ht (by decide)
      obtain ⟨u, rfl, hkind, -, -⟩ := hlast.token _ rfl herror
      have hall : IsDescription (ps ++ [.token u]) := by
        intro q hq
        rcases List.mem_append.mp hq with hq | hq
        · exact hfirst.description rfl q hq
        · exact Or.inr ⟨u, List.mem_singleton.mp hq, hkind ▸ ht⟩
      rw [← hpieces] at hall
      exact hall
  · intro hlhs
    rcases heol (Symbol.nonterminal.inj hlhs) with hrhs | hrhs
    · rw [hrhs] at htake ⊢
      obtain ⟨ps, hpieces, hlast⟩ := hs.of_take_one k htake
      obtain ⟨t, rfl, hkind, -, -⟩ := hlast.token _ rfl (by decide)
      exact Or.inl ⟨t, hpieces, hkind⟩
    · rw [hrhs] at htake ⊢
      obtain ⟨y, below, ps, qs, rfl, hpieces, hfirst, hlast⟩ := hs.of_take_two k htake
      obtain ⟨t, rfl, ht, -, -⟩ := hfirst.token _ rfl (by decide)
      obtain ⟨u, rfl, hu, -, -⟩ := hlast.token _ rfl (by decide)
      exact Or.inr ⟨t, u, hpieces, ht, hu⟩

end Completed

section Traces

variable {i : Interpretation H ε σ ω} {ctx : Context} {options : Options} {s₀ s : Session σ}
  {evs : List (Event (Value H))} {slots : List (Slot (Value H))}

/-- At every moment the parts of head lines on the stack are written as such parts are. -/
theorem written_of_trace (h : Trace (engine ctx options) (reducer i ctx) s₀ evs slots s)
    (hsound : ∀ t v, .shift t v ∈ evs → t.Sound) :
    ∃ xs, Pieced grammar (fun X _ x ps ↦ Written X x ps) slots xs (pieces evs) := by
  refine h.keeps (P := fun evs slots _ ↦ (∀ t v, .shift t v ∈ evs → t.Sound) →
    ∃ xs, Pieced grammar (fun X _ x ps ↦ Written X x ps) slots xs (pieces evs))
    (fun _ ↦ ⟨[], .bottom rfl⟩) ?_ hsound
  intro evs slots slots' s s' ev _ ih hev hsound
  obtain ⟨xs, hs⟩ := ih fun t v hmem ↦ hsound t v (List.mem_append_left _ hmem)
  rw [pieces_concat]
  refine hev.pieced hs ?_ ?_ ?_
  · rintro t n v rfl ⟨⟩
    have ht := hsound t _ (List.mem_append_right _ (List.mem_singleton.mpr rfl))
    refine ⟨?_, ?_, ?_, ?_⟩
    · rintro k ⟨⟩ -
      exact ⟨t, rfl, rfl, ht, rfl⟩
    all_goals
      intro h
      cases h
  · rintro n span rfl
    refine ⟨?_, ?_, ?_, ?_⟩
    · rintro k ⟨⟩ herror
      exact (herror rfl).elim
    all_goals
      intro h
      cases h
  · rintro x rest k p y below n v rfl hrule hhas - - hverdict
    exact written_of_rule hs hrule hhas hverdict

/-- What the value of a slot is, if it is a flag. -/
def charAt (n : Nat) (slots : List (Slot (Value H))) : Option Char :=
  match slots[n]? with
  | some ⟨_, .char c, _⟩ => some c
  | _ => none

theorem charAt_succ (n : Nat) (x : Slot (Value H)) (rest : List (Slot (Value H))) :
    charAt (n + 1) (x :: rest) = charAt n rest := by
  rw [charAt, List.getElem?_cons_succ]
  rfl

/-- Below a posting is the head line of its transaction, and the flag in it is that of its token. -/
theorem exists_underHead {y : Slot (Value H)} {below : List (Slot (Value H))} {xs : List Symbol}
    {pss : List (List Piece)} {k n : Nat} {p : Rule Production}
    (hs : Pieced grammar (fun X _ x ps ↦ Written X x ps) (y :: below) xs pss)
    (hrule : grammar.rules[k]? = some p) (hedge : grammar.Edge y.state (.nonterminal p.lhs) n)
    (hposting : p.action.isPosting = true) :
    ∃ flag, UnderHead flag pss ∧ charAt 3 (y :: below) = some flag := by
  obtain ⟨zs, rfl⟩ := exists_headLine hs.spelled.path hrule hedge hposting
  cases hs with
  | push h _ _ =>
    cases h with
    | push h _ hend =>
      cases h with
      | @push _ z _ _ _ _ _ h _ hdescription =>
        cases h with
        | push h _ hhead =>
          cases h with
          | push h _ hdate =>
            obtain ⟨t, flag, rfl, hflag, hvalue⟩ := hhead.head rfl
            obtain ⟨u, rfl, hkind, -, -⟩ := hdate.token _ rfl (by decide)
            refine ⟨flag, ⟨_, _, _, t, u, _, rfl, hkind, hflag, hdescription.description rfl,
              hend.lineEnd rfl⟩, ?_⟩
            obtain ⟨state, value, span⟩ := z
            cases hvalue
            rfl

end Traces

end Language

end PlainLedger
