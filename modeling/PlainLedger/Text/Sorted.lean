import PlainLedger.Ordered

/-!
# Sets and maps of texts

Texts in ascending order of their characters, each at most once, and values under such texts. A
set or map is determined by its members.
-/

namespace PlainLedger

namespace Ordered

theorem lt_of_ne_of_not_lt {s t : String} (hne : s ≠ t) (h : ¬s < t) : t < s := by
  refine Classical.byContradiction fun h' ↦ hne ?_
  exact String.le_antisymm (String.not_lt.mp h') (String.not_lt.mp h)

theorem pairwise_insert {x : String} {xs : List String} (h : xs.Pairwise (· < ·)) :
    (insert x xs).Pairwise (· < ·) := by
  induction xs with
  | nil => simp [insert]
  | cons y ys ih =>
    rw [List.pairwise_cons] at h
    simp only [insert]
    split
    · exact List.pairwise_cons.mpr h
    · rename_i hne
      split
      · rename_i hlt
        refine List.pairwise_cons.mpr ⟨?_, List.pairwise_cons.mpr h⟩
        intro z hz
        rcases List.mem_cons.mp hz with rfl | hz
        · exact hlt
        · exact String.lt_trans hlt (h.1 z hz)
      · rename_i hlt
        refine List.pairwise_cons.mpr ⟨?_, ih h.2⟩
        intro z hz
        rcases mem_insert.mp hz with rfl | hz
        · exact lt_of_ne_of_not_lt hne hlt
        · exact h.1 z hz

theorem pairwise_ofList (xs : List String) : (ofList xs).Pairwise (· < ·) := by
  induction xs with
  | nil => simp [ofList]
  | cons x xs ih => exact pairwise_insert ih

theorem insert_eq_cons {x : String} {xs : List String} (h : ∀ y ∈ xs, x < y) :
    insert x xs = x :: xs := by
  cases xs with
  | nil => rfl
  | cons y ys =>
    have hy := h y (by simp)
    have hne : x ≠ y := fun e ↦ String.lt_irrefl y (e ▸ hy)
    simp [insert, hne, hy]

theorem ofList_eq_self {xs : List String} (h : xs.Pairwise (· < ·)) : ofList xs = xs := by
  induction xs with
  | nil => rfl
  | cons x xs ih =>
    rw [List.pairwise_cons] at h
    have e : ofList (x :: xs) = insert x (ofList xs) := rfl
    rw [e, ih h.2, insert_eq_cons h.1]

variable {β : Type}

theorem keys_put (k : String) (v : β) (xs : List (String × β)) :
    (put k v xs).map Prod.fst = insert k (xs.map Prod.fst) := by
  induction xs with
  | nil => rfl
  | cons x rest ih =>
    obtain ⟨l, w⟩ := x
    simp only [put, List.map_cons, insert]
    split
    · simp_all
    · split
      · rfl
      · simp [ih]

theorem pairwise_keys_put (k : String) (v : β) {xs : List (String × β)}
    (h : (xs.map Prod.fst).Pairwise (· < ·)) : ((put k v xs).map Prod.fst).Pairwise (· < ·) := by
  rw [keys_put]
  exact pairwise_insert h

theorem put_eq_append {k : String} (v : β) {xs : List (String × β)} (h : ∀ x ∈ xs, x.1 < k) :
    put k v xs = xs ++ [(k, v)] := by
  induction xs with
  | nil => rfl
  | cons x rest ih =>
    have hx := h x (by simp)
    have hne : k ≠ x.1 := fun e ↦ String.lt_irrefl x.1 (e ▸ hx)
    rw [put, if_neg hne, if_neg (String.lt_asymm hx), ih fun y hy ↦ h y (by simp [hy])]
    rfl

end Ordered

structure TextSet where
  toList : List String
  ascending : toList.Pairwise (· < ·)
  deriving DecidableEq, Repr

namespace TextSet

def empty : TextSet := ⟨[], .nil⟩

instance : Inhabited TextSet := ⟨empty⟩

def ofList (xs : List String) : TextSet := ⟨Ordered.ofList xs, Ordered.pairwise_ofList xs⟩

def contains (s : TextSet) (x : String) : Bool := s.toList.contains x

def insert (x : String) (s : TextSet) : TextSet :=
  ⟨Ordered.insert x s.toList, Ordered.pairwise_insert s.ascending⟩

def erase (x : String) (s : TextSet) : TextSet :=
  ⟨s.toList.filter (· != x), s.ascending.filter _⟩

def union (s r : TextSet) : TextSet := ofList (s.toList ++ r.toList)

@[simp] theorem ofList_toList (s : TextSet) : ofList s.toList = s := by
  cases s with
  | mk xs h => simp [ofList, Ordered.ofList_eq_self h]

theorem mem_toList_ofList {x : String} {xs : List String} : x ∈ (ofList xs).toList ↔ x ∈ xs :=
  Ordered.mem_ofList

theorem contains_insert (x y : String) (s : TextSet) :
    (s.insert x).contains y = (y == x || s.contains y) := by
  rw [Bool.eq_iff_iff]
  simp [contains, insert]

theorem contains_erase (x y : String) (s : TextSet) :
    (s.erase x).contains y = (y != x && s.contains y) := by
  rw [Bool.eq_iff_iff]
  simp [contains, erase, and_comm]

end TextSet

structure TextMap (β : Type) where
  entries : List (String × β)
  ascending : (entries.map Prod.fst).Pairwise (· < ·)
  deriving DecidableEq, Repr

namespace TextMap

variable {β : Type}

def empty : TextMap β := ⟨[], .nil⟩

instance : Inhabited (TextMap β) := ⟨empty⟩

def isEmpty (m : TextMap β) : Bool := m.entries.isEmpty

def get? (m : TextMap β) (k : String) : Option β := m.entries.lookup k

/-- Replaces the value of a key that is present. -/
def put (m : TextMap β) (k : String) (v : β) : TextMap β :=
  ⟨Ordered.put k v m.entries, Ordered.pairwise_keys_put k v m.ascending⟩

/-- Of several values of a key the last one counts. -/
def ofPairs (pairs : List (String × β)) : TextMap β :=
  pairs.foldl (fun m (k, v) ↦ m.put k v) empty

@[simp] theorem get?_put_self (m : TextMap β) (k : String) (v : β) :
    (m.put k v).get? k = some v :=
  Ordered.lookup_put_self k v m.entries

theorem get?_put_of_ne (m : TextMap β) {k l : String} (h : l ≠ k) (v : β) :
    (m.put k v).get? l = m.get? l :=
  Ordered.lookup_put_of_ne h v m.entries

theorem foldl_put_eq_append (ys : List (String × β)) {m : TextMap β}
    (h : ((m.entries ++ ys).map Prod.fst).Pairwise (· < ·)) :
    (ys.foldl (fun m (k, v) ↦ m.put k v) m).entries = m.entries ++ ys := by
  induction ys generalizing m with
  | nil => simp
  | cons y ys ih =>
    have hlt : ∀ x ∈ m.entries, x.1 < y.1 := by
      rw [List.map_append, List.pairwise_append] at h
      exact fun x hx ↦ h.2.2 x.1 (List.mem_map_of_mem hx) y.1 (by simp)
    have hput : (m.put y.1 y.2).entries = m.entries ++ [y] := Ordered.put_eq_append y.2 hlt
    rw [List.foldl_cons, ih (by rw [hput]; simpa using h), hput]
    simp

@[simp] theorem ofPairs_entries (m : TextMap β) : ofPairs m.entries = m := by
  have h : (ofPairs m.entries).entries = m.entries :=
    foldl_put_eq_append m.entries (m := empty) (by simpa [empty] using m.ascending)
  cases m
  cases hm : ofPairs _
  simp_all

end TextMap

end PlainLedger
