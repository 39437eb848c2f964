/-!
# Lists kept in order

Insertion into an ascending list without repetition, and the ascending list of the members of an
arbitrary one. Two lists with the same members have the same ascending list.
-/

namespace PlainLedger.Ordered

variable {α : Type} [LT α] [DecidableLT α] [DecidableEq α]

def insert (x : α) : List α → List α
  | [] => [x]
  | y :: ys => if x = y then y :: ys else if x < y then x :: y :: ys else y :: insert x ys

def ofList (xs : List α) : List α := xs.foldr insert []

@[simp] theorem mem_insert {x y : α} {ys : List α} : y ∈ insert x ys ↔ y = x ∨ y ∈ ys := by
  induction ys with
  | nil => simp [insert]
  | cons z zs ih =>
    simp only [insert]
    split
    · subst_vars; simp
    · split
      · simp
      · simp [ih, or_left_comm]

@[simp] theorem mem_ofList {x : α} {xs : List α} : x ∈ ofList xs ↔ x ∈ xs := by
  induction xs with
  | nil => simp [ofList]
  | cons y ys ih => simpa [ofList] using or_congr_right ih

/-! ## Association lists in ascending order of their keys -/

variable {κ β : Type} [LT κ] [DecidableLT κ] [DecidableEq κ]

/-- Replaces the value of a key that is present. -/
def put (k : κ) (v : β) : List (κ × β) → List (κ × β)
  | [] => [(k, v)]
  | (l, w) :: rest =>
    if k = l then (k, v) :: rest
    else if k < l then (k, v) :: (l, w) :: rest
    else (l, w) :: put k v rest

def ofPairs (pairs : List (κ × β)) : List (κ × β) :=
  pairs.foldl (fun acc (k, v) ↦ put k v acc) []

theorem lookup_put_self (k : κ) (v : β) (xs : List (κ × β)) :
    (put k v xs).lookup k = some v := by
  induction xs with
  | nil => simp [put]
  | cons x rest ih =>
    obtain ⟨l, w⟩ := x
    simp only [put]
    split
    · simp
    · rename_i h
      split
      · simp
      · simp [List.lookup_cons, beq_false_of_ne h, ih]

theorem lookup_put_of_ne {k l : κ} (h : l ≠ k) (v : β) (xs : List (κ × β)) :
    (put k v xs).lookup l = xs.lookup l := by
  induction xs with
  | nil => simp [put, List.lookup_cons, beq_false_of_ne h]
  | cons x rest ih =>
    obtain ⟨m, w⟩ := x
    simp only [put]
    split
    · subst_vars
      simp [List.lookup_cons, beq_false_of_ne h]
    · split
      · simp [List.lookup_cons, beq_false_of_ne h]
      · simp [List.lookup_cons, ih]

end PlainLedger.Ordered
