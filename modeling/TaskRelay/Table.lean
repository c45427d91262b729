/-!
# Keyed tables

A table is a list of key and value pairs in increasing order of key. Inserting
under a key that is present replaces the value and keeps its place. A lookup
after an insertion sees the new value at that key and the old ones elsewhere.
-/

set_option autoImplicit false

namespace TaskRelay

abbrev Table (κ β : Type) := List (κ × β)

namespace Table

section
variable {κ β : Type} [DecidableEq κ]

def get? (k : κ) : Table κ β → Option β
  | [] => none
  | (j, b) :: t => if k = j then some b else get? k t

def erase (k : κ) : Table κ β → Table κ β
  | [] => []
  | (j, b) :: t => if k = j then erase k t else (j, b) :: erase k t

def modify (k : κ) (f : β → β) : Table κ β → Table κ β
  | [] => []
  | (j, b) :: t => if k = j then (j, f b) :: t else (j, b) :: modify k f t

variable [LT κ] [DecidableLT κ]

def insert (k : κ) (b : β) : Table κ β → Table κ β
  | [] => [(k, b)]
  | (j, c) :: t =>
    if k = j then (k, b) :: t
    else if k < j then (k, b) :: (j, c) :: t
    else (j, c) :: insert k b t

def ofList (pairs : List (κ × β)) : Table κ β :=
  pairs.foldl (fun t p => t.insert p.1 p.2) []

theorem get?_insert_self (k : κ) (b : β) (t : Table κ β) :
    (t.insert k b).get? k = some b := by
  induction t with
  | nil => simp [insert, get?]
  | cons p t ih =>
    obtain ⟨j, c⟩ := p
    by_cases h : k = j
    · simp [insert, get?, h]
    · by_cases hlt : k < j <;> simp [insert, get?, h, hlt, ih]

theorem get?_insert_of_ne {k j : κ} (h : j ≠ k) (b : β) (t : Table κ β) :
    (t.insert k b).get? j = t.get? j := by
  induction t with
  | nil => simp [insert, get?, h]
  | cons p t ih =>
    obtain ⟨i, c⟩ := p
    by_cases hk : k = i
    · subst hk
      simp [insert, get?, h]
    · by_cases hlt : k < i <;> simp [insert, get?, h, hk, hlt, ih]

omit [LT κ] [DecidableLT κ] in
theorem get?_erase_self (k : κ) (t : Table κ β) : (t.erase k).get? k = none := by
  induction t with
  | nil => rfl
  | cons p t ih =>
    obtain ⟨j, c⟩ := p
    by_cases h : k = j <;> simp [erase, get?, h]
    · rw [← h]
      exact ih
    · exact ih

omit [LT κ] [DecidableLT κ] in
theorem get?_erase_of_ne {k j : κ} (h : j ≠ k) (t : Table κ β) :
    (t.erase k).get? j = t.get? j := by
  induction t with
  | nil => rfl
  | cons p t ih =>
    obtain ⟨i, c⟩ := p
    by_cases hk : k = i
    · subst hk
      simp [erase, get?, h, ih]
    · simp [erase, get?, hk, ih]

end

end Table

end TaskRelay
