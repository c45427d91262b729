/-!
# Cutting texts

A text is cut at every, at the first, or at the last occurrence of a character.
The cuts are lists of characters, and joining them again gives the text.
-/

set_option autoImplicit false

namespace TaskRelay.Text

def pieces (sep : Char) : List Char → List (List Char)
  | [] => [[]]
  | c :: cs =>
    if c = sep then [] :: pieces sep cs
    else match pieces sep cs with
      | [] => [[c]]
      | p :: ps => (c :: p) :: ps

def joined (sep : Char) : List (List Char) → List Char
  | [] => []
  | [p] => p
  | p :: ps => p ++ sep :: joined sep ps

def cutFirst (sep : Char) : List Char → Option (List Char × List Char)
  | [] => none
  | c :: cs =>
    if c = sep then some ([], cs)
    else (cutFirst sep cs).map fun p => (c :: p.1, p.2)

def cutLast (sep : Char) : List Char → Option (List Char × List Char)
  | [] => none
  | c :: cs =>
    match cutLast sep cs with
    | some (a, b) => some (c :: a, b)
    | none => if c = sep then some ([], cs) else none

theorem pieces_ne_nil (sep : Char) (cs : List Char) : pieces sep cs ≠ [] := by
  cases cs with
  | nil => simp [pieces]
  | cons c cs => unfold pieces; split <;> (try split) <;> simp

theorem joined_cons (sep c : Char) (p : List Char) (ps : List (List Char)) :
    joined sep ((c :: p) :: ps) = c :: joined sep (p :: ps) := by
  cases ps <;> simp [joined]

theorem joined_pieces (sep : Char) (cs : List Char) : joined sep (pieces sep cs) = cs := by
  induction cs with
  | nil => rfl
  | cons c cs ih =>
    unfold pieces
    split
    · next h =>
      cases hp : pieces sep cs with
      | nil => exact absurd hp (pieces_ne_nil sep cs)
      | cons p ps =>
        rw [joined, ← hp, ih, h, List.nil_append]
        simp
    · split
      · next hp => exact absurd hp (pieces_ne_nil sep cs)
      · next p ps hp => rw [joined_cons, ← hp, ih]

theorem eq_of_cutFirst {sep : Char} {cs a b : List Char} (h : cutFirst sep cs = some (a, b)) :
    cs = a ++ sep :: b := by
  induction cs generalizing a b with
  | nil => simp [cutFirst] at h
  | cons c cs ih =>
    unfold cutFirst at h
    split at h
    · next hc => simp only [Option.some.injEq, Prod.mk.injEq] at h; simp [← h.1, ← h.2, hc]
    · obtain ⟨⟨x, y⟩, hxy, h⟩ := Option.map_eq_some_iff.1 h
      simp only [Prod.mk.injEq] at h
      rw [← h.1, ← h.2, ih hxy, List.cons_append]

theorem eq_of_cutLast {sep : Char} {cs a b : List Char} (h : cutLast sep cs = some (a, b)) :
    cs = a ++ sep :: b := by
  induction cs generalizing a b with
  | nil => simp [cutLast] at h
  | cons c cs ih =>
    unfold cutLast at h
    split at h
    · next x y hxy =>
      simp only [Option.some.injEq, Prod.mk.injEq] at h
      rw [← h.1, ← h.2, ih hxy, List.cons_append]
    · split at h
      · next hc => simp only [Option.some.injEq, Prod.mk.injEq] at h; simp [← h.1, ← h.2, hc]
      · simp at h

end TaskRelay.Text
