/-!
# Sorted lists of names

Free variables are reported in the order of their names, each once.  Names are ordered by their
characters' code points.

## Main definitions

* `insertName` — a name put into a sorted list, unless it is there.
* `sortNames` — the names of a list in order, each once.
-/

namespace FlatQasm

/-- A name put into a sorted list, unless it is there. -/
def insertName (name : String) : List String → List String
  | [] => [name]
  | first :: rest =>
    if name = first then first :: rest
    else if name < first then name :: first :: rest
    else first :: insertName name rest

/-- The names of a list in order, each once. -/
def sortNames (names : List String) : List String := names.foldr insertName []

@[simp] theorem mem_insertName {x name : String} {names : List String} :
    x ∈ insertName name names ↔ x = name ∨ x ∈ names := by
  induction names with
  | nil => simp [insertName]
  | cons first rest ih =>
    simp only [insertName]
    split
    · simp_all
    · split <;> simp_all [or_left_comm]

@[simp] theorem mem_sortNames {x : String} {names : List String} :
    x ∈ sortNames names ↔ x ∈ names := by
  induction names with
  | nil => simp [sortNames]
  | cons first rest ih => simp_all [sortNames]

theorem pairwise_insertName (name : String) {names : List String}
    (h : names.Pairwise (· < ·)) : (insertName name names).Pairwise (· < ·) := by
  induction names with
  | nil => simp [insertName]
  | cons first rest ih =>
    rw [List.pairwise_cons] at h
    simp only [insertName]
    split
    · exact List.pairwise_cons.2 h
    · next ne =>
      split
      · next lt =>
        refine List.pairwise_cons.2 ⟨fun x hx => ?_, List.pairwise_cons.2 h⟩
        rcases List.mem_cons.1 hx with rfl | hx
        · exact lt
        · exact String.lt_trans lt (h.1 x hx)
      · next nlt =>
        refine List.pairwise_cons.2 ⟨fun x hx => ?_, ih h.2⟩
        rcases mem_insertName.1 hx with rfl | hx
        · exact Std.lt_of_le_of_ne (Std.not_lt.1 nlt) fun e => ne e.symm
        · exact h.1 x hx

/-- The sorted names ascend. -/
theorem pairwise_sortNames (names : List String) : (sortNames names).Pairwise (· < ·) := by
  induction names with
  | nil => exact .nil
  | cons first rest ih => exact pairwise_insertName first ih

end FlatQasm
