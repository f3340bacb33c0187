import Std.Data.TreeSet

/-!
# Repeated elements of a list

Both functions go through a list once and keep the elements that they have seen in an ordered set.
What they give does not depend on the order of the elements.

## Main definitions

* `firstRepeated?` — the first element that also stands earlier in the list.
* `distinct` — the elements of a list, each once.

## Main statements

* `firstRepeated?_eq_none` — there is no repeated element exactly when the elements are pairwise
  distinct.
* `mem_distinct`, `nodup_distinct` — `distinct` keeps the members and repeats none.
* `distinct_eq_self` — a list of distinct elements is left as it is.
-/

namespace FlatQasm

variable {α : Type} [Ord α]

/-- The first element of a list that was seen before: in `seen`, or earlier in the list. -/
def firstRepeatedAfter? (seen : Std.TreeSet α) : List α → Option α
  | [] => none
  | x :: rest => if seen.contains x then some x else firstRepeatedAfter? (seen.insert x) rest

/-- The first element of a list that also stands earlier in it. -/
def firstRepeated? (list : List α) : Option α := firstRepeatedAfter? ∅ list

/-- The elements of a list that are not in `seen`, each where it first occurs. -/
def distinctAfter (seen : Std.TreeSet α) : List α → List α
  | [] => []
  | x :: rest =>
    if seen.contains x then distinctAfter seen rest
    else x :: distinctAfter (seen.insert x) rest

/-- The elements of a list, each where it first occurs. -/
def distinct (list : List α) : List α := distinctAfter ∅ list

variable [Std.TransOrd α] [Std.LawfulEqOrd α]

theorem firstRepeatedAfter?_eq_none {seen : Std.TreeSet α} {list : List α} :
    firstRepeatedAfter? seen list = none ↔ list.Nodup ∧ ∀ x ∈ list, x ∉ seen := by
  induction list generalizing seen with
  | nil => simp [firstRepeatedAfter?]
  | cons x rest ih =>
    simp only [firstRepeatedAfter?, List.nodup_cons]
    split
    · simp_all
    · rw [ih]
      simp only [Std.TreeSet.mem_insert, Std.LawfulEqCmp.compare_eq_iff_eq]
      grind

/-- A list has no repeated element exactly when its elements are pairwise distinct. -/
theorem firstRepeated?_eq_none {list : List α} : firstRepeated? list = none ↔ list.Nodup := by
  simp [firstRepeated?, firstRepeatedAfter?_eq_none]

theorem mem_distinctAfter {seen : Std.TreeSet α} {list : List α} {x : α} :
    x ∈ distinctAfter seen list ↔ x ∈ list ∧ x ∉ seen := by
  induction list generalizing seen with
  | nil => simp [distinctAfter]
  | cons y rest ih =>
    simp only [distinctAfter]
    split <;>
      simp only [List.mem_cons, ih, Std.TreeSet.mem_insert,
        Std.LawfulEqCmp.compare_eq_iff_eq] <;> grind

theorem nodup_distinctAfter {seen : Std.TreeSet α} {list : List α} :
    (distinctAfter seen list).Nodup := by
  induction list generalizing seen with
  | nil => simp [distinctAfter]
  | cons y rest ih =>
    simp only [distinctAfter]
    split
    · exact ih
    · simp [ih, mem_distinctAfter]

theorem distinctAfter_eq_self {seen : Std.TreeSet α} {list : List α} (nodup : list.Nodup)
    (unseen : ∀ x ∈ list, x ∉ seen) : distinctAfter seen list = list := by
  induction list generalizing seen with
  | nil => rfl
  | cons y rest ih =>
    rw [List.nodup_cons] at nodup
    have absent : ¬ seen.contains y := unseen y List.mem_cons_self
    rw [distinctAfter, if_neg absent, ih nodup.2]
    intro x h
    simp only [Std.TreeSet.mem_insert, Std.LawfulEqCmp.compare_eq_iff_eq]
    grind

/-- Taking each element once loses none. -/
@[simp] theorem mem_distinct {list : List α} {x : α} : x ∈ distinct list ↔ x ∈ list := by
  simp [distinct, mem_distinctAfter]

/-- Each element is taken once. -/
theorem nodup_distinct {list : List α} : (distinct list).Nodup := nodup_distinctAfter

/-- A list of distinct elements is left as it is. -/
theorem distinct_eq_self {list : List α} (h : list.Nodup) : distinct list = list :=
  distinctAfter_eq_self h (by simp)

end FlatQasm
