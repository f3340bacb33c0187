import Mathlib

/-!
# Looking up names in lists of pairs

Registers, definitions and formal parameters are lists of pairs of a name and a value.  A lookup
gives the first pair of a name.  Where names are distinct, the order of the pairs does not matter.

## Main statements

* `lookup_map_snd`, `lookup_map_fst` — a lookup among changed values, and among changed names.
* `lookup_eq_some_of_mem` — of distinct names, every pair is found.
* `lookup_reverse` — of distinct names, the last pair is the first.
* `lookup_zip_rel` — related values at the same places are found under the same names.
-/

namespace FlatQasm

variable {α β γ : Type}

theorem nodup_fst_zip {names : List α} (nodup : names.Nodup) (list : List β) :
    ((names.zip list).map Prod.fst).Nodup := by
  induction names generalizing list with
  | nil => simp
  | cons name names ih =>
    cases list with
    | nil => simp
    | cons value list =>
      rw [List.nodup_cons] at nodup
      rw [List.zip_cons_cons, List.map_cons, List.nodup_cons]
      refine ⟨fun h => ?_, ih nodup.2 list⟩
      obtain ⟨pair, hmem, rfl⟩ := List.mem_map.1 h
      exact nodup.1 (List.of_mem_zip hmem).1

variable [BEq α]

/-- Related lists give related values to the names that stand at the same places. -/
theorem lookup_zip_rel (names : List α) {list : List β} {list' : List γ} {r : β → γ → Prop}
    (h : List.Forall₂ r list list') (x : α) :
    (names.zip list).lookup x = none ∧ (names.zip list').lookup x = none ∨
      ∃ y z, (names.zip list).lookup x = some y ∧ (names.zip list').lookup x = some z ∧
        r y z := by
  induction h generalizing names with
  | nil => simp
  | cons hr _ ih =>
    cases names with
    | nil => simp
    | cons name names =>
      simp only [List.zip_cons_cons, List.lookup_cons]
      split
      · exact .inr ⟨_, _, rfl, rfl, hr⟩
      · exact ih names

/-- Changing the values changes what is found in the same way. -/
theorem lookup_map_snd (f : β → γ) (pairs : List (α × β)) (x : α) :
    (pairs.map fun pair => (pair.1, f pair.2)).lookup x = (pairs.lookup x).map f := by
  induction pairs with
  | nil => rfl
  | cons first rest ih =>
    rw [List.map_cons, List.lookup_cons, List.lookup_cons, ih]
    split <;> rfl

variable [LawfulBEq α]

theorem lookup_cons_eq_ite [DecidableEq α] (x : α) (pair : α × β) (pairs : List (α × β)) :
    (pair :: pairs).lookup x = if x = pair.1 then some pair.2 else pairs.lookup x := by
  rw [List.lookup_cons]
  by_cases h : x = pair.1
  · simp [h]
  · simp [h, beq_false_of_ne h]

/-- Names paired with values of their own are found with these. -/
theorem lookup_map_pair [DecidableEq α] (names : List α) (f : α → β) (x : α) :
    (names.map fun name => (name, f name)).lookup x = if x ∈ names then some (f x) else none := by
  induction names with
  | nil => rfl
  | cons name names ih =>
    rw [List.map_cons, lookup_cons_eq_ite, ih]
    by_cases h : x = name
    · simp [h]
    · simp [h]

/-- Changing the names changes nothing of what is found under a name that no other is changed
into. -/
theorem lookup_map_fst [DecidableEq α] {f : α → α} {pairs : List (α × β)} {x : α}
    (inj : ∀ y ∈ pairs.map Prod.fst, f x = f y → x = y) :
    (pairs.map (Prod.map f id)).lookup (f x) = pairs.lookup x := by
  induction pairs with
  | nil => rfl
  | cons pair pairs ih =>
    rw [List.map_cons, List.forall_mem_cons] at inj
    have same : f x = f pair.1 ↔ x = pair.1 := ⟨inj.1, congrArg f⟩
    rw [List.map_cons, lookup_cons_eq_ite, lookup_cons_eq_ite, ih inj.2]
    simp only [Prod.map_fst, Prod.map_snd, id_eq, same]

theorem mem_of_lookup_eq_some {pairs : List (α × β)} {x : α} {y : β}
    (h : pairs.lookup x = some y) : (x, y) ∈ pairs := by
  obtain ⟨before, after, rfl, -⟩ := List.lookup_eq_some_iff.1 h
  simp

/-- Where names are distinct, every pair is found. -/
theorem lookup_eq_some_of_mem {pairs : List (α × β)} (nodup : (pairs.map Prod.fst).Nodup) {x : α}
    {y : β} (h : (x, y) ∈ pairs) : pairs.lookup x = some y := by
  obtain ⟨before, after, rfl⟩ := List.append_of_mem h
  rw [List.map_append, List.map_cons, List.nodup_middle, List.nodup_cons, List.mem_append,
    not_or] at nodup
  refine List.lookup_eq_some_iff.2 ⟨before, after, rfl, fun pair hpair => ?_⟩
  rw [bne_iff_ne]
  rintro rfl
  exact nodup.1.1 (List.mem_map.2 ⟨pair, hpair, rfl⟩)

/-- A name is found exactly when it is the name of a pair. -/
theorem lookup_eq_none_iff_notMem {pairs : List (α × β)} {x : α} :
    pairs.lookup x = none ↔ x ∉ pairs.map Prod.fst := by
  rw [List.lookup_eq_none_iff, List.mem_map]
  constructor
  · rintro h ⟨pair, hmem, rfl⟩
    simpa using h pair hmem
  · intro h pair hmem
    rw [bne_iff_ne]
    rintro rfl
    exact h ⟨pair, hmem, rfl⟩

/-- Where names are distinct, it does not matter which pair of a name counts. -/
theorem lookup_reverse {pairs : List (α × β)} (nodup : (pairs.map Prod.fst).Nodup) (x : α) :
    pairs.reverse.lookup x = pairs.lookup x := by
  induction pairs with
  | nil => rfl
  | cons first rest ih =>
    obtain ⟨name, value⟩ := first
    rw [List.map_cons, List.nodup_cons] at nodup
    rw [List.reverse_cons, List.lookup_append, ih nodup.2]
    simp only [List.lookup_cons, List.lookup_nil]
    by_cases heq : x = name
    · rw [heq, lookup_eq_none_iff_notMem.2 nodup.1]
      simp
    · have ne : (x == name) = false := by simpa using heq
      simp [ne]

end FlatQasm
