import FlatQasm.Proofs.Angle.Evaluate
import FlatQasm.Proofs.Angle.Simplify

/-!
# The divisions in an angle

Where the divisions of an angle come from when it is folded and when its variables are replaced.
Folding makes no new division, and keeps each that it leaves with both sides folded.  A division in
an angle with replaced variables is a division of the angle, with the variables of both sides
replaced, or stands in one of the replacements.

## Main definitions

* `Angle.quotients` — the divisions in an angle.
* `Angle.FoldsToZero` — an angle that folds to zero.

## Main statements

* `Angle.exists_of_mem_quotients_simplify` — the divisions that folding leaves.
* `Angle.mem_quotients_simplify` — folding leaves every division by zero.
* `Angle.exists_of_mem_quotients_substitute` — the divisions that there are when variables are
  replaced.
* `Angle.foldsToZero_of_compute` — where no variable occurs, what is reported as a division by zero
  is a division whose divisor folds to zero.
-/

namespace FlatQasm.Angle

/-- The divisions in an angle, each by its dividend and its divisor. -/
def quotients : Angle → List (Angle × Angle)
  | const _ | var _ | pi => []
  | neg e => e.quotients
  | binary op a b => (if op = .div then [(a, b)] else []) ++ (a.quotients ++ b.quotients)

/-- The angle folds to a zero, of either sign. -/
def FoldsToZero (e : Angle) : Prop := ∃ v, e.simplify = const v ∧ (v == 0.0) = true

variable {e x y : Angle}

theorem mem_quotients_binary {op : ArithOp} {a b : Angle} :
    (x, y) ∈ (binary op a b).quotients ↔
      (op = .div ∧ x = a ∧ y = b) ∨ (x, y) ∈ a.quotients ∨ (x, y) ∈ b.quotients := by
  rw [quotients, List.mem_append, List.mem_append]
  split
  · next hop => simp [hop]
  · next hop => simp [hop]

/-- The variables of a divisor are variables of the angle. -/
theorem occurrences_subset_of_mem_quotients (h : (x, y) ∈ e.quotients) :
    y.occurrences ⊆ e.occurrences := by
  induction e with
  | const v => cases h
  | var name => cases h
  | pi => cases h
  | neg e ih => exact ih h
  | binary op a b iha ihb =>
    rw [occurrences]
    rcases mem_quotients_binary.1 h with ⟨-, -, rfl⟩ | h | h
    · exact List.subset_append_right _ _
    · exact List.subset_append_of_subset_left _ (iha h)
    · exact List.subset_append_of_subset_right _ (ihb h)

/-! ## Folding -/

theorem quotients_fold_subset (e : Angle) : e.fold.quotients ⊆ e.quotients := by
  rcases fold_eq e with ⟨v, h⟩ | h
  · rw [h]
    exact List.nil_subset _
  · rw [h]
    exact List.Subset.refl _

/-- A division that folding leaves is one of the angle, with both sides folded. -/
theorem exists_of_mem_quotients_simplify (h : (x, y) ∈ e.simplify.quotients) :
    ∃ a b, (a, b) ∈ e.quotients ∧ x = a.simplify ∧ y = b.simplify := by
  induction e with
  | const v => cases h
  | var name => cases h
  | pi => cases h
  | neg e ih =>
    rw [simplify_neg] at h
    exact ih (quotients_fold_subset (neg e.simplify) h)
  | binary op a b iha ihb =>
    rw [simplify_binary] at h
    rcases mem_quotients_binary.1 (quotients_fold_subset _ h) with ⟨hop, rfl, rfl⟩ | h | h
    · exact ⟨a, b, mem_quotients_binary.2 (.inl ⟨hop, rfl, rfl⟩), rfl, rfl⟩
    · obtain ⟨a', b', hmem, hx, hy⟩ := iha h
      exact ⟨a', b', mem_quotients_binary.2 (.inr (.inl hmem)), hx, hy⟩
    · obtain ⟨a', b', hmem, hx, hy⟩ := ihb h
      exact ⟨a', b', mem_quotients_binary.2 (.inr (.inr hmem)), hx, hy⟩

/-- Both sides of a division in a folded angle are folded. -/
theorem simplify_of_mem_quotients (folded : e.simplify = e) (h : (x, y) ∈ e.quotients) :
    x.simplify = x ∧ y.simplify = y := by
  rw [← folded] at h
  obtain ⟨a, b, -, rfl, rfl⟩ := exists_of_mem_quotients_simplify h
  exact ⟨simplify_simplify a, simplify_simplify b⟩

@[simp] theorem foldsToZero_simplify : e.simplify.FoldsToZero ↔ e.FoldsToZero := by
  rw [FoldsToZero, FoldsToZero, simplify_simplify]

theorem ne_const_of_mem_quotients (h : (x, y) ∈ e.quotients) (v : Float) : e ≠ const v := by
  rintro rfl
  cases h

/-- A division whose divisor folds to zero is left in place. -/
theorem mem_quotients_simplify (h : (x, y) ∈ e.quotients) (hy : y.FoldsToZero) :
    (x.simplify, y.simplify) ∈ e.simplify.quotients := by
  induction e with
  | const v => cases h
  | var name => cases h
  | pi => cases h
  | neg e ih =>
    rw [simplify_neg, fold_neg_of_ne (ne_const_of_mem_quotients (ih h))]
    exact ih h
  | binary op a b iha ihb =>
    rw [simplify_binary]
    rcases mem_quotients_binary.1 h with ⟨rfl, rfl, rfl⟩ | h | h
    · have kept : (binary .div x.simplify y.simplify).fold =
          binary .div x.simplify y.simplify := by
        obtain ⟨v, hv, hzero⟩ := hy
        rw [hv]
        cases x.simplify with
        | const w => simp [fold, ArithOp.value?, hzero]
        | _ => rfl
      rw [kept]
      exact mem_quotients_binary.2 (.inl ⟨rfl, rfl, rfl⟩)
    · rw [fold_binary_of_ne (.inl (ne_const_of_mem_quotients (iha h)))]
      exact mem_quotients_binary.2 (.inr (.inl (iha h)))
    · rw [fold_binary_of_ne (.inr (ne_const_of_mem_quotients (ihb h)))]
      exact mem_quotients_binary.2 (.inr (.inr (ihb h)))

theorem NoZeroDivisor.ne_zero (hdivisors : e.NoZeroDivisor) (h : (x, y) ∈ e.quotients) {v : Float}
    (hy : y = const v) : (v == 0.0) = false := by
  induction e with
  | const v => cases h
  | var name => cases h
  | pi => cases h
  | neg e ih => exact ih hdivisors h
  | binary op a b iha ihb =>
    obtain ⟨ha, hb, hzero⟩ := hdivisors
    rcases mem_quotients_binary.1 h with ⟨hop, -, rfl⟩ | h | h
    · exact hzero hop v hy
    · exact iha ha h
    · exact ihb hb h

/-- No divisor of a folded angle folds to zero when none is a zero. -/
theorem NoZeroDivisor.not_foldsToZero (hdivisors : e.NoZeroDivisor) (folded : e.simplify = e)
    (h : (x, y) ∈ e.quotients) : ¬ y.FoldsToZero := by
  rintro ⟨v, hv, hzero⟩
  rw [(simplify_of_mem_quotients folded h).2] at hv
  rw [hdivisors.ne_zero h hv] at hzero
  cases hzero

/-! ## Replacing variables -/

variable {replacement : String → Option Angle}

/-- A division in an angle with replaced variables is a division of the angle, or stands in a
replacement. -/
theorem exists_of_mem_quotients_substitute (h : (x, y) ∈ (e.substitute replacement).quotients) :
    (∃ a b, (a, b) ∈ e.quotients ∧ x = a.substitute replacement ∧
      y = b.substitute replacement) ∨
    ∃ name r, replacement name = some r ∧ (x, y) ∈ r.quotients := by
  induction e with
  | const v => cases h
  | var name =>
    rw [substitute] at h
    cases hname : replacement name with
    | none =>
      rw [hname] at h
      cases h
    | some r =>
      rw [hname] at h
      exact .inr ⟨name, r, hname, h⟩
  | pi => cases h
  | neg e ih => exact ih h
  | binary op a b iha ihb =>
    rcases mem_quotients_binary.1 h with ⟨hop, rfl, rfl⟩ | h | h
    · exact .inl ⟨a, b, mem_quotients_binary.2 (.inl ⟨hop, rfl, rfl⟩), rfl, rfl⟩
    · refine (iha h).imp_left ?_
      rintro ⟨a', b', hmem, hx, hy⟩
      exact ⟨a', b', mem_quotients_binary.2 (.inr (.inl hmem)), hx, hy⟩
    · refine (ihb h).imp_left ?_
      rintro ⟨a', b', hmem, hx, hy⟩
      exact ⟨a', b', mem_quotients_binary.2 (.inr (.inr hmem)), hx, hy⟩

/-- Where no variable is replaced, the angle stays as it is. -/
theorem substitute_eq_self (h : ∀ z ∈ e.occurrences, replacement z = none) :
    e.substitute replacement = e := by
  induction e with
  | const v => rfl
  | var name => rw [substitute, h name (List.mem_singleton_self name), Option.getD_none]
  | pi => rfl
  | neg e ih => rw [substitute, ih h]
  | binary op a b iha ihb =>
    rw [occurrences, List.forall_mem_append] at h
    rw [substitute, iha h.1, ihb h.2]

/-! ## Numbers -/

variable {b : Bindings}

/-- What an operation reports as a division by zero comes from one of its sides, or is itself. -/
theorem reported_of_binary {op : ArithOp} {left right q : Angle}
    (h : (binary op left right).compute b = .error (.divisionByZero q)) :
    left.compute b = .error (.divisionByZero q) ∨ right.compute b = .error (.divisionByZero q) ∨
      op = .div ∧ ∃ v, right.compute b = .ok v ∧ (v == 0.0) = true ∧
        q = binary .div left right := by
  cases op with
  | div =>
    rcases bind_eq_error.1 h with h | ⟨v, hv, h⟩
    · exact .inr (.inl h)
    · split at h
      · next hzero =>
        cases h
        exact .inr (.inr ⟨rfl, v, hv, hzero, rfl⟩)
      · rcases bind_eq_error.1 h with h | ⟨_, -, h⟩
        · exact .inl h
        · cases h
  | add | sub | mul =>
    rcases bind_eq_error.1 h with h | ⟨_, -, h⟩
    · exact .inl h
    · rcases bind_eq_error.1 h with h | ⟨_, -, h⟩
      · exact .inr (.inl h)
      · cases h

/-- What is reported as a division by zero is a division in the angle, and its divisor has the
number zero. -/
theorem exists_of_compute_eq_divisionByZero {q : Angle}
    (h : e.compute b = .error (.divisionByZero q)) :
    ∃ x y v, (x, y) ∈ e.quotients ∧ q = binary .div x y ∧ y.compute b = .ok v ∧
      (v == 0.0) = true := by
  induction e with
  | const v => cases h
  | var name =>
    rw [compute] at h
    split at h <;> cases h
  | pi => cases h
  | neg e ih =>
    rw [compute, map_eq_error] at h
    exact ih h
  | binary op left right ihl ihr =>
    rcases reported_of_binary h with h | h | ⟨rfl, v, hv, hzero, rfl⟩
    · obtain ⟨x, y, v, hmem, rest⟩ := ihl h
      exact ⟨x, y, v, mem_quotients_binary.2 (.inr (.inl hmem)), rest⟩
    · obtain ⟨x, y, v, hmem, rest⟩ := ihr h
      exact ⟨x, y, v, mem_quotients_binary.2 (.inr (.inr hmem)), rest⟩
    · exact ⟨left, right, v, mem_quotients_binary.2 (.inl ⟨rfl, rfl, rfl⟩), rfl, hv, hzero⟩

/-- Where no variable occurs, the number under bindings is the one without. -/
theorem value?_of_compute (closed : e.occurrences = []) {v : Float} (h : e.compute b = .ok v) :
    e.value? = some v := by
  induction e generalizing v with
  | const w =>
    cases h
    rfl
  | var name => cases closed
  | pi =>
    cases h
    rfl
  | neg e ih =>
    obtain ⟨w, hw, rfl⟩ := map_eq_ok.1 h
    rw [value?, ih closed hw]
    rfl
  | binary op left right ihl ihr =>
    obtain ⟨closedLeft, closedRight⟩ := List.append_eq_nil_iff.1 closed
    cases op with
    | div =>
      obtain ⟨w, hw, h⟩ := bind_eq_ok.1 h
      split at h
      · cases h
      · next hzero =>
        obtain ⟨u, hu, heq⟩ := bind_eq_ok.1 h
        cases heq
        rw [value?, ihl closedLeft hu, ihr closedRight hw]
        exact if_neg hzero
    | add | sub | mul =>
      obtain ⟨u, hu, h⟩ := bind_eq_ok.1 h
      obtain ⟨w, hw, heq⟩ := bind_eq_ok.1 h
      cases heq
      rw [value?, ihl closedLeft hu, ihr closedRight hw]
      rfl

/-- Where no variable occurs, what is reported as a division by zero is a division whose divisor
folds to zero. -/
theorem foldsToZero_of_compute (closed : e.occurrences = []) {q : Angle}
    (h : e.compute b = .error (.divisionByZero q)) :
    ∃ x y, (x, y) ∈ e.quotients ∧ q = binary .div x y ∧ y.FoldsToZero := by
  obtain ⟨x, y, v, hmem, hq, hv, hzero⟩ := exists_of_compute_eq_divisionByZero h
  have closedDivisor : y.occurrences = [] :=
    List.subset_nil.1 (closed ▸ occurrences_subset_of_mem_quotients hmem)
  exact ⟨x, y, hmem, hq, v, value?_eq_some_iff.1 (value?_of_compute closedDivisor hv), hzero⟩

end FlatQasm.Angle
