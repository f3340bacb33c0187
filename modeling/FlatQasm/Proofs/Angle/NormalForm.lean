import FlatQasm.Proofs.Angle.Evaluate
import FlatQasm.Proofs.Angle.Simplify

/-!
# Folded angles as normal forms

Folding an angle changes neither its variables nor what comes of it under bindings.  Only the
quotient that a division by zero is reported with can differ, since it is reported as it stands in
the angle.  What is left is a normal form: the circle number is gone, and an operation on numbers
alone is a division by zero.

The float operations are not looked into.  Folding and evaluating apply the same ones to the same
numbers, so zeros of either sign, infinities and numbers that are none need no cases.

## Main definitions

* `Angle.Agree` — two outcomes of an evaluation that are the same up to the quotient they report.
* `Angle.Folded` — the normal forms.

## Main statements

* `Angle.evaluate_simplify` — folding keeps what comes of an evaluation.
* `Angle.simplify_eq_self_iff` — the folded angles are those that folding leaves as they are.
* `Angle.simplify_normalises` — everything that folding keeps, and what it leaves.
-/

namespace FlatQasm.Angle

variable {b : Bindings}

/-! ## Outcomes -/

/-- The same number, the same missing variable, or a division by zero on both sides, whichever
quotients are reported. -/
inductive Agree : Except EvalError Float → Except EvalError Float → Prop
  | number (v : Float) : Agree (.ok v) (.ok v)
  | unbound (name : String) : Agree (.error (.unbound name)) (.error (.unbound name))
  | divisionByZero (q q' : Angle) :
      Agree (.error (.divisionByZero q)) (.error (.divisionByZero q'))

namespace Agree

variable {x y : Except EvalError Float} {f g : Float → Except EvalError Float}

theorem refl (x : Except EvalError Float) : Agree x x := by
  rcases x with (name | q) | v
  · exact .unbound name
  · exact .divisionByZero q q
  · exact .number v

theorem bind (h : Agree x y) (hf : ∀ v, Agree (f v) (g v)) : Agree (x >>= f) (y >>= g) := by
  cases h with
  | number v => exact hf v
  | unbound name => exact .unbound name
  | divisionByZero q q' => exact .divisionByZero q q'

theorem map (h : Agree x y) (f : Float → Float) : Agree (x.map f) (y.map f) := by
  cases h with
  | number v => exact .number (f v)
  | unbound name => exact .unbound name
  | divisionByZero q q' => exact .divisionByZero q q'

end Agree

/-- The outcome of an operation depends on the outcomes of its operands. -/
theorem agree_binary (op : ArithOp) {b' : Bindings} {left left' right right' : Angle}
    (hleft : Agree (left.compute b) (left'.compute b'))
    (hright : Agree (right.compute b) (right'.compute b')) :
    Agree ((binary op left right).compute b) ((binary op left' right').compute b') := by
  cases op with
  | div =>
    -- The quotients that are reported are the two angles themselves.
    refine hright.bind fun y => ?_
    by_cases hy : (y == 0.0) = true
    · simp only [hy, if_true]
      exact .divisionByZero _ _
    · simp only [hy]
      exact hleft.bind fun x => .number (x / y)
  | add => exact hleft.bind fun x => hright.bind fun y => .number (x + y)
  | sub => exact hleft.bind fun x => hright.bind fun y => .number (x - y)
  | mul => exact hleft.bind fun x => hright.bind fun y => .number (x * y)

/-- A step of folding computes what evaluation would, and leaves a division by zero to it. -/
theorem compute_fold (e : Angle) : e.fold.compute b = e.compute b := by
  cases e with
  | const v => rfl
  | var name => rfl
  | pi => rfl
  | neg e => cases e <;> rfl
  | binary op left right =>
    rcases consts_or_fold_eq_self op left right with ⟨x, y, rfl, rfl⟩ | hself
    · cases op with
      | add => rfl
      | sub => rfl
      | mul => rfl
      | div =>
        by_cases hy : (y == 0.0) = true
        · simp [fold, ArithOp.value?, hy]
        · simp [fold, ArithOp.value?, compute, hy]
    · rw [hself]

theorem compute_simplify (e : Angle) : Agree (e.simplify.compute b) (e.compute b) := by
  induction e with
  | const v => exact .refl _
  | var name => exact .refl _
  | pi => exact .refl _
  | neg e ih =>
    rw [simplify_neg, compute_fold]
    exact ih.map (- ·)
  | binary op left right ihl ihr =>
    rw [simplify_binary, compute_fold]
    exact agree_binary op ihl ihr

/-! ## Variables and numbers -/

theorem occurrences_fold (e : Angle) : e.fold.occurrences = e.occurrences := by
  cases e with
  | neg e => cases e <;> rfl
  | binary op left right =>
    cases left <;> cases right <;> try rfl
    simp only [fold]
    split <;> rfl
  | _ => rfl

/-- Folding keeps every occurrence of a variable, in order. -/
@[simp] theorem occurrences_simplify (e : Angle) : e.simplify.occurrences = e.occurrences := by
  induction e with
  | neg e ih => simpa [simplify_neg, occurrences_fold, occurrences] using ih
  | binary op left right ihl ihr => simp [simplify_binary, occurrences_fold, occurrences, ihl, ihr]
  | _ => rfl

@[simp] theorem freeVariables_simplify (e : Angle) :
    e.simplify.freeVariables = e.freeVariables := by
  simp [freeVariables]

@[simp] theorem value?_simplify (e : Angle) : e.simplify.value? = e.value? := by
  ext v
  simp [value?_eq_some_iff]

/-- **Folding keeps what comes of an evaluation.**  The variables are the same, so that the same one
is found to be missing. -/
theorem evaluate_simplify (e : Angle) : Agree (e.simplify.evaluate b) (e.evaluate b) := by
  simp only [evaluate, freeVariables_simplify]
  cases b.check e.freeVariables with
  | error cause => exact .refl _
  | ok _ => exact compute_simplify e

/-! ## Normal forms -/

/-- No circle number, and no operation on numbers alone but a division by a zero of either sign. -/
def Folded : Angle → Prop
  | const _ | var _ => True
  | pi => False
  | neg e => e.Folded ∧ ∀ v, e ≠ const v
  | binary op left right => left.Folded ∧ right.Folded ∧
      ∀ x y, left = const x → right = const y → op = .div ∧ (y == 0.0) = true

theorem simplify_of_folded {e : Angle} (h : e.Folded) : e.simplify = e := by
  induction e with
  | const v => rfl
  | var name => rfl
  | pi => cases h
  | neg e ih =>
    obtain ⟨hinner, hne⟩ := h
    rw [simplify_neg, ih hinner, fold_neg_of_ne hne]
  | binary op left right ihl ihr =>
    obtain ⟨hleft, hright, hzero⟩ := h
    rw [simplify_binary, ihl hleft, ihr hright]
    rcases consts_or_fold_eq_self op left right with ⟨x, y, rfl, rfl⟩ | hself
    · obtain ⟨rfl, hy⟩ := hzero x y rfl rfl
      simp [fold, ArithOp.value?, hy]
    · exact hself

theorem folded_of_simplify {e : Angle} (h : e.simplify = e) : e.Folded := by
  induction e with
  | const v => trivial
  | var name => trivial
  | pi => cases h
  | neg e ih =>
    have hinner : e.simplify = e := simplify_of_neg h
    refine ⟨ih hinner, ?_⟩
    rintro v rfl
    cases h
  | binary op left right ihl ihr =>
    have hoperands := simplify_of_binary h
    refine ⟨ihl hoperands.1, ihr hoperands.2, ?_⟩
    rintro x y rfl rfl
    by_cases hvalue : ∃ v, op.value? x y = some v
    · obtain ⟨v, hv⟩ := hvalue
      simp [simplify_binary, fold, hv] at h
    · cases op <;> simp_all [ArithOp.value?]

/-- **The folded angles are those that folding leaves as they are.** -/
theorem simplify_eq_self_iff {e : Angle} : e.simplify = e ↔ e.Folded :=
  ⟨folded_of_simplify, simplify_of_folded⟩

/-- **Folding is a sound normalisation.**  It keeps what comes of an evaluation under any bindings,
the free variables and the number that an angle has without any; folding again changes nothing, no
angle gets higher, and the result is a normal form. -/
theorem simplify_normalises (e : Angle) (b : Bindings) :
    Agree (e.simplify.evaluate b) (e.evaluate b) ∧
    e.simplify.freeVariables = e.freeVariables ∧
    e.simplify.value? = e.value? ∧
    e.simplify.simplify = e.simplify ∧
    e.simplify.depth ≤ e.depth ∧
    e.simplify.Folded :=
  ⟨evaluate_simplify e, freeVariables_simplify e, value?_simplify e, simplify_simplify e,
    depth_simplify_le e, folded_of_simplify (simplify_simplify e)⟩

-- Half of the sum is folded; the quotient stays, with its sides folded, and is reported as it is.
example : (binary .add (binary .mul (const 2.0) (const 3.0))
      (binary .div (neg pi) (binary .sub (const 1.0) (const 1.0)))).simplify =
    binary .add (const 6.0) (binary .div (const (-piValue)) (const 0.0)) := by rfl

end FlatQasm.Angle
