import FlatQasm.Angle.Evaluate
import FlatQasm.Proofs.Outcome

/-!
# Which angles have numbers

An angle whose variables all have values has a number, unless the number of some divisor is zero;
and then a division by zero is what is reported.  Which names are missing does not depend on the
order in which an angle is computed, since it is looked at first.

## Main definitions

* `Angle.Bound` — every variable of an angle has a value.
* `Angle.DividesByZero` — some divisor has the number zero.

## Main statements

* `Angle.compute_of_bound` — a number, or a division by zero.
* `Bindings.check_eq_error` — of several missing names the least is reported.
-/

namespace FlatQasm

variable {b : Bindings}

namespace Bindings

theorem contains_eq_false {x : String} : b.contains x = false ↔ b.get? x = none := by
  simp [contains]

theorem check_eq_ok {names : List String} :
    b.check names = .ok () ↔ ∀ x ∈ names, b.get? x ≠ none := by
  simp only [check]
  split
  · next x hx =>
    obtain ⟨hmissing, hmem⟩ := And.intro (List.find?_some hx) (List.mem_of_find?_eq_some hx)
    rw [Bool.not_eq_true', contains_eq_false] at hmissing
    constructor
    · intro h
      cases h
    · intro h
      exact absurd hmissing (h x hmem)
  · next hnone =>
    refine ⟨fun _ x hx => ?_, fun _ => rfl⟩
    have hfound := List.find?_eq_none.1 hnone x hx
    rwa [Bool.not_eq_true', contains_eq_false] at hfound

/-- Of several missing names there is a least one. -/
theorem exists_least_missing {names : List String} (sorted : names.Pairwise (· < ·))
    (h : ∃ x ∈ names, b.get? x = none) :
    ∃ x ∈ names, b.get? x = none ∧ ∀ y ∈ names, b.get? y = none → x ≤ y := by
  obtain ⟨before, x, after, rfl, hbefore, hx⟩ := exists_first h
  refine ⟨x, List.mem_append_right _ List.mem_cons_self, hx, fun y hy hmissing => ?_⟩
  rw [List.mem_append, List.mem_cons] at hy
  obtain hy | rfl | hy := hy
  · exact absurd hmissing (hbefore y hy)
  · exact String.le_refl y
  · have behind := (List.pairwise_append.1 sorted).2.1
    exact Std.le_of_lt ((List.pairwise_cons.1 behind).1 y hy)

/-- Of several missing names in sorted order, the least is reported. -/
theorem check_eq_error {names : List String} (sorted : names.Pairwise (· < ·)) {x : String}
    (hx : x ∈ names) (hmissing : b.get? x = none)
    (least : ∀ y ∈ names, b.get? y = none → x ≤ y) : b.check names = .error (.unbound x) := by
  have hfind : b.firstMissing? names = some x := by
    obtain ⟨before, after, rfl⟩ := List.append_of_mem hx
    refine List.find?_eq_some_iff_append.2 ⟨?_, before, after, rfl, fun y hy => ?_⟩
    · rw [Bool.not_eq_true', contains_eq_false]
      exact hmissing
    · have hlt : y < x := (List.pairwise_append.1 sorted).2.2 y hy x List.mem_cons_self
      rw [Bool.not_not, ← Bool.not_eq_false, contains_eq_false]
      intro hy'
      have hle : x ≤ y := least y (List.mem_append_left _ hy) hy'
      exact absurd hlt (String.not_lt.2 hle)
  rw [check, hfind]

end Bindings

namespace Angle

/-- Every variable has a value. -/
def Bound (b : Bindings) (e : Angle) : Prop := ∀ x ∈ e.occurrences, b.get? x ≠ none

/-- Some divisor has the number zero. -/
def DividesByZero (b : Bindings) : Angle → Prop
  | const _ | var _ | pi => False
  | neg e => e.DividesByZero b
  | binary op left right =>
    left.DividesByZero b ∨ right.DividesByZero b ∨
      (op = .div ∧ ∃ v, right.compute b = .ok v ∧ (v == 0.0) = true)

/-- What comes of an angle whose variables have values: a number where no divisor is zero, and else
the report of a quotient. -/
inductive Computed (b : Bindings) (e : Angle) : Prop
  | number {v : Float} : e.compute b = .ok v → ¬ e.DividesByZero b → Computed b e
  | divisionByZero {q : Angle} : e.compute b = .error (.divisionByZero q) →
      e.DividesByZero b → Computed b e

section Operations

variable {op : ArithOp} {left right : Angle}

/-- The divisor comes first: where it is zero, or has no number, the dividend does not matter. -/
theorem Computed.div (hleft : left.Computed b) (hright : right.Computed b) :
    (binary .div left right).Computed b := by
  cases hright with
  | @divisionByZero q hq hzero =>
    refine @divisionByZero _ _ q ?_ (.inr (.inl hzero))
    rw [compute, hq]
    rfl
  | @number y hy hsafe =>
    by_cases hdivisor : (y == 0.0) = true
    · refine @divisionByZero _ _ (binary .div left right) ?_ (.inr (.inr ⟨rfl, y, hy, hdivisor⟩))
      simp only [compute, hy]
      exact if_pos hdivisor
    · cases hleft with
      | @divisionByZero q hq hzero =>
        refine @divisionByZero _ _ q ?_ (.inl hzero)
        simp only [compute, hy, hq]
        exact if_neg hdivisor
      | @number x hx hsafe' =>
        refine @number _ _ (x / y) ?_ ?_
        · simp only [compute, hy, hx]
          exact if_neg hdivisor
        · rintro (hzero | hzero | ⟨-, v, hv, hzero⟩)
          · exact hsafe' hzero
          · exact hsafe hzero
          · rw [hy] at hv
            cases hv
            exact hdivisor hzero

/-- The other operations take the left operand first. -/
theorem Computed.of_ne_div (hop : op ≠ .div) (hleft : left.Computed b) (hright : right.Computed b) :
    (binary op left right).Computed b := by
  cases op with
  | div => exact absurd rfl hop
  | add | sub | mul =>
    cases hleft with
    | @divisionByZero q hq hzero =>
      refine @divisionByZero _ _ q ?_ (.inl hzero)
      rw [compute, hq]
      rfl
    | @number x hx hsafe =>
      cases hright with
      | @divisionByZero q hq hzero =>
        refine @divisionByZero _ _ q ?_ (.inr (.inl hzero))
        rw [compute, hx, hq]
        rfl
      | @number y hy hsafe' =>
        refine .number (by rw [compute, hx, hy]; rfl) ?_
        rintro (hzero | hzero | ⟨hdiv, -⟩)
        · exact hsafe hzero
        · exact hsafe' hzero
        · exact hop hdiv

end Operations

/-- **An angle whose variables have values has a number, or some divisor is zero.** -/
theorem compute_of_bound {e : Angle} (h : e.Bound b) : e.Computed b := by
  induction e with
  | const v => exact .number rfl not_false
  | pi => exact .number rfl not_false
  | var name =>
    cases hname : b.get? name with
    | none => exact absurd hname (h name (List.mem_singleton_self name))
    | some v => exact .number (by rw [compute, hname]) not_false
  | neg e ih =>
    cases ih h with
    | @number v hv hsafe =>
      refine @Computed.number _ _ (-v) ?_ hsafe
      rw [compute, hv]
      rfl
    | @divisionByZero q hq hzero =>
      refine @Computed.divisionByZero _ _ q ?_ hzero
      rw [compute, hq]
      rfl
  | binary op left right ihl ihr =>
    have hleft := ihl fun x hx => h x (List.mem_append_left _ hx)
    have hright := ihr fun x hx => h x (List.mem_append_right _ hx)
    by_cases hop : op = .div
    · rw [hop]
      exact hleft.div hright
    · exact .of_ne_div hop hleft hright

/-- Where all variables have values, looking for a missing one makes no difference. -/
theorem evaluate_of_bound {e : Angle} (h : e.Bound b) : e.evaluate b = e.compute b := by
  have hcheck : b.check e.freeVariables = .ok () := by
    refine Bindings.check_eq_ok.2 fun x hx => h x ?_
    rwa [freeVariables, mem_sortNames] at hx
  rw [evaluate, hcheck]
  rfl

end Angle

end FlatQasm
