import FlatQasm.Proofs.Angle.NormalForm
import FlatQasm.Proofs.Bindings

/-!
# Replacing variables and evaluating

A variable gets a number from bindings, or an angle from a replacement.  The two ways agree: an
angle has the number that is left when its variables are replaced by their numbers, and replacing
variables by angles is the same as binding them to the numbers of those angles.

An evaluation looks for missing variables before it computes.  So what comes of it is settled by two
things: which variables are missing and, where none is, what is computed.

## Main definitions

* `Angle.FirstMissing` — the missing variable that an evaluation reports.
* `Bindings.constants` — every name replaced by the number that it has.
* `Angle.composed` — two replacements in one.

## Main statements

* `Angle.evaluate_of_firstMissing`, `Angle.evaluate_cases` — what comes of an evaluation.
* `Angle.value?_substitute_constants` — computing is replacing by numbers.
* `Angle.evaluate_iff_value?_substitute` — the same for an evaluation, with its errors.
* `Angle.agree_evaluate_substitute` — replacing variables is binding them anew.
* `Angle.evaluate_substitute` — the same for any values that the replacements have, and replacing
  twice as replacing once.
-/

namespace FlatQasm

/-! ## Bindings -/

namespace Bindings

/-- Names that are given values of their own have these; other names keep theirs. -/
theorem get?_insertMany_map (b : Bindings) (names : List String) (v : String → Float)
    (x : String) : (b.insertMany (names.map fun name => (name, v name))).get? x =
      if x ∈ names then some (v x) else b.get? x := by
  rw [get?_insertMany, lastValue?, ← List.map_reverse, lookup_map_pair]
  by_cases h : x ∈ names <;> simp [h]

/-- Every name with a value is replaced by that value. -/
def constants (b : Bindings) : String → Option Angle := fun x => (b.get? x).map .const

end Bindings

namespace Angle

variable {b b' : Bindings} {e e' : Angle}

/-! ## The two cases of an evaluation -/

/-- A variable without a value. -/
def Missing (b : Bindings) (e : Angle) (x : String) : Prop := x ∈ e.occurrences ∧ b.get? x = none

/-- Of the variables without a value, the least one. -/
def FirstMissing (b : Bindings) (e : Angle) (x : String) : Prop :=
  e.Missing b x ∧ ∀ y, e.Missing b y → x ≤ y

theorem bound_iff : e.Bound b ↔ ∀ x, ¬ e.Missing b x := by
  simp only [Bound, Missing, not_and]

theorem exists_firstMissing (h : ¬ e.Bound b) : ∃ x, e.FirstMissing b x := by
  simp only [bound_iff, not_forall, not_not] at h
  obtain ⟨y, hy, hnone⟩ := h
  obtain ⟨x, hx, hmissing, least⟩ := Bindings.exists_least_missing
    (pairwise_sortNames e.occurrences) ⟨y, mem_sortNames.2 hy, hnone⟩
  exact ⟨x, ⟨mem_sortNames.1 hx, hmissing⟩, fun z hz => least z (mem_sortNames.2 hz.1) hz.2⟩

/-- A missing variable is reported whatever divisions there are. -/
theorem evaluate_of_firstMissing {x : String} (h : e.FirstMissing b x) :
    e.evaluate b = .error (.unbound x) := by
  obtain ⟨⟨hx, hmissing⟩, least⟩ := h
  have hcheck : b.check e.freeVariables = .error (.unbound x) :=
    Bindings.check_eq_error (pairwise_sortNames e.occurrences) (mem_sortNames.2 hx) hmissing
      fun y hy hnone => least y ⟨mem_sortNames.1 hy, hnone⟩
  rw [evaluate, hcheck]
  rfl

/-- An angle with a number has a value for every variable. -/
theorem evaluate_eq_ok {v : Float} : e.evaluate b = .ok v ↔ e.Bound b ∧ e.compute b = .ok v := by
  by_cases h : e.Bound b
  · rw [evaluate_of_bound h]
    exact (and_iff_right h).symm
  · obtain ⟨x, hx⟩ := exists_firstMissing h
    rw [evaluate_of_firstMissing hx]
    simp [h]

/-- Where the same variables are missing, either some are, and the same one is reported, or all
variables have values, and what is computed is what comes of it. -/
theorem evaluate_cases (missing : ∀ x, e.Missing b x ↔ e'.Missing b' x) :
    (∃ x, e.evaluate b = .error (.unbound x) ∧ e'.evaluate b' = .error (.unbound x)) ∨
      e.Bound b ∧ e.evaluate b = e.compute b ∧ e'.evaluate b' = e'.compute b' := by
  by_cases h : e.Bound b
  · have h' : e'.Bound b' := bound_iff.2 fun x hx => bound_iff.1 h x ((missing x).2 hx)
    exact .inr ⟨h, evaluate_of_bound h, evaluate_of_bound h'⟩
  · obtain ⟨x, hx, least⟩ := exists_firstMissing h
    have hx' : e'.FirstMissing b' x :=
      ⟨(missing x).1 hx, fun y hy => least y ((missing y).2 hy)⟩
    exact .inl ⟨x, evaluate_of_firstMissing ⟨hx, least⟩, evaluate_of_firstMissing hx'⟩

/-! ## Numbers for variables -/

/-- What is computed depends only on the values of the variables. -/
theorem compute_congr (h : ∀ x ∈ e.occurrences, b'.get? x = b.get? x) :
    e.compute b' = e.compute b := by
  induction e with
  | const v => rfl
  | pi => rfl
  | var name => rw [compute, compute, h name (List.mem_singleton_self name)]
  | neg e ih => rw [compute, compute, ih h]
  | binary op left right ihl ihr =>
    rw [occurrences, List.forall_mem_append] at h
    cases op <;> rw [compute, compute, ihl h.1, ihr h.2]

/-- **What comes of an evaluation depends only on the values of the variables.** -/
theorem evaluate_congr (h : ∀ x ∈ e.occurrences, b'.get? x = b.get? x) :
    e.evaluate b' = e.evaluate b := by
  have missing (x : String) : e.Missing b' x ↔ e.Missing b x :=
    and_congr_right fun hx => by rw [h x hx]
  rcases evaluate_cases missing with ⟨x, h', hb⟩ | ⟨-, h', hb⟩
  · rw [h', hb]
  · rw [h', hb, compute_congr h]

/-- **Computing is replacing the variables by their numbers.**  A division by zero has no number
either way, and neither has an angle with a missing variable. -/
theorem value?_substitute_constants (b : Bindings) (e : Angle) :
    (e.substitute b.constants).value? = (e.compute b).toOption := by
  induction e with
  | const v => rfl
  | pi => rfl
  | var name =>
    simp only [substitute, Bindings.constants, compute]
    cases b.get? name <;> rfl
  | neg e ih =>
    rw [substitute, value?, ih, compute]
    cases e.compute b <;> rfl
  | binary op left right ihl ihr =>
    rw [substitute, value?, ihl, ihr]
    cases op with
    | div =>
      simp only [compute]
      cases right.compute b with
      | error cause => cases left.compute b <;> rfl
      | ok y =>
        by_cases hy : (y == 0.0) = true <;> cases left.compute b <;>
          simp [Except.toOption, ArithOp.value?, hy]
    | add | sub | mul =>
      simp only [compute]
      cases left.compute b with
      | error cause => rfl
      | ok x => cases right.compute b <;> rfl

/-- **An evaluation is a replacement of the variables by their numbers.**  Where a variable is
missing, the least one is reported, whatever divisions there are.  Otherwise the number is the one
that is left when the variables are replaced, and a division by zero is reported when there is none.
Bindings of other names do not matter. -/
theorem evaluate_iff_value?_substitute (e : Angle) (b : Bindings) :
    (¬ e.Bound b → ∃ x, e.FirstMissing b x ∧ e.evaluate b = .error (.unbound x)) ∧
    (e.Bound b →
      (∀ v, e.evaluate b = .ok v ↔ (e.substitute b.constants).value? = some v) ∧
      ((∃ q, e.evaluate b = .error (.divisionByZero q)) ↔
        (e.substitute b.constants).value? = none)) ∧
    ∀ b' : Bindings, (∀ x ∈ e.occurrences, b'.get? x = b.get? x) →
      e.evaluate b' = e.evaluate b := by
  refine ⟨fun h => ?_, fun bound => ?_, fun b' h => evaluate_congr h⟩
  · obtain ⟨x, hx⟩ := exists_firstMissing h
    exact ⟨x, hx, evaluate_of_firstMissing hx⟩
  · rw [evaluate_of_bound bound, value?_substitute_constants]
    cases compute_of_bound bound with
    | number hv _ => simp [hv, Except.toOption]
    | divisionByZero hq _ => simp [hq, Except.toOption]

-- The variable that is missing comes first, although the division by zero could be computed.
example : (binary .add (binary .div (var "y") (const 0.0)) (var "x")).evaluate
    (.ofList [("y", 1.0)]) = .error (.unbound "x") := rfl

/-! ## Angles for variables -/

variable {s : String → Option Angle}

/-- Replacing variables is computed like the angle, with the variables standing for what replaces
them. -/
theorem agree_compute_substitute
    (h : ∀ x ∈ e.occurrences, Agree (((s x).getD (var x)).compute b) ((var x).compute b')) :
    Agree ((e.substitute s).compute b) (e.compute b') := by
  induction e with
  | const v => exact .refl _
  | pi => exact .refl _
  | var name => exact h name (List.mem_singleton_self name)
  | neg e ih => exact (ih h).map (- ·)
  | binary op left right ihl ihr =>
    rw [occurrences, List.forall_mem_append] at h
    exact agree_binary op (ihl h.1) (ihr h.2)

/-- **Replacing variables is binding them to the numbers of what replaces them.**  The variables of
a replacement all have values, or it would have no number; so the same ones are missing. -/
theorem agree_evaluate_substitute (replaced : ∀ x ∈ e.occurrences, ∀ a, s x = some a →
      ∃ v, a.evaluate b = .ok v ∧ b'.get? x = some v)
    (kept : ∀ x ∈ e.occurrences, s x = none → b'.get? x = b.get? x) :
    Agree ((e.substitute s).evaluate b) (e.evaluate b') := by
  have missing (x : String) : (e.substitute s).Missing b x ↔ e.Missing b' x := by
    rw [Missing, Missing, mem_occurrences_substitute]
    constructor
    · rintro ⟨⟨hx, hnone⟩ | ⟨y, hy, a, ha, hx⟩, hmissing⟩
      · exact ⟨hx, by rw [kept x hx hnone, hmissing]⟩
      · obtain ⟨v, hv, -⟩ := replaced y hy a ha
        exact absurd hmissing ((evaluate_eq_ok.1 hv).1 x hx)
    · rintro ⟨hx, hmissing⟩
      cases hs : s x with
      | none => exact ⟨.inl ⟨hx, rfl⟩, by rw [← kept x hx hs, hmissing]⟩
      | some a =>
        obtain ⟨v, -, hv⟩ := replaced x hx a hs
        rw [hmissing] at hv
        cases hv
  rcases evaluate_cases missing with ⟨x, h, h'⟩ | ⟨-, h, h'⟩
  · rw [h, h']
    exact .unbound x
  · rw [h, h']
    refine agree_compute_substitute fun x hx => ?_
    cases hs : s x with
    | none =>
      rw [Option.getD_none, compute, compute, kept x hx hs]
      exact .refl _
    | some a =>
      obtain ⟨v, hv, hb⟩ := replaced x hx a hs
      rw [Option.getD_some, (evaluate_eq_ok.1 hv).2, compute, hb]
      exact .number v

/-- Two replacements in one: what the first puts in is changed by the second, and a variable that
the first leaves is up to the second. -/
def composed (s t : String → Option Angle) : String → Option Angle := fun x =>
  match s x with
  | some a => some (a.substitute t)
  | none => t x

/-- Only what is put in for the variables that occur matters. -/
theorem substitute_congr {s t : String → Option Angle}
    (h : ∀ x ∈ e.occurrences, (s x).getD (var x) = (t x).getD (var x)) :
    e.substitute s = e.substitute t := by
  induction e with
  | const v => rfl
  | pi => rfl
  | var name => exact h name (List.mem_singleton_self name)
  | neg e ih => rw [substitute, substitute, ih h]
  | binary op left right ihl ihr =>
    rw [occurrences, List.forall_mem_append] at h
    rw [substitute, substitute, ihl h.1, ihr h.2]

theorem substitute_substitute (s t : String → Option Angle) (e : Angle) :
    (e.substitute s).substitute t = e.substitute (composed s t) := by
  induction e with
  | const v => rfl
  | pi => rfl
  | var name =>
    simp only [substitute, composed]
    cases s name <;> rfl
  | neg e ih => rw [substitute, substitute, substitute, ih]
  | binary op left right ihl ihr => rw [substitute, substitute, substitute, ihl, ihr]

/-- **Replacing variables, evaluated and repeated.**  Where each replacement of a variable has a
number, an angle with the variables replaced comes to what the angle does with these variables bound
to those numbers, in place of the values that they had.  And replacing variables twice is replacing
them once. -/
theorem evaluate_substitute (e : Angle) (s : String → Option Angle) :
    (∀ (b : Bindings) (v : String → Float),
      (∀ x ∈ e.occurrences, ∀ a, s x = some a → a.evaluate b = .ok (v x)) →
      Agree ((e.substitute s).evaluate b) (e.evaluate (b.insertMany
        ((e.freeVariables.filter fun x => (s x).isSome).map fun x => (x, v x))))) ∧
    ∀ t, (e.substitute s).substitute t = e.substitute (composed s t) := by
  refine ⟨fun b v h => ?_, fun t => substitute_substitute s t e⟩
  have mem (x : String) : x ∈ e.freeVariables.filter (fun x => (s x).isSome) ↔
      x ∈ e.occurrences ∧ (s x).isSome = true := by
    rw [List.mem_filter, freeVariables, mem_sortNames]
  refine agree_evaluate_substitute (fun x hx a ha => ⟨v x, h x hx a ha, ?_⟩) fun x hx hnone => ?_
  · rw [Bindings.get?_insertMany_map, if_pos]
    rw [mem, ha]
    exact ⟨hx, rfl⟩
  · rw [Bindings.get?_insertMany_map, if_neg]
    rw [mem, hnone]
    simp

/-- Two variables that replace each other, and one of them in a divisor. -/
def swapped : String → Option Angle
  | "x" => some (binary .add (var "y") (const 1.0))
  | "y" => some (var "x")
  | _ => none

theorem evaluate_substitute_swapped :
    (∀ x ∈ (binary .div (var "x") (var "y")).occurrences, ∀ a, swapped x = some a →
      a.evaluate (.ofList [("x", 2.0), ("y", 5.0)]) = .ok (if x = "x" then 6.0 else 2.0)) ∧
    Agree ((binary .div (binary .add (var "y") (const 1.0)) (var "x")).evaluate
        (.ofList [("x", 2.0), ("y", 5.0)]))
      ((binary .div (var "x") (var "y")).evaluate (.ofList [("x", 6.0), ("y", 2.0)])) := by
  have h : ∀ x ∈ (binary .div (var "x") (var "y")).occurrences, ∀ a, swapped x = some a →
      a.evaluate (.ofList [("x", 2.0), ("y", 5.0)]) = .ok (if x = "x" then 6.0 else 2.0) := by
    intro x hx a ha
    simp only [occurrences, List.mem_append, List.mem_singleton] at hx
    rcases hx with rfl | rfl <;> cases ha <;> rfl
  exact ⟨h, (evaluate_substitute _ swapped).1 _ _ h⟩

end Angle

end FlatQasm
