import FlatQasm.Angle.Basic

/-!
# Folding and replacing variables

Folding goes from the leaves up, so what an angle folds to is settled by what its parts fold to.
Two facts follow.  A folded angle is folded already, and an angle with its variables replaced folds
to the same whether the replacements were folded before or not.

An angle folds to a number exactly when it has one, and folding makes no angle higher.  So a check
on the value of a divisor is a check on what the divisor folds to.

## Main definitions

* `Angle.NoZeroDivisor` — no divisor in an angle is a zero.

## Main statements

* `Angle.simplify_simplify` — folding twice is folding once.
* `Angle.value?_eq_some_iff` — an angle with a number folds to it.
* `Angle.depth_simplify_le` — folding makes no angle higher.
* `Angle.simplify_substitute_congr` — only what the replacements fold to matters.
* `Angle.simplify_substitute_nested` — folding between two replacements changes nothing.
* `Angle.mem_occurrences_substitute` — which variables are left.
-/

namespace FlatQasm.Angle

@[simp] theorem simplify_const (v : Float) : (const v).simplify = const v := rfl

@[simp] theorem simplify_var (name : String) : (var name).simplify = var name := rfl

@[simp] theorem simplify_pi : pi.simplify = const piValue := rfl

@[simp] theorem simplify_neg (e : Angle) : (neg e).simplify = (neg e.simplify).fold := rfl

@[simp] theorem simplify_binary (op : ArithOp) (a b : Angle) :
    (binary op a b).simplify = (binary op a.simplify b.simplify).fold := rfl

/-- A step of folding gives a number, or changes nothing. -/
theorem fold_eq (e : Angle) : (∃ v, e.fold = const v) ∨ e.fold = e := by
  simp only [fold]
  split
  · exact .inl ⟨_, rfl⟩
  · exact .inl ⟨_, rfl⟩
  · split
    · exact .inl ⟨_, rfl⟩
    · exact .inr rfl
  · exact .inr rfl

/-- Folding twice is folding once. -/
@[simp] theorem simplify_simplify (e : Angle) : e.simplify.simplify = e.simplify := by
  induction e with
  | const v => rfl
  | var name => rfl
  | pi => rfl
  | neg e ih =>
    rw [simplify_neg]
    rcases fold_eq (neg e.simplify) with ⟨v, h⟩ | h
    · rw [h, simplify_const]
    · rw [h, simplify_neg, ih, h]
  | binary op a b iha ihb =>
    rw [simplify_binary]
    rcases fold_eq (binary op a.simplify b.simplify) with ⟨v, h⟩ | h
    · rw [h, simplify_const]
    · rw [h, simplify_binary, iha, ihb, h]

/-- The operand of a folded negation is folded. -/
theorem simplify_of_neg {e : Angle} (h : (neg e).simplify = neg e) : e.simplify = e := by
  rw [simplify_neg] at h
  rcases fold_eq (neg e.simplify) with ⟨v, hv⟩ | hself
  · rw [hv] at h
    cases h
  · rw [hself] at h
    exact neg.inj h

/-- The operands of a folded operation are folded. -/
theorem simplify_of_binary {op : ArithOp} {a b : Angle}
    (h : (binary op a b).simplify = binary op a b) : a.simplify = a ∧ b.simplify = b := by
  rw [simplify_binary] at h
  rcases fold_eq (binary op a.simplify b.simplify) with ⟨v, hv⟩ | hself
  · rw [hv] at h
    cases h
  · rw [hself] at h
    exact (binary.inj h).2

/-! ## Numbers and heights -/

theorem fold_neg_of_ne {e : Angle} (h : ∀ v, e ≠ const v) : (neg e).fold = neg e := by
  cases e with
  | const v => exact absurd rfl (h v)
  | _ => rfl

theorem fold_binary_of_ne {op : ArithOp} {a b : Angle}
    (h : (∀ v, a ≠ const v) ∨ ∀ v, b ≠ const v) : (binary op a b).fold = binary op a b := by
  cases a with
  | const x =>
    cases b with
    | const y => exact (h.elim (fun ha => ha x rfl) fun hb => hb y rfl).elim
    | _ => rfl
  | _ => rfl

/-- Folding an operation changes nothing unless both operands are numbers. -/
theorem consts_or_fold_eq_self (op : ArithOp) (a b : Angle) :
    (∃ x y, a = const x ∧ b = const y) ∨ (binary op a b).fold = binary op a b := by
  cases a with
  | const x =>
    cases b with
    | const y => exact .inl ⟨x, y, rfl, rfl⟩
    | _ => exact .inr rfl
  | _ => exact .inr rfl

/-- An angle with a number folds to it, and no other angle folds to a number. -/
theorem value?_eq_some_iff {e : Angle} {v : Float} : e.value? = some v ↔ e.simplify = const v := by
  induction e generalizing v with
  | const x => simp [value?]
  | var name => simp [value?]
  | pi => simp [value?]
  | neg e ih =>
    rw [value?, Option.map_eq_some_iff, simplify_neg]
    simp only [ih]
    constructor
    · rintro ⟨x, hx, rfl⟩
      rw [hx]
      rfl
    · intro h
      by_cases hconst : ∃ x, e.simplify = const x
      · obtain ⟨x, hx⟩ := hconst
        rw [hx] at h
        cases h
        exact ⟨x, hx, rfl⟩
      · rw [fold_neg_of_ne fun x hx => hconst ⟨x, hx⟩] at h
        cases h
  | binary op a b iha ihb =>
    have hvalue : (binary op a b).value? = some v ↔
        ∃ x y, a.simplify = const x ∧ b.simplify = const y ∧ op.value? x y = some v := by
      simp only [← iha, ← ihb, value?]
      cases a.value? <;> cases b.value? <;> simp
    rw [hvalue, simplify_binary]
    constructor
    · rintro ⟨x, y, hx, hy, hop⟩
      rw [hx, hy, fold, hop]
    · intro h
      rcases consts_or_fold_eq_self op a.simplify b.simplify with ⟨x, y, hx, hy⟩ | hself
      · rw [hx, hy, fold] at h
        split at h
        · next w hop =>
          cases h
          exact ⟨x, y, hx, hy, hop⟩
        · cases h
      · rw [hself] at h
        cases h

theorem depth_pos (e : Angle) : 0 < e.depth := by
  cases e <;> simp [depth]

/-- Folding makes no angle higher. -/
theorem depth_simplify_le (e : Angle) : e.simplify.depth ≤ e.depth := by
  have fold_le (e : Angle) : e.fold.depth ≤ e.depth := by
    rcases fold_eq e with ⟨v, h⟩ | h
    · rw [h]
      exact e.depth_pos
    · exact Nat.le_of_eq (congrArg depth h)
  induction e with
  | const v => exact fold_le _
  | var name => exact fold_le _
  | pi => exact fold_le _
  | neg e ih => exact Nat.le_trans (fold_le _) (Nat.succ_le_succ ih)
  | binary op a b iha ihb =>
    refine Nat.le_trans (fold_le _) ?_
    simp only [depth]
    omega

/-! ## Divisors -/

/-- No divisor is a zero, of either sign. -/
def NoZeroDivisor : Angle → Prop
  | const _ | var _ | pi => True
  | neg e => e.NoZeroDivisor
  | binary op a b =>
    a.NoZeroDivisor ∧ b.NoZeroDivisor ∧ (op = .div → ∀ v, b = const v → (v == 0.0) = false)

theorem NoZeroDivisor.fold {e : Angle} (h : e.NoZeroDivisor) : e.fold.NoZeroDivisor := by
  rcases fold_eq e with ⟨v, hv⟩ | hself
  · rw [hv]
    exact .intro
  · rwa [hself]

/-! ## Replacing variables -/

/-- What an angle folds to when its variables are replaced depends only on what the replacements
fold to. -/
theorem simplify_substitute_congr {s t : String → Option Angle}
    (h : ∀ x, ((s x).getD (var x)).simplify = ((t x).getD (var x)).simplify) (e : Angle) :
    (e.substitute s).simplify = (e.substitute t).simplify := by
  induction e with
  | const v => rfl
  | var name => exact h name
  | pi => rfl
  | neg e ih => simp only [substitute, simplify_neg, ih]
  | binary op a b iha ihb => simp only [substitute, simplify_binary, iha, ihb]

/-- Folding the replacements first changes nothing. -/
theorem simplify_substitute_map_simplify (s : String → Option Angle) (e : Angle) :
    (e.substitute fun x => (s x).map simplify).simplify = (e.substitute s).simplify := by
  apply simplify_substitute_congr
  intro x
  cases s x <;> simp

/-- Replacing variables twice and folding at both levels is replacing them at once and folding
once.  A variable that the inner replacement leaves is not seen by the outer one. -/
theorem simplify_substitute_nested (inner outer : String → Option Angle) (e : Angle) :
    (e.substitute fun x => (inner x).map fun a => (a.substitute outer).simplify).simplify =
      (e.substitute fun x => (inner x).map fun a => a.substitute outer).simplify := by
  rw [← simplify_substitute_map_simplify fun x => (inner x).map fun a => a.substitute outer]
  simp only [Option.map_map, Function.comp_def]

/-- The variables left when variables are replaced: those of the replacements, and those that
nothing replaces.  None of them is replaced in turn. -/
theorem mem_occurrences_substitute {replacement : String → Option Angle} {e : Angle} {x : String} :
    x ∈ (e.substitute replacement).occurrences ↔
      x ∈ e.occurrences ∧ replacement x = none ∨
        ∃ y ∈ e.occurrences, ∃ a, replacement y = some a ∧ x ∈ a.occurrences := by
  induction e with
  | const v => simp [substitute, occurrences]
  | var name =>
    cases hname : replacement name with
    | none =>
      simp only [substitute, hname, Option.getD_none, occurrences, List.mem_singleton]
      grind
    | some a =>
      simp only [substitute, hname, Option.getD_some, occurrences, List.mem_singleton]
      grind
  | pi => simp [substitute, occurrences]
  | neg e ih => exact ih
  | binary op a b iha ihb =>
    simp only [substitute, occurrences, List.mem_append, iha, ihb]
    grind

end FlatQasm.Angle
