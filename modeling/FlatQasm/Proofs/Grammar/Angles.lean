import FlatQasm.Grammar.Angle
import FlatQasm.Proofs.Angle.Quotients
import FlatQasm.Proofs.Grammar.Ensures

/-!
# What the parser checks of angles

The parser keeps every tree with its height, and joins two trees only when the height stays within
the limit and a divisor has no value of zero.  The trees that come out are then folded.  Folding
makes no tree higher, and a divisor folds to a number only if that is its value; so the folded angle
is as low, and none of its divisors is a zero.

## Main definitions

* `Grammar.Subtree.Sound` — the height is right and within the limit, and no divisor folds to zero.
* `Angle.Checked` — what the parser ensures of an angle of a program.

## Main statements

* `Grammar.ensures_climb` — reading by precedence gives sound subtrees.
* `Grammar.ensures_arguments` — the arguments of a gate are checked.
* `Grammar.not_foldsToZero_of_angle` — the parser reads no division whose divisor folds to zero.
-/

namespace FlatQasm

/-- What the parser ensures of an angle: it is folded, low enough, and divides by no zero. -/
structure Angle.Checked (e : Angle) : Prop where
  folded : e.simplify = e
  depth_le : e.depth ≤ nestingLimit
  divisors : e.NoZeroDivisor

/-- No divisor of a checked angle folds to zero. -/
theorem Angle.Checked.not_foldsToZero {e x y : Angle} (h : e.Checked)
    (hmem : (x, y) ∈ e.quotients) : ¬ y.FoldsToZero :=
  h.divisors.not_foldsToZero h.folded hmem

namespace Grammar

open FlatQasm.Grammar.Parser (Ensures)

/-! ## Subtrees -/

/-- A subtree whose height is right and within the limit, and in which no divisor folds to zero. -/
structure Subtree.Sound (s : Subtree) : Prop where
  height_eq : s.height = s.angle.depth
  height_le : s.height ≤ nestingLimit
  divisors : s.angle.simplify.NoZeroDivisor

theorem Subtree.Sound.leaf {e : Angle} (hdepth : e.depth = 1)
    (hdivisors : e.simplify.NoZeroDivisor) : Sound ⟨e, 1⟩ :=
  ⟨hdepth.symm, (by decide : 1 ≤ nestingLimit), hdivisors⟩

/-- A divisor that passes the check does not fold to zero. -/
theorem ne_zero_of_isZero {e : Angle} (h : isZero e = false) {v : Float}
    (hv : e.simplify = .const v) : (v == 0.0) = false := by
  rw [← Angle.value?_eq_some_iff] at hv
  rwa [isZero, hv] at h

theorem Subtree.Sound.join {op : ArithOp} {p : Position} {left right s : Subtree}
    (hleft : left.Sound) (hright : right.Sound) (h : join op p left right = .ok s) : s.Sound := by
  simp only [Grammar.join] at h
  split at h
  · cases h
  · next hzero =>
    split at h
    · cases h
    · next hheight =>
      cases h
      refine ⟨?_, Nat.le_of_not_lt hheight, ?_⟩
      · rw [hleft.height_eq, hright.height_eq, Angle.depth]
      · refine Angle.NoZeroDivisor.fold ⟨hleft.divisors, hright.divisors, ?_⟩
        rintro rfl v hv
        exact ne_zero_of_isZero (by simpa using hzero) hv

theorem Subtree.Sound.negate {p : Position} {operand s : Subtree} (hoperand : operand.Sound)
    (h : negate p operand = .ok s) : s.Sound := by
  simp only [Grammar.negate] at h
  split at h
  · cases h
  · next hheight =>
    cases h
    refine ⟨?_, Nat.le_of_not_lt hheight, ?_⟩
    · rw [hoperand.height_eq, Angle.depth]
    · exact Angle.NoZeroDivisor.fold (e := .neg _) hoperand.divisors

/-! ## Reading by precedence -/

section Reading

variable {climb : (minimum nesting : Nat) → List Located → SubtreeResult}
  (hclimb : ∀ minimum nesting, Ensures (climb minimum nesting) Subtree.Sound)
include hclimb

theorem ensures_primary (nesting : Nat) : Ensures (primary climb nesting) Subtree.Sound := by
  intro ts s rest h
  simp only [primary] at h
  split at h
  · cases h
    exact .leaf rfl .intro
  · cases h
    exact .leaf rfl .intro
  · cases h
    exact .leaf rfl .intro
  · cases h
    exact .leaf rfl .intro
  · obtain ⟨⟨inner, behind⟩, hinner, h⟩ := bind_eq_ok.1 h
    obtain ⟨_, -, h⟩ := bind_eq_ok.1 h
    cases h
    simp only [nested] at hinner
    split at hinner
    · cases hinner
    · exact hclimb _ _ _ _ _ hinner
  · cases h

theorem ensures_unary (nesting : Nat) : Ensures (unary climb nesting) Subtree.Sound := by
  intro ts s rest h
  simp only [unary] at h
  split at h
  · split at h
    · cases h
    · obtain ⟨⟨operand, behind⟩, hoperand, h⟩ := bind_eq_ok.1 h
      obtain ⟨e, hnegate, h⟩ := bind_eq_ok.1 h
      cases h
      exact (hclimb _ _ _ _ _ hoperand).negate hnegate
  · exact ensures_primary hclimb nesting _ _ _ h

end Reading

/-- Both loops of the climbing give sound subtrees; the induction is on the bound. -/
theorem ensures_climb_extend (bound : List Located) :
    (∀ minimum nesting, Ensures (climb bound minimum nesting) Subtree.Sound) ∧
      ∀ minimum nesting left, left.Sound →
        Ensures (extend bound minimum nesting left) Subtree.Sound := by
  induction bound with
  | nil =>
    constructor
    · intro minimum nesting ts s rest h
      cases h
    · intro minimum nesting left hleft ts s rest h
      cases h
      exact hleft
  | cons b bound ih =>
    obtain ⟨hclimb, hextend⟩ := ih
    constructor
    · intro minimum nesting ts s rest h
      obtain ⟨⟨left, behind⟩, hleft, h⟩ := bind_eq_ok.1 h
      exact hextend _ _ left (ensures_unary hclimb nesting _ _ _ hleft) _ _ _ h
    · intro minimum nesting left hleft ts s rest h
      simp only [extend] at h
      split at h
      · split at h
        · split at h
          · cases h
            exact hleft
          · obtain ⟨⟨right, behind⟩, hright, h⟩ := bind_eq_ok.1 h
            obtain ⟨e, hjoin, h⟩ := bind_eq_ok.1 h
            exact hextend _ _ e (hleft.join (hclimb _ _ _ _ _ hright) hjoin) _ _ _ h
        · cases h
          exact hleft
      · cases h
        exact hleft

/-- Reading by precedence gives sound subtrees. -/
theorem ensures_climb (bound : List Located) (minimum nesting : Nat) :
    Ensures (climb bound minimum nesting) Subtree.Sound :=
  (ensures_climb_extend bound).1 minimum nesting

/-! ## Arguments -/

/-- A whole angle is checked once it is folded. -/
theorem ensures_angle : Ensures angle fun e => e.simplify.Checked := by
  intro ts e rest h
  obtain ⟨⟨s, behind⟩, hs, h⟩ := bind_eq_ok.1 h
  cases h
  have sound := ensures_climb ts 0 1 _ _ _ hs
  have height : s.angle.depth ≤ nestingLimit := by
    rw [← sound.height_eq]
    exact sound.height_le
  exact ⟨Angle.simplify_simplify _, Nat.le_trans (Angle.depth_simplify_le _) height, sound.divisors⟩

/-- No division in an angle that is read has a divisor that folds to zero. -/
theorem not_foldsToZero_of_angle {ts rest : List Located} {e : Angle}
    (h : angle ts = .ok (e, rest)) : ∀ x y, (x, y) ∈ e.quotients → ¬ y.FoldsToZero := by
  intro x y hmem hzero
  have checked := ensures_angle ts e rest h
  exact checked.not_foldsToZero (Angle.mem_quotients_simplify hmem hzero)
    (Angle.foldsToZero_simplify.2 hzero)

theorem ensures_arguments : Ensures arguments fun es => ∀ e ∈ es, e.Checked := by
  refine .next fun ts => ?_
  dsimp only
  split
  · exact .bind (.pure (List.forall_mem_nil _)) fun args h => .pure (List.forall_mem_map.2 h)
  · refine (ensures_commaSeparated ensures_angle).bind fun args hargs => .pure ?_
    exact List.forall_mem_map.2 hargs.2

end Grammar

end FlatQasm
