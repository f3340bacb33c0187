import FlatQasm.Proofs.Grammar.Stratified

/-!
# The text of an angle is read as the angle

An angle is written with parentheses around every operation, so reading its text gives the same
tree.  The sign of a number is the exception: it is a token of its own, and the parser makes a
negation of it.  Folding puts the sign back, so that both trees fold to the same angle.

How high an angle may be follows from the levels that are open in its text.  A negation is a minus
sign and a parenthesis, and so opens two; a number with a sign opens one; nothing else opens more
than its height.  An angle of half the height that the parser allows is therefore always read, and
the bound is met by negations around a number with a sign.

## Main definitions

* `Angle.signsApart` — the tree that the text of an angle stands for.

## Main statements

* `Angle.simplify_signsApart` — folding puts the signs back.
* `Grammar.exists_derives_tokens` — the tokens of an angle derive it, signs apart.
* `Grammar.angle_of_text` — the text of an angle is read to its end as the angle, signs apart.
-/

namespace FlatQasm

namespace Angle

/-- The tree that the text of an angle stands for: each number with a sign is a negation. -/
def signsApart : Angle → Angle
  | const v => if Decimal.isNegative v then neg (const (-v)) else const v
  | var name => var name
  | pi => pi
  | neg e => neg e.signsApart
  | binary op a b => binary op a.signsApart b.signsApart

variable {e : Angle}

/-- A number with a sign is the negation of its magnitude. -/
theorem neg_eq_of_isNegative {v : Float} (hv : v.isFinite) (hnegative : Decimal.isNegative v) :
    -v = Decimal.ofSignAndBits false (Decimal.magnitudeBits v) ∧
      -Decimal.ofSignAndBits false (Decimal.magnitudeBits v) = v := by
  have hlt := Decimal.magnitudeBits_lt hv
  have hsigned := Decimal.ofSignAndBits_magnitudeBits hv
  rw [hnegative] at hsigned
  have hback := Decimal.neg_ofSignAndBits false hlt
  have hforth := Decimal.neg_ofSignAndBits true hlt
  rw [hsigned] at hforth
  exact ⟨hforth, hback.trans hsigned⟩

/-- Folding puts the signs back. -/
theorem simplify_signsApart (h : e.Spelled) : e.signsApart.simplify = e.simplify := by
  induction e with
  | const v =>
    rw [signsApart]
    split
    · next hnegative =>
      obtain ⟨hforth, hback⟩ := neg_eq_of_isNegative h hnegative
      rw [simplify_neg, simplify_const, simplify_const, fold, hforth, hback]
    · rfl
  | var name => rfl
  | pi => rfl
  | neg e ih => rw [signsApart, simplify_neg, simplify_neg, ih h]
  | binary op a b iha ihb => rw [signsApart, simplify_binary, simplify_binary, iha h.1, ihb h.2]

theorem value?_signsApart (h : e.Spelled) : e.signsApart.value? = e.value? :=
  Option.ext fun v => by rw [value?_eq_some_iff, value?_eq_some_iff, simplify_signsApart h]

/-- Only a number with a sign is higher than it was. -/
theorem depth_signsApart_le (e : Angle) : e.signsApart.depth ≤ e.depth + 1 := by
  induction e with
  | const v =>
    rw [signsApart]
    split
    · exact Nat.le_refl 2
    · exact Nat.le_succ 1
  | var name => exact Nat.le_succ 1
  | pi => exact Nat.le_succ 1
  | neg e ih => exact Nat.succ_le_succ ih
  | binary op a b iha ihb =>
    simp only [signsApart, depth]
    omega

/-- The divisions are those of the angle, and the divisors can be written like the angle. -/
theorem exists_of_mem_quotients_signsApart {x y : Angle} (spelled : e.Spelled)
    (h : (x, y) ∈ e.signsApart.quotients) :
    ∃ a b, (a, b) ∈ e.quotients ∧ b.Spelled ∧ y = b.signsApart := by
  induction e with
  | const v =>
    rw [signsApart] at h
    split at h <;> cases h
  | var name => cases h
  | pi => cases h
  | neg e ih => exact ih spelled h
  | binary op a b iha ihb =>
    rcases mem_quotients_binary.1 h with ⟨hop, rfl, rfl⟩ | h | h
    · exact ⟨a, b, mem_quotients_binary.2 (.inl ⟨hop, rfl, rfl⟩), spelled.2, rfl⟩
    · obtain ⟨a', b', hmem, hb'⟩ := iha spelled.1 h
      exact ⟨a', b', mem_quotients_binary.2 (.inr (.inl hmem)), hb'⟩
    · obtain ⟨a', b', hmem, hb'⟩ := ihb spelled.2 h
      exact ⟨a', b', mem_quotients_binary.2 (.inr (.inr hmem)), hb'⟩

/-- The tree that the text stands for is not refused, if the angle has half the height that may be
read and divides by no zero. -/
theorem admissible_signsApart (spelled : e.Spelled) (hdepth : e.depth ≤ printableDepth)
    (divisors : ∀ x y, (x, y) ∈ e.quotients → ∀ v, y.value? = some v → (v == 0.0) = false) :
    e.signsApart.Admissible where
  depth_le := by
    have hlimit : nestingLimit = 2 * printableDepth := rfl
    have hpos : 0 < printableDepth := by decide
    have hheight := e.depth_signsApart_le
    omega
  divisors := by
    intro x y hmem v hv
    obtain ⟨a, b, hab, hb, rfl⟩ := exists_of_mem_quotients_signsApart spelled hmem
    rw [value?_signsApart hb] at hv
    exact divisors a b hab v hv

end Angle

namespace Grammar

/-- **The tokens of an angle derive it, signs apart**, and fewer levels are open in them than twice
its height. -/
theorem exists_derives_tokens {e : Angle} (h : e.Spelled) :
    ∃ opened, opened < 2 * e.depth ∧ Derives .unary e.tokens e.signsApart opened := by
  induction e with
  | const v =>
    simp only [Angle.tokens, numberTokens, Angle.signsApart]
    split
    · next hnegative =>
      rw [(Angle.neg_eq_of_isNegative h hnegative).1]
      exact ⟨1, by simp [Angle.depth], .minus (.unary .float)⟩
    · next hnegative =>
      have hsigned := Decimal.ofSignAndBits_magnitudeBits h
      rw [Bool.eq_false_iff.2 hnegative] at hsigned
      rw [hsigned]
      exact ⟨0, by simp [Angle.depth], .unary .float⟩
  | var name => exact ⟨0, by simp [Angle.depth], .unary .ident⟩
  | pi => exact ⟨0, by decide, .unary .pi⟩
  | neg e ih =>
    obtain ⟨opened, hopened, hderives⟩ := ih h
    refine ⟨opened + 2, ?_, .minus (.unary (.parentheses (.expr (.term hderives))))⟩
    simp only [Angle.depth]
    omega
  | binary op a b iha ihb =>
    obtain ⟨m, hm, hleft⟩ := iha h.1
    obtain ⟨n, hn, hright⟩ := ihb h.2
    -- Both operands are of the tightest category that an operation can have around it.
    have hleft : Derives (.ofPrecedence 3) _ _ _ := hleft
    have hright : Derives (.ofPrecedence 3) _ _ _ := hright
    have hinside := Derives.operation op (.loosen (by cases op <;> decide) hleft)
      (.loosen (by cases op <;> decide) hright)
    have hexpr : Derives (.ofPrecedence 0) _ _ _ := .loosen (Nat.zero_le _) hinside
    have hderives : Derives .unary _ _ _ := .unary (.parentheses hexpr)
    refine ⟨max m n + 1, ?_, ?_⟩
    · simp only [Angle.depth]
      omega
    · simpa [Angle.tokens, Angle.signsApart] using hderives

/-- **The text of an angle is read to its end, as the angle with each sign apart**, if its numbers
are finite, its names can be read, its height is at most half of what the parser allows, and no
divisor has the number zero.  What is read folds to what the angle folds to. -/
theorem angle_of_text {e : Angle} (spelled : e.Spelled) (hdepth : e.depth ≤ printableDepth)
    (divisors : ∀ x y, (x, y) ∈ e.quotients → ∀ v, y.value? = some v → (v == 0.0) = false) :
    ∃ ts, tokens e.text = .ok ts ∧ angle ts = .ok (e.signsApart, []) ∧
      e.signsApart.simplify = e.simplify := by
  have hlexes := Angle.spells spelled [] [] (by simp [Apart]) .nil
  rw [List.append_nil, List.append_nil] at hlexes
  obtain ⟨ts, hts, htokens⟩ := hlexes.exists_tokens
  obtain ⟨opened, hopened, hderives⟩ := exists_derives_tokens spelled
  have hlimit : nestingLimit = 2 * printableDepth := rfl
  have hread : angle (ts ++ []) = .ok (e.signsApart, []) := by
    rw [← htokens] at hderives
    exact angle_of_derives (.expr (.term hderives)) (by omega)
      (Angle.admissible_signsApart spelled hdepth divisors) (by simp)
  rw [List.append_nil] at hread
  exact ⟨ts, hts, hread, Angle.simplify_signsApart spelled⟩

/-- Negations up to the greatest height, around a quotient of two numbers with a sign. -/
def deeplyNegated : Angle :=
  Angle.neg^[126] (.binary .div (.const (-0.5)) (.const (-3e-7)))

theorem angle_of_text_deeplyNegated :
    deeplyNegated.depth = printableDepth ∧
      ∃ ts, tokens deeplyNegated.text = .ok ts ∧
        angle ts = .ok (Angle.neg^[126] (.binary .div (.neg (.const 0.5)) (.neg (.const 3e-7))),
          []) ∧
        deeplyNegated.signsApart.simplify = deeplyNegated.simplify := by
  have hquotients : deeplyNegated.quotients = [(.const (-0.5), .const (-3e-7))] := rfl
  have hread := angle_of_text (e := deeplyNegated) (by decide +kernel) (by decide +kernel) (by
    intro x y hmem v hv
    rw [hquotients, List.mem_singleton] at hmem
    cases hmem
    cases hv
    decide +kernel)
  have hsigns : deeplyNegated.signsApart =
      Angle.neg^[126] (.binary .div (.neg (.const 0.5)) (.neg (.const 3e-7))) := by
    have hinside : (Angle.binary .div (.const (-0.5)) (.const (-3e-7))).signsApart =
        .binary .div (.neg (.const 0.5)) (.neg (.const 3e-7)) := rfl
    have hcommute : Function.Commute Angle.signsApart Angle.neg := fun _ => rfl
    rw [← hinside]
    exact hcommute.iterate_right 126 _
  rw [← hsigns]
  exact ⟨by decide +kernel, hread⟩

end Grammar

end FlatQasm
