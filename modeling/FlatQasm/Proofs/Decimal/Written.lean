import FlatQasm.Decimal.Layout
import FlatQasm.Decimal.Numeral
import FlatQasm.Proofs.Decimal.Nearest

/-!
# Written floats are read back

Every layout writes a decimal as a numeral: digits, with or without a point and digits behind it,
and with or without an exponent.  Where the point stands and whether there is an exponent differs,
the decimal that is meant does not, up to zeros at its end.

## Main definitions

* `IsDigits` — decimal digits, at least one.
* `Numeral` — a numeral in its parts.

## Main statements

* `numeral?_text` — the decimal that a numeral stands for.
* `exists_numeral_unsigned` — what a layout writes is a numeral of the decimal.
* `read_unsigned` — what a layout writes is read as the magnitude nearest to the decimal.
-/

namespace FlatQasm

/-! ## Digits -/

/-- Decimal digits, at least one. -/
structure IsDigits (digits : List Char) : Prop where
  ne_nil : digits ≠ []
  isDigit : ∀ c ∈ digits, c.isDigit = true

theorem IsDigits.exists_eq_cons {digits : List Char} (h : IsDigits digits) :
    ∃ c rest, digits = c :: rest ∧ c.isDigit = true := by
  obtain ⟨c, rest, rfl⟩ := List.exists_cons_of_ne_nil h.ne_nil
  exact ⟨c, rest, rfl, h.isDigit c List.mem_cons_self⟩

namespace Decimal

theorem digitsValue_toDigits (n : ℕ) : digitsValue (Nat.toDigits 10 n) = n :=
  Nat.ofDigitChars_toDigits (by decide) (by decide)

theorem digitsValue_append_replicate (digits : List Char) (k : ℕ) :
    digitsValue (digits ++ List.replicate k '0') = digitsValue digits * 10 ^ k := by
  have h := Nat.ofDigitChars_append (b := 10) (l := digits) (m := List.replicate k '0') 0
  rw [Nat.ofDigitChars_replicate_zero, Nat.mul_comm] at h
  exact h

theorem digitsValue_replicate_append (k : ℕ) (digits : List Char) :
    digitsValue (List.replicate k '0' ++ digits) = digitsValue digits := by
  have h := Nat.ofDigitChars_append (b := 10) (l := List.replicate k '0') (m := digits) 0
  rw [Nat.ofDigitChars_replicate_zero, Nat.mul_zero] at h
  exact h

theorem isDigit_of_mem_toDigits {n : ℕ} {c : Char} (h : c ∈ Nat.toDigits 10 n) :
    c.isDigit = true :=
  Nat.isDigit_of_mem_toDigits (by decide) (by decide) h

/-- Digits at the front of a text end where no digit follows. -/
theorem takeWhile_isDigit_append {digits rest : List Char} (h : ∀ c ∈ digits, c.isDigit = true)
    (stop : ∀ c ∈ rest.head?, c.isDigit = false) :
    (digits ++ rest).takeWhile Char.isDigit = digits ∧
      (digits ++ rest).dropWhile Char.isDigit = rest := by
  rw [List.takeWhile_append_of_pos h, List.dropWhile_append_of_pos h]
  cases rest with
  | nil => simp
  | cons c rest =>
    have hc : c.isDigit = false := stop c rfl
    simp [hc]

/-! ## Numerals -/

/-- A numeral in its parts.  There is a digit, and digits are all there is in front of the point and
behind it. -/
structure Numeral where
  whole : List Char
  /-- The digits behind the point, if there is a point. -/
  fraction : Option (List Char)
  /-- The exponent, if there is one. -/
  exponent : Option ℤ
  /-- Whether an exponent that is not negative has a plus sign. -/
  plusSign : Bool
  whole_ne_nil : whole ≠ []
  whole_isDigit : ∀ c ∈ whole, c.isDigit = true
  fraction_isDigit : ∀ c ∈ fraction.getD [], c.isDigit = true

namespace Numeral

/-- The sign of an exponent. -/
def signText (plusSign : Bool) (k : ℤ) : List Char :=
  if k < 0 then ['-'] else if plusSign then ['+'] else []

/-- The exponent as it is written. -/
def exponentText (n : Numeral) : List Char :=
  match n.exponent with
  | none => []
  | some k => 'e' :: (signText n.plusSign k ++ Nat.toDigits 10 k.natAbs)

/-- The point with the digits behind it as they are written. -/
def fractionText (n : Numeral) : List Char :=
  match n.fraction with
  | none => []
  | some digits => '.' :: digits

/-- The numeral as it is written. -/
def text (n : Numeral) : List Char := n.whole ++ (n.fractionText ++ n.exponentText)

/-- The decimal that is meant. -/
def decimal (n : Numeral) : Scientific where
  digits := digitsValue (n.whole ++ n.fraction.getD [])
  exponent := n.exponent.getD 0 - (n.fraction.getD []).length

/-- An exponent with or without its sign is read back. -/
theorem exponent?_signText (plusSign : Bool) (k : ℤ) :
    exponent? (signText plusSign k ++ Nat.toDigits 10 k.natAbs) = some k := by
  have hdigits : ∀ c ∈ Nat.toDigits 10 k.natAbs, c.isDigit = true :=
    fun c hc => isDigit_of_mem_toDigits hc
  have hvalue : (digitsValue (Nat.toDigits 10 k.natAbs) : ℤ) = k.natAbs := by
    rw [digitsValue_toDigits]
  have hne : Nat.toDigits 10 k.natAbs ≠ [] := Nat.toDigits_ne_nil
  generalize Nat.toDigits 10 k.natAbs = digits at *
  have hcheck : (digits.isEmpty || !digits.all Char.isDigit) = false := by
    simpa [hne] using hdigits
  simp only [signText]
  split
  · next hneg =>
    have hk : -(digitsValue digits : ℤ) = k := by omega
    simp only [List.singleton_append, exponent?, hcheck, Bool.false_eq_true, if_false, if_true, hk]
  · next hneg =>
    have hk : (digitsValue digits : ℤ) = k := by omega
    cases plusSign with
    | true =>
      simp only [if_true, List.singleton_append, exponent?, hcheck, Bool.false_eq_true, if_false,
        hk]
    | false =>
      -- Without a sign, the first digit is neither of the two.
      obtain ⟨c, rest, rfl⟩ := List.exists_cons_of_ne_nil hne
      have hc : c.isDigit = true := hdigits c List.mem_cons_self
      have hminus : c ≠ '-' := by
        rintro rfl
        cases hc
      have hplus : c ≠ '+' := by
        rintro rfl
        cases hc
      simp only [Bool.false_eq_true, if_false, List.nil_append]
      unfold exponent?
      split
      next negative digits heq =>
        split at heq
        · next h => exact absurd (List.cons.inj h).1 hminus
        · next h => exact absurd (List.cons.inj h).1 hplus
        · cases heq
          simp only [hcheck, Bool.false_eq_true, if_false, hk]

/-- Behind the digits in front of the point there is no further digit. -/
theorem stop_whole (n : Numeral) :
    ∀ c ∈ (n.fractionText ++ n.exponentText).head?, c.isDigit = false := by
  simp only [fractionText, exponentText]
  cases n.fraction with
  | some digits => simp
  | none => cases n.exponent <;> simp

theorem stop_fraction (n : Numeral) : ∀ c ∈ n.exponentText.head?, c.isDigit = false := by
  simp only [exponentText]
  cases n.exponent <;> simp

/-- **A numeral is read as the decimal that is meant.** -/
theorem numeral?_text (n : Numeral) : numeral? n.text = some n.decimal.trim := by
  obtain ⟨htake, hdrop⟩ := takeWhile_isDigit_append n.whole_isDigit n.stop_whole
  have hwhole : n.whole.isEmpty = false := by simpa using n.whole_ne_nil
  simp only [numeral?]
  rw [text, htake, hdrop]
  -- What stands behind the whole part starts with a point, or is the exponent.
  unfold fractionText
  cases hfraction : n.fraction with
  | some digits =>
    have hdigits : ∀ c ∈ digits, c.isDigit = true := by
      simpa [hfraction] using n.fraction_isDigit
    obtain ⟨htake', hdrop'⟩ := takeWhile_isDigit_append hdigits n.stop_fraction
    simp only [List.cons_append, htake', hdrop', hwhole, Bool.false_and, Bool.false_eq_true,
      if_false, decimal, hfraction, Option.getD_some]
    unfold exponentText
    cases n.exponent with
    | none => rfl
    | some k => simp [exponent?_signText]
  | none =>
    unfold exponentText
    cases hk : n.exponent with
    | none => simp [hwhole, decimal, hfraction, hk]
    | some k => simp [hwhole, decimal, hfraction, hk, exponent?_signText]

end Numeral

/-! ## Layouts -/

/-- A numeral that is meant to be a decimal, up to zeros at its end, and that nobody takes for an
integer. -/
def Numeral.Writes (n : Numeral) (d : Scientific) : Prop :=
  (n.fraction.isSome = true ∨ n.exponent.isSome = true) ∧
    ∃ k : ℕ, n.decimal = ⟨d.digits * 10 ^ k, d.exponent - k⟩

theorem isDigit_of_mem_replicate {k : ℕ} {c : Char} (hc : c ∈ List.replicate k '0') :
    c.isDigit = true := by
  rw [List.eq_of_mem_replicate hc]
  rfl

section Positional

variable {d : Scientific} {digits : List Char}

/-- Zeros between the point and the digits bring the exponent down. -/
theorem exists_numeral_zeros_front (hdigits : ∀ c ∈ digits, c.isDigit = true)
    (hvalue : digitsValue digits = d.digits) {m : ℕ} (hm : d.exponent = -(m + digits.length)) :
    ∃ n : Numeral, n.Writes d ∧ n.text = '0' :: '.' :: (List.replicate m '0' ++ digits) := by
  refine ⟨⟨['0'], some (List.replicate m '0' ++ digits), none, false, by simp, by simp, ?_⟩,
    ⟨.inl rfl, 0, ?_⟩, ?_⟩
  · exact fun c hc => (List.mem_append.1 hc).elim isDigit_of_mem_replicate (hdigits c)
  · have hfront : ['0'] ++ (List.replicate m '0' ++ digits) =
        List.replicate (m + 1) '0' ++ digits := rfl
    simp only [Numeral.decimal, Option.getD_some, Option.getD_none, hfront,
      digitsValue_replicate_append, hvalue, List.length_append, List.length_replicate,
      pow_zero, mul_one, Scientific.mk.injEq, true_and]
    omega
  · simp only [Numeral.text, Numeral.fractionText, Numeral.exponentText, List.append_nil]
    rfl

/-- Zeros between the digits and the point bring the exponent up. -/
theorem exists_numeral_zeros_back (hdigits : ∀ c ∈ digits, c.isDigit = true)
    (hvalue : digitsValue digits = d.digits) (hne : digits ≠ []) {m : ℕ} (hm : d.exponent = m) :
    ∃ n : Numeral, n.Writes d ∧ n.text = digits ++ List.replicate m '0' ++ ['.', '0'] := by
  refine ⟨⟨digits ++ List.replicate m '0', some ['0'], none, false, ?_, ?_, by simp⟩,
    ⟨.inl rfl, m + 1, ?_⟩, ?_⟩
  · exact List.append_ne_nil_of_left_ne_nil hne _
  · exact fun c hc => (List.mem_append.1 hc).elim (hdigits c) isDigit_of_mem_replicate
  · have hback : digits ++ List.replicate m '0' ++ ['0'] =
        digits ++ List.replicate (m + 1) '0' := by
      rw [List.append_assoc, ← List.replicate_one, ← List.replicate_add]
    simp only [Numeral.decimal, Option.getD_some, Option.getD_none, hback,
      digitsValue_append_replicate, hvalue, List.length_singleton, Scientific.mk.injEq,
      true_and]
    omega
  · simp [Numeral.text, Numeral.fractionText, Numeral.exponentText]

/-- A point inside the digits brings the exponent down by the digits behind it. -/
theorem exists_numeral_point_inside (hdigits : ∀ c ∈ digits, c.isDigit = true)
    (hvalue : digitsValue digits = d.digits) {m : ℕ} (hpos : 0 < m) (hlt : m < digits.length)
    (hm : d.exponent = m - digits.length) :
    ∃ n : Numeral, n.Writes d ∧ n.text = digits.take m ++ '.' :: digits.drop m := by
  refine ⟨⟨digits.take m, some (digits.drop m), none, false, ?_, ?_, ?_⟩, ⟨.inl rfl, 0, ?_⟩, ?_⟩
  · rw [ne_eq, List.take_eq_nil_iff]
    rintro (h | rfl)
    · omega
    · cases hlt
  · exact fun c hc => hdigits c (List.mem_of_mem_take hc)
  · exact fun c hc => hdigits c (List.mem_of_mem_drop hc)
  · simp only [Numeral.decimal, Option.getD_some, Option.getD_none, List.take_append_drop,
      hvalue, List.length_drop, pow_zero, mul_one, Scientific.mk.injEq, true_and]
    omega
  · simp [Numeral.text, Numeral.fractionText, Numeral.exponentText]

end Positional

/-- Positional text is a numeral of the decimal. -/
theorem exists_numeral_positional (d : Scientific) :
    ∃ n : Numeral, n.Writes d ∧
      n.text = positional (Nat.toDigits 10 d.digits)
        (d.exponent + (Nat.toDigits 10 d.digits).length - 1) := by
  have hdigits : ∀ c ∈ Nat.toDigits 10 d.digits, c.isDigit = true :=
    fun c hc => isDigit_of_mem_toDigits hc
  have hvalue : digitsValue (Nat.toDigits 10 d.digits) = d.digits := digitsValue_toDigits d.digits
  have hne : Nat.toDigits 10 d.digits ≠ [] := Nat.toDigits_ne_nil
  unfold positional
  split
  · next hneg => exact exists_numeral_zeros_front hdigits hvalue (by omega)
  · next hneg =>
    dsimp only
    split
    · next hle => exact exists_numeral_zeros_back hdigits hvalue hne (by omega)
    · next hlt => exact exists_numeral_point_inside hdigits hvalue (by omega) (by omega) (by omega)

/-- Text with an exponent is a numeral of the decimal. -/
theorem exists_numeral_scientific (plusSign : Bool) (d : Scientific) :
    ∃ n : Numeral, n.Writes d ∧
      n.text = scientific plusSign (Nat.toDigits 10 d.digits)
        (d.exponent + (Nat.toDigits 10 d.digits).length - 1) := by
  have hdigits : ∀ c ∈ Nat.toDigits 10 d.digits, c.isDigit = true :=
    fun c hc => isDigit_of_mem_toDigits hc
  have hvalue : digitsValue (Nat.toDigits 10 d.digits) = d.digits := digitsValue_toDigits d.digits
  have hne : Nat.toDigits 10 d.digits ≠ [] := Nat.toDigits_ne_nil
  generalize Nat.toDigits 10 d.digits = digits at *
  obtain ⟨c, rest, rfl⟩ := List.exists_cons_of_ne_nil hne
  rw [List.forall_mem_cons] at hdigits
  -- There is a point only in front of further digits.
  refine ⟨⟨[c], if rest.isEmpty then none else some rest,
    some (d.exponent + (c :: rest).length - 1), plusSign, by simp, by simpa using hdigits.1, ?_⟩,
    ⟨.inr rfl, 0, ?_⟩, ?_⟩
  · cases rest with
    | nil => simp
    | cons c' rest => exact hdigits.2
  · have hrest : (if rest.isEmpty then none else some rest).getD [] = rest := by
      cases rest <;> rfl
    simp only [Numeral.decimal, hrest, List.singleton_append, hvalue, Option.getD_some,
      List.length_cons, pow_zero, mul_one, Scientific.mk.injEq, true_and]
    omega
  · cases rest <;>
      simp [Numeral.text, Numeral.fractionText, Numeral.exponentText, Numeral.signText,
        scientific]

/-- **What a layout writes is a numeral of the decimal.** -/
theorem exists_numeral_unsigned (l : Layout) (d : Scientific) :
    ∃ n : Numeral, n.Writes d ∧ n.text = l.unsigned d := by
  unfold Layout.unsigned
  dsimp only
  split
  · exact exists_numeral_positional d
  · exact exists_numeral_scientific l.plusSign d

/-! ## Reading -/

theorem numeral?_unsigned (l : Layout) {d : Scientific} (htrim : d.trim = d) :
    numeral? (l.unsigned d) = some d := by
  obtain ⟨n, ⟨-, k, hdecimal⟩, htext⟩ := exists_numeral_unsigned l d
  rw [← htext, Numeral.numeral?_text, hdecimal, trim_mul_pow, htrim]

/-- A numeral starts with a digit. -/
theorem Numeral.exists_text_eq (n : Numeral) :
    ∃ c rest, n.text = c :: rest ∧ c.isDigit = true := by
  obtain ⟨c, rest, hwhole⟩ := List.exists_cons_of_ne_nil n.whole_ne_nil
  refine ⟨c, rest ++ (n.fractionText ++ n.exponentText), ?_, ?_⟩
  · rw [Numeral.text, hwhole, List.cons_append]
  · exact n.whole_isDigit c (hwhole ▸ List.mem_cons_self)

theorem toLower_of_isDigit {c : Char} (hc : c.isDigit = true) : c.toLower = c := by
  rw [Char.isDigit_iff_toNat] at hc
  have hupper : ¬ (c.val ≥ 'A'.val ∧ c.val ≤ 'Z'.val) := by
    rintro ⟨hge, -⟩
    have hle : 'A'.toNat ≤ c.toNat := UInt32.le_iff_toNat_le.1 hge
    exact absurd (hle.trans hc.2) (by decide)
  exact dif_neg hupper

/-- A text that starts with a digit is none of the words. -/
theorem magnitude?_of_isDigit {c : Char} {rest : List Char} (hc : c.isDigit = true)
    {d : Scientific} (hnumeral : numeral? (c :: rest) = some d) :
    magnitude? (c :: rest) = some d.toBits := by
  have hword (letter : Char) (letters : List Char) (h : letter.isDigit = false) :
      (c :: rest).map Char.toLower ≠ letter :: letters := by
    rw [List.map_cons, toLower_of_isDigit hc]
    intro heq
    rw [(List.cons.inj heq).1, h] at hc
    cases hc
  unfold magnitude?
  dsimp only
  rw [if_neg, if_neg (hword 'n' ['a', 'n'] rfl), hnumeral, Option.map_some]
  rintro (h | h)
  · exact hword 'i' _ rfl h
  · exact hword 'i' _ rfl h

/-- A text that starts with a digit has no sign, and is none of the words. -/
theorem read_of_isDigit {c : Char} {rest : List Char} (hc : c.isDigit = true) {d : Scientific}
    (hnumeral : numeral? (c :: rest) = some d) :
    read (c :: rest) = .ok (ofSignAndBits false d.toBits) := by
  have hsign (sign : Char) (h : sign.isDigit = false) : c ≠ sign := by
    rintro rfl
    rw [h] at hc
    cases hc
  unfold read
  split
  next negative unsigned heq =>
    split at heq
    · next h => exact absurd (List.cons.inj h).1 (hsign '-' rfl)
    · next h => exact absurd (List.cons.inj h).1 (hsign '+' rfl)
    · cases heq
      rw [magnitude?_of_isDigit hc hnumeral]

section Unsigned

variable (l : Layout) {d : Scientific} (htrim : d.trim = d)
include htrim

/-- What a layout writes starts with a digit, and stands for the decimal. -/
theorem exists_unsigned_eq :
    ∃ c rest, l.unsigned d = c :: rest ∧ c.isDigit = true ∧ numeral? (c :: rest) = some d := by
  have hnumeral := numeral?_unsigned l htrim
  obtain ⟨n, -, htext⟩ := exists_numeral_unsigned l d
  obtain ⟨c, rest, hcons, hc⟩ := n.exists_text_eq
  rw [← htext, hcons] at hnumeral ⊢
  exact ⟨c, rest, rfl, hc, hnumeral⟩

/-- **What a layout writes is read as the magnitude nearest to the decimal.** -/
theorem read_unsigned : read (l.unsigned d) = .ok (ofSignAndBits false d.toBits) := by
  obtain ⟨c, rest, hcons, hc, hnumeral⟩ := exists_unsigned_eq l htrim
  rw [hcons, read_of_isDigit hc hnumeral]

/-- The same behind a minus sign. -/
theorem read_neg_unsigned :
    read ('-' :: l.unsigned d) = .ok (ofSignAndBits true d.toBits) := by
  obtain ⟨c, rest, hcons, hc, hnumeral⟩ := exists_unsigned_eq l htrim
  rw [hcons]
  simp only [read, magnitude?_of_isDigit hc hnumeral]

end Unsigned

end Decimal

end FlatQasm
