import FlatQasm.Json.Text
import FlatQasm.Proofs.Decimal.Components
import FlatQasm.Proofs.Decimal.Written

/-!
# Strings and numbers in JSON text

A string is read up to the quotation mark behind it, and a number up to the first character that
is no part of it.  What is written for a string or a finite float is read in this way.

## Main definitions

* `Json.IsNumber` — the literals of numbers.
* `Json.Stops` — texts that do not go on with a number.

## Main statements

* `Json.unescape?_escape`, `Json.stringFrom?_escape` — written strings are read, and stand for what
  was written.
* `Json.IsNumber.read` — a number is read up to its end.
* `Json.isNumber_toDigits`, `Json.isNumber_text` — natural numbers and finite floats are written as
  numbers.
* `Json.read_text` — a finite float is the one nearest to what is written for it.
-/

namespace FlatQasm.Json

/-! ## Strings -/

/-- The digits of a control character. -/
theorem hexValue4?_of_lt : ∀ n < 0x20,
    hexValue4? '0' '0' (hexDigit (n / 16)) (hexDigit (n % 16)) = some n := by
  decide

/-- A character is escaped by a single letter, by the digits of its number, or not at all. -/
theorem escapeChar_cases (c : Char) :
    (∃ e, escapeChar c = ['\\', e] ∧ e ≠ 'u' ∧ simpleEscape? e = some c) ∨
    (escapeChar c = ['\\', 'u', '0', '0', hexDigit (c.toNat / 16), hexDigit (c.toNat % 16)] ∧
      c.toNat < 0x20) ∨
    (escapeChar c = [c] ∧ c ≠ '"' ∧ c ≠ '\\' ∧ 0x20 ≤ c.toNat) := by
  unfold escapeChar
  split_ifs with h1 h2 h3 h4 h5 h6 h7 h8
  · exact .inl ⟨_, rfl, by decide, by rw [h1]; rfl⟩
  · exact .inl ⟨_, rfl, by decide, by rw [h2]; rfl⟩
  · exact .inl ⟨_, rfl, by decide, by rw [h3]; rfl⟩
  · exact .inl ⟨_, rfl, by decide, by rw [h4]; rfl⟩
  · exact .inl ⟨_, rfl, by decide, by rw [h5]; rfl⟩
  · exact .inl ⟨_, rfl, by decide, by rw [h6]; rfl⟩
  · exact .inl ⟨_, rfl, by decide, by rw [h7]; rfl⟩
  · exact .inr (.inl ⟨rfl, h8⟩)
  · exact .inr (.inr ⟨rfl, h1, h2, Nat.le_of_not_lt h8⟩)

/-- The written form of a character stands for it. -/
theorem unescape?_escapeChar (c : Char) (rest : List Char) :
    unescape? (escapeChar c ++ rest) = (unescape? rest).map (c :: ·) := by
  rcases escapeChar_cases c with ⟨e, h, hu, he⟩ | ⟨h, hlt⟩ | ⟨h, -, hslash, -⟩
  · rw [h, List.cons_append, List.cons_append, List.nil_append, unescape?, he]
    · cases unescape? rest <;> rfl
    · exact fun _ _ _ _ _ hletter _ => hu hletter
  · have hlow : ¬ (0xDC00 ≤ c.toNat ∧ c.toNat < 0xE000) := by omega
    have hhigh : ¬ (0xD800 ≤ c.toNat ∧ c.toNat < 0xDC00) := by omega
    simp only [h, List.cons_append, List.nil_append]
    rw [unescape?, hexValue4?_of_lt _ hlt]
    simp only [bind, Option.bind_some, if_neg hlow, if_neg hhigh, Char.ofNat_toNat]
    cases unescape? rest <;> rfl
  · rw [h, List.singleton_append, unescape?]
    · exact fun _ _ _ _ _ hc _ => hslash hc
    · exact fun _ _ hc _ => hslash hc

/-- The written form of a string stands for it. -/
@[simp] theorem unescape?_escape (text : List Char) : unescape? (escape text) = some text := by
  induction text with
  | nil => rfl
  | cons c text ih =>
    rw [escape, List.flatMap_cons, unescape?_escapeChar]
    exact congrArg _ ih

/-- The written form of a character is read up to its end. -/
theorem stringFrom?_escapeChar (c : Char) (rest : List Char) :
    stringFrom? (escapeChar c ++ rest) =
      (stringFrom? rest).map fun (written, rest) => (escapeChar c ++ written, rest) := by
  rcases escapeChar_cases c with ⟨e, h, hu, he⟩ | ⟨h, hlt⟩ | ⟨h, hquote, hslash, hle⟩
  · rw [h, List.cons_append, List.cons_append, List.nil_append, stringFrom?, he]
    · cases stringFrom? rest <;> rfl
    · exact fun _ _ _ _ _ hletter _ => hu hletter
  · simp only [h, List.cons_append, List.nil_append]
    rw [stringFrom?, hexValue4?_of_lt _ hlt]
    cases stringFrom? rest <;> rfl
  · have hallowed : ¬ (c = '\\' ∨ c.toNat < 0x20) := not_or.2 ⟨hslash, Nat.not_lt.2 hle⟩
    rw [h, List.singleton_append, stringFrom?, if_neg hallowed]
    · cases stringFrom? rest <;> rfl
    · exact hquote
    · exact fun _ _ _ _ _ hc _ => hslash hc
    · exact fun _ _ hc _ => hslash hc

/-- The written form of a string is read up to the quotation mark behind it. -/
theorem stringFrom?_escape (text rest : List Char) :
    stringFrom? (escape text ++ '"' :: rest) = some (escape text, rest) := by
  induction text with
  | nil => rfl
  | cons c text ih =>
    rw [escape, List.flatMap_cons, List.append_assoc, stringFrom?_escapeChar]
    exact congrArg _ ih

/-! ## Numbers -/

/-- The part of a number in front of the point: zero, or digits that do not start with one. -/
def IsWhole (whole : List Char) : Prop :=
  whole = ['0'] ∨ IsDigits whole ∧ whole.head? ≠ some '0'

/-- The point and the digits behind it, if there is a point. -/
def IsFraction (fraction : List Char) : Prop :=
  fraction = [] ∨ ∃ digits, IsDigits digits ∧ fraction = '.' :: digits

/-- The exponent with its sign, if there is one. -/
def IsExponent (exponent : List Char) : Prop :=
  exponent = [] ∨ ∃ sign digits, sign ∈ [[], ['+'], ['-']] ∧ IsDigits digits ∧
    exponent = 'e' :: (sign ++ digits)

/-- A number without sign. -/
def IsUnsigned (literal : List Char) : Prop :=
  ∃ whole fraction exponent, IsWhole whole ∧ IsFraction fraction ∧ IsExponent exponent ∧
    literal = whole ++ fraction ++ exponent

/-- A number. -/
def IsNumber (literal : List Char) : Prop :=
  ∃ unsigned, IsUnsigned unsigned ∧ (literal = unsigned ∨ literal = '-' :: unsigned)

/-- No number goes on at the front of a text. -/
def Stops (rest : List Char) : Prop :=
  ∀ c ∈ rest.head?, c.isDigit = false ∧ c ≠ '.' ∧ c ≠ 'e' ∧ c ≠ 'E'

section Reading

variable {digits whole fraction exponent rest : List Char}

theorem digitsFrom?_append (h : IsDigits digits) (stop : ∀ c ∈ rest.head?, c.isDigit = false) :
    digitsFrom? (digits ++ rest) = some (digits, rest) := by
  obtain ⟨htake, -⟩ := Decimal.takeWhile_isDigit_append h.isDigit stop
  have hne : digits.isEmpty = false := by simpa using h.ne_nil
  simp only [digitsFrom?, htake, hne, Bool.false_eq_true, if_false, List.drop_left]

theorem IsWhole.read (h : IsWhole whole) (stop : ∀ c ∈ rest.head?, c.isDigit = false) :
    wholeFrom? (whole ++ rest) = some (whole, rest) := by
  rcases h with rfl | ⟨hdigits, hzero⟩
  · have hrest : (rest.takeWhile Char.isDigit).isEmpty = true := by
      cases rest with
      | nil => rfl
      | cons c rest => simp [stop c rfl]
    simp only [List.cons_append, List.nil_append, wholeFrom?, hrest, if_true]
  · obtain ⟨c, digits, rfl, -⟩ := hdigits.exists_eq_cons
    rw [← digitsFrom?_append hdigits stop, List.cons_append, wholeFrom?]
    exact fun _ h => hzero (congrArg some (List.cons.inj h).1)

theorem IsFraction.read (h : IsFraction fraction)
    (stop : ∀ c ∈ rest.head?, c.isDigit = false ∧ c ≠ '.') :
    fractionFrom? (fraction ++ rest) = some (fraction, rest) := by
  rcases h with rfl | ⟨digits, hdigits, rfl⟩
  · rw [List.nil_append, fractionFrom?]
    rintro _ rfl
    exact (stop '.' rfl).2 rfl
  · rw [List.cons_append, fractionFrom?, digitsFrom?_append hdigits fun c hc => (stop c hc).1]
    rfl

theorem IsExponent.read (h : IsExponent exponent) (stops : Stops rest) :
    exponentFrom? (exponent ++ rest) = some (exponent, rest) := by
  rcases h with rfl | ⟨sign, digits, hsign, hdigits, rfl⟩
  · cases rest with
    | nil => rfl
    | cons c rest =>
      obtain ⟨-, -, he, hE⟩ := stops c rfl
      rw [List.nil_append]
      unfold exponentFrom?
      exact if_neg (not_or.2 ⟨he, hE⟩)
  · have hread := digitsFrom?_append hdigits fun c hc => (stops c hc).1
    simp only [List.mem_cons, List.not_mem_nil, or_false] at hsign
    rcases hsign with rfl | rfl | rfl
    · -- Without a sign, the first digit is neither of the two.
      obtain ⟨c, digits, rfl, hc⟩ := hdigits.exists_eq_cons
      have hletter (letter : Char) (h : letter.isDigit = false) : c ≠ letter := by
        rintro rfl
        rw [h] at hc
        cases hc
      simp only [List.nil_append, List.cons_append] at hread ⊢
      rw [exponentFrom?, if_pos (.inl rfl), hread]
      · rfl
      · exact fun _ h => hletter '+' rfl (List.cons.inj h).1
      · exact fun _ h => hletter '-' rfl (List.cons.inj h).1
    · simp only [List.cons_append, List.nil_append]
      rw [exponentFrom?, if_pos (.inl rfl), hread]
      rfl
    · simp only [List.cons_append, List.nil_append]
      rw [exponentFrom?, if_pos (.inl rfl), hread]
      rfl

/-- A number without sign is read up to its end. -/
theorem IsUnsigned.read {literal : List Char} (h : IsUnsigned literal) (stops : Stops rest) :
    unsignedFrom? (literal ++ rest) = some (literal, rest) := by
  obtain ⟨whole, fraction, exponent, hwhole, hfraction, hexponent, rfl⟩ := h
  have hstop : ∀ c ∈ (exponent ++ rest).head?, c.isDigit = false ∧ c ≠ '.' := by
    rcases hexponent with rfl | ⟨sign, digits, -, -, rfl⟩
    · exact fun c hc => ⟨(stops c hc).1, (stops c hc).2.1⟩
    · rintro c ⟨⟩
      decide
  have hstop' : ∀ c ∈ (fraction ++ (exponent ++ rest)).head?, c.isDigit = false := by
    rcases hfraction with rfl | ⟨digits, -, rfl⟩
    · exact fun c hc => (hstop c hc).1
    · rintro c ⟨⟩
      decide
  rw [List.append_assoc, List.append_assoc, unsignedFrom?, hwhole.read hstop']
  dsimp only [bind, Option.bind]
  rw [hfraction.read hstop]
  dsimp only
  rw [hexponent.read stops]

theorem IsUnsigned.exists_eq_cons {literal : List Char} (h : IsUnsigned literal) :
    ∃ c rest, literal = c :: rest ∧ c.isDigit = true := by
  obtain ⟨whole, fraction, exponent, hwhole, -, -, rfl⟩ := h
  rcases hwhole with rfl | ⟨hdigits, -⟩
  · exact ⟨'0', fraction ++ exponent, rfl, rfl⟩
  · obtain ⟨c, digits, rfl, hc⟩ := hdigits.exists_eq_cons
    exact ⟨c, digits ++ fraction ++ exponent, rfl, hc⟩

/-- A number is read up to its end. -/
theorem IsNumber.read {literal : List Char} (h : IsNumber literal) (stops : Stops rest) :
    scalarFrom? (literal ++ rest) = some (.number literal, rest) := by
  obtain ⟨unsigned, hunsigned, rfl | rfl⟩ := h
  · obtain ⟨c, digits, rfl, hc⟩ := hunsigned.exists_eq_cons
    have hread := hunsigned.read stops
    have hletter (letter : Char) (h : letter.isDigit = false) : c ≠ letter := by
      rintro rfl
      rw [h] at hc
      cases hc
    rw [List.cons_append] at hread ⊢
    unfold scalarFrom?
    split
    · next h => exact absurd (List.cons.inj h).1 (hletter '"' rfl)
    · next h => exact absurd (List.cons.inj h).1 (hletter '-' rfl)
    · next h => exact absurd (List.cons.inj h).1 (hletter 'n' rfl)
    · next h => exact absurd (List.cons.inj h).1 (hletter 't' rfl)
    · next h => exact absurd (List.cons.inj h).1 (hletter 'f' rfl)
    · rw [hread]
      rfl
  · rw [List.cons_append, scalarFrom?, hunsigned.read stops]
    rfl

end Reading

/-! ## Numbers that are written -/

theorem isDigits_toDigits (n : ℕ) : IsDigits (Nat.toDigits 10 n) :=
  ⟨Nat.toDigits_ne_nil, fun _ hc => Decimal.isDigit_of_mem_toDigits hc⟩

/-- The digits of a number do not start with a zero, unless the number is zero. -/
theorem head?_toDigits_ne {n : ℕ} (hn : n ≠ 0) : (Nat.toDigits 10 n).head? ≠ some '0' := by
  induction n using Nat.strongRecOn with
  | ind n ih =>
    by_cases hlt : n < 10
    · rw [Nat.toDigits_of_lt_base hlt, List.head?_cons, ne_eq, Option.some.injEq,
        Nat.digitChar_eq_zero]
      exact hn
    · rw [Nat.toDigits_of_base_le (by decide) (by omega),
        List.head?_append_of_ne_nil _ Nat.toDigits_ne_nil]
      exact ih (n / 10) (by omega) (by omega)

theorem isWhole_toDigits (n : ℕ) : IsWhole (Nat.toDigits 10 n) := by
  by_cases hn : n = 0
  · subst hn
    exact .inl rfl
  · exact .inr ⟨isDigits_toDigits n, head?_toDigits_ne hn⟩

theorem isNumber_toDigits (n : ℕ) : IsNumber (Nat.toDigits 10 n) :=
  ⟨_, ⟨_, [], [], isWhole_toDigits n, .inl rfl, .inl rfl, by simp⟩, .inl rfl⟩

section Layouts

open Decimal

variable {d : Scientific}

/-- A trimmed decimal without digits is zero. -/
theorem eq_zero_of_trim (htrim : d.trim = d) (hdigits : d.digits = 0) : d = ⟨0, 0⟩ := by
  rw [← htrim, Scientific.trim, dif_pos hdigits]

/-- A number with a point and without an exponent. -/
theorem isUnsigned_fixed {whole digits : List Char} (hwhole : IsWhole whole)
    (hdigits : IsDigits digits) : IsUnsigned (whole ++ '.' :: digits) :=
  ⟨whole, '.' :: digits, [], hwhole, .inr ⟨digits, hdigits, rfl⟩, .inl rfl, by simp⟩

/-- Positional text is a number without sign: no zero stands in front of other digits. -/
theorem isUnsigned_positional (htrim : d.trim = d) :
    IsUnsigned (positional (Nat.toDigits 10 d.digits)
      (d.exponent + (Nat.toDigits 10 d.digits).length - 1)) := by
  have hdigits := isDigits_toDigits d.digits
  have hzeros (k : ℕ) : ∀ c ∈ List.replicate k '0', c.isDigit = true :=
    fun _ => isDigit_of_mem_replicate
  have hpoint : IsDigits ['0'] := ⟨by simp, by simp⟩
  unfold positional
  split
  · refine isUnsigned_fixed (.inl rfl) ⟨?_, fun c hc => ?_⟩
    · exact List.append_ne_nil_of_right_ne_nil _ hdigits.ne_nil
    · exact (List.mem_append.1 hc).elim (hzeros _ c) (hdigits.isDigit c)
  · by_cases hzero : d.digits = 0
    · obtain rfl := eq_zero_of_trim htrim hzero
      exact isUnsigned_fixed (.inl rfl) hpoint
    · have hhead := head?_toDigits_ne hzero
      generalize Nat.toDigits 10 d.digits = digits at *
      dsimp only
      split
      · refine isUnsigned_fixed (.inr ⟨⟨?_, fun c hc => ?_⟩, ?_⟩) hpoint
        · exact List.append_ne_nil_of_left_ne_nil hdigits.ne_nil _
        · exact (List.mem_append.1 hc).elim (hdigits.isDigit c) (hzeros _ c)
        · rwa [List.head?_append_of_ne_nil _ hdigits.ne_nil]
      · next hlt =>
        refine isUnsigned_fixed (.inr ⟨⟨?_, fun c hc => ?_⟩, ?_⟩) ⟨?_, fun c hc => ?_⟩
        · simpa using hdigits.ne_nil
        · exact hdigits.isDigit c (List.mem_of_mem_take hc)
        · rwa [List.head?_take, if_neg (Nat.succ_ne_zero _)]
        · rw [ne_eq, List.drop_eq_nil_iff]
          exact hlt
        · exact hdigits.isDigit c (List.mem_of_mem_drop hc)

/-- Text with an exponent is a number without sign: one digit stands in front of the point. -/
theorem isUnsigned_scientific (plusSign : Bool) (digits : List Char) (h : IsDigits digits)
    (leading : ℤ) : IsUnsigned (scientific plusSign digits leading) := by
  obtain ⟨c, rest, rfl, hc⟩ := h.exists_eq_cons
  refine ⟨[c], if rest.isEmpty then [] else '.' :: rest,
    'e' :: (Numeral.signText plusSign leading ++ Nat.toDigits 10 leading.natAbs), ?_, ?_,
    .inr ⟨_, _, ?_, isDigits_toDigits _, rfl⟩, ?_⟩
  · by_cases hzero : c = '0'
    · exact .inl (congrArg (fun c => [c]) hzero)
    · exact .inr ⟨⟨by simp, by simpa using hc⟩, by simpa using hzero⟩
  · cases rest with
    | nil => exact .inl rfl
    | cons c' rest =>
      exact .inr ⟨c' :: rest, ⟨by simp, (List.forall_mem_cons.1 h.isDigit).2⟩, rfl⟩
  · unfold Numeral.signText
    split_ifs <;> simp
  · simp [scientific, Numeral.signText]

theorem isUnsigned_unsigned (l : Layout) (htrim : d.trim = d) : IsUnsigned (l.unsigned d) := by
  unfold Layout.unsigned
  dsimp only
  split
  · exact isUnsigned_positional htrim
  · exact isUnsigned_scientific l.plusSign _ (isDigits_toDigits _) _

/-- A finite float is written as a number. -/
theorem isNumber_text {x : Float} (hx : x.isFinite) :
    IsNumber (Layout.json.text x).toList := by
  have hlt := magnitudeBits_lt hx
  obtain ⟨-, htrim⟩ := toBits_shortest Layout.json.tie hlt
  refine ⟨_, isUnsigned_unsigned Layout.json htrim, ?_⟩
  rw [Layout.text]
  dsimp only
  rw [if_neg (by omega), if_neg (by omega), String.toList_ofList]
  split
  · exact .inr rfl
  · exact .inl rfl

/-- **A finite float is the one nearest to what is written for it.** -/
theorem read_text (l : Layout) {x : Float} (hx : x.isFinite) :
    Decimal.read (l.text x).toList = .ok x := by
  have hlt := magnitudeBits_lt hx
  obtain ⟨hbits, htrim⟩ := toBits_shortest l.tie hlt
  have hx := ofSignAndBits_magnitudeBits hx
  rw [Layout.text]
  dsimp only
  rw [if_neg (by omega), if_neg (by omega), String.toList_ofList]
  split
  · next hsign => rw [read_neg_unsigned l htrim, hbits, ← hsign, hx]
  · next hsign => rw [read_unsigned l htrim, hbits, ← Bool.eq_false_iff.2 hsign, hx]

end Layouts

end FlatQasm.Json
