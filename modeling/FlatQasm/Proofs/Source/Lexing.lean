import FlatQasm.Proofs.Decimal.Components
import FlatQasm.Proofs.Decimal.Written
import FlatQasm.Source.Tokens

/-!
# Texts that split into given tokens

What a text splits into depends on what follows it: a name, an integer and a float go on as long as
the characters suit.  A relation between whole texts and their tokens says what is needed of the
rest, and texts are put in front of it one after another.

## Main definitions

* `Lexes` — a text splits into tokens.
* `Apart` — no name and no number goes on into a text.
* `IsIdentifier` — a word that is a name and not reserved.

## Main statements

* `Lexes.exists_tokens` — the tokens of a source text.
* `Lexes.integer`, `Lexes.word`, `Lexes.float` — an integer, a word and a float in front of a text.
-/

namespace FlatQasm

/-- A text splits into tokens, with blanks and comments between them. -/
inductive Lexes : List Char → List Token → Prop where
  | nil : Lexes [] []
  | skip {c : Char} {rest : List Char} {length : ℕ} {ts : List Token}
      (hscan : scan c rest = (.skip, length)) (hrest : Lexes (rest.drop length) ts) :
      Lexes (c :: rest) ts
  | token {c : Char} {rest : List Char} {length : ℕ} {t : Token} {ts : List Token}
      (hscan : scan c rest = (.token t, length)) (hrest : Lexes (rest.drop length) ts) :
      Lexes (c :: rest) (t :: ts)

namespace Lexes

theorem exists_tokens_locate {text : List Char} {ts : List Token} (h : Lexes text ts)
    (p : Position) : ∃ located, Lexeme.tokens (Lexeme.locate p (lexemes text)) = .ok located ∧
      located.map Located.token = ts := by
  induction h generalizing p with
  | nil => exact ⟨[], by rw [lexemes, Lexeme.locate, Lexeme.tokens], rfl⟩
  | @skip c rest length ts hscan hrest ih =>
    obtain ⟨located, htokens, hmap⟩ := ih (p.after (c :: rest.take length))
    refine ⟨located, ?_, hmap⟩
    rw [lexemes, hscan]
    exact htokens
  | @token c rest length t ts hscan hrest ih =>
    obtain ⟨located, htokens, hmap⟩ := ih (p.after (c :: rest.take length))
    refine ⟨⟨t, p⟩ :: located, ?_, by rw [List.map_cons, hmap]⟩
    rw [lexemes, hscan]
    dsimp only [Lexeme.locate, Lexeme.tokens]
    rw [htokens]
    rfl

/-- **The tokens of a source text are those that it splits into.** -/
theorem exists_tokens {source : String} {ts : List Token} (h : Lexes source.toList ts) :
    ∃ located, tokens source = .ok located ∧ located.map Located.token = ts :=
  h.exists_tokens_locate .start

end Lexes

/-! ## Blanks -/

theorem scan_of_isSpace {c : Char} {rest : List Char} (hc : isSpace c = true) :
    scan c rest = (.skip, (rest.takeWhile isSpace).length) := by
  simp only [scan]
  rw [if_pos hc]

/-- Blanks at the front of a text make no difference. -/
theorem Lexes.drop_spaces {text : List Char} {ts : List Token} (h : Lexes text ts) :
    Lexes (text.drop (text.takeWhile isSpace).length) ts := by
  cases h with
  | nil => exact .nil
  | @skip c rest length _ hscan hrest =>
    by_cases hc : isSpace c = true
    · rw [scan_of_isSpace hc] at hscan
      cases hscan
      rw [List.takeWhile_cons_of_pos hc]
      exact hrest
    · rw [List.takeWhile_cons_of_neg hc]
      exact .skip hscan hrest
  | @token c rest length t ts hscan hrest =>
    by_cases hc : isSpace c = true
    · rw [scan_of_isSpace hc] at hscan
      cases hscan
    · rw [List.takeWhile_cons_of_neg hc]
      exact .token hscan hrest

/-- A blank in front of a text. -/
theorem Lexes.space {c : Char} {rest : List Char} {ts : List Token} (hc : isSpace c = true)
    (h : Lexes rest ts) : Lexes (c :: rest) ts :=
  .skip (scan_of_isSpace hc) h.drop_spaces

/-! ## Where a piece ends -/

/-- No name and no number goes on into a text. -/
def Apart (text : List Char) : Prop := ∀ c ∈ text.head?, isNameChar c = false ∧ c ≠ '.'

theorem apart_cons {c : Char} {rest : List Char} (hname : isNameChar c = false) (hdot : c ≠ '.') :
    Apart (c :: rest) := by
  intro d hd
  cases hd
  exact ⟨hname, hdot⟩

theorem isDigit_eq_false_of_isNameChar {c : Char} (h : isNameChar c = false) :
    c.isDigit = false := by
  simp only [isNameChar, Char.isAlphanum, Bool.or_eq_false_iff] at h
  exact h.1.2

theorem Apart.isDigit_eq_false {text : List Char} (h : Apart text) :
    ∀ c ∈ text.head?, c.isDigit = false :=
  fun c hc => isDigit_eq_false_of_isNameChar (h c hc).1

/-! ## Digits -/

theorem digitCount_append {digits rest : List Char} (hdigits : ∀ c ∈ digits, c.isDigit = true)
    (hstop : ∀ c ∈ rest.head?, c.isDigit = false) :
    digitCount (digits ++ rest) = digits.length := by
  rw [digitCount, (Decimal.takeWhile_isDigit_append hdigits hstop).1]

/-- No exponent starts where a name would not go on. -/
theorem Apart.exponentCount_eq_zero {text : List Char} (h : Apart text) :
    exponentCount text = 0 := by
  simp only [exponentCount]
  split
  · next e sign rest =>
    have hname : isNameChar e = false := (h e rfl).1
    have hletter : ¬ (e = 'e' ∨ e = 'E') := by
      rintro (rfl | rfl) <;> cases hname
    rw [if_neg hletter]
  · rfl

/-- A digit starts a number. -/
theorem scan_of_isDigit {c : Char} {rest : List Char} (hc : c.isDigit = true) :
    scan c rest = ((scanNumber (c :: rest)).1, (scanNumber (c :: rest)).2 - 1) := by
  have hspace : isSpace c = false := by
    by_contra h
    simp only [isSpace, Bool.not_eq_false, Bool.or_eq_true, decide_eq_true_eq] at h
    rcases h with (((rfl | rfl) | rfl) | rfl) | rfl <;> cases hc
  simp only [scan]
  rw [if_neg (by simp [hspace]), if_pos hc]

/-- A number in front of a text, when the whole of it is taken. -/
theorem Lexes.number {text rest : List Char} {t : Token} {ts : List Token}
    (hfirst : ∀ c ∈ text.head?, c.isDigit = true) (hne : text ≠ [])
    (hscan : scanNumber (text ++ rest) = (.token t, text.length)) (h : Lexes rest ts) :
    Lexes (text ++ rest) (t :: ts) := by
  obtain ⟨c, tail, rfl⟩ := List.exists_cons_of_ne_nil hne
  have hc : c.isDigit = true := hfirst c rfl
  rw [List.cons_append] at hscan ⊢
  have hlexeme : scan c (tail ++ rest) = (.token t, tail.length) := by
    rw [scan_of_isDigit hc, hscan]
    rfl
  refine .token hlexeme ?_
  rw [List.drop_left]
  exact h

/-! ## Integers -/

theorem scanNumber_digits {digits rest : List Char} (hdigits : ∀ c ∈ digits, c.isDigit = true)
    (hrest : Apart rest) :
    scanNumber (digits ++ rest) = (.token (.int (.ofDigits digits)), digits.length) := by
  rw [scanNumber, digitCount_append hdigits hrest.isDigit_eq_false]
  dsimp only
  rw [List.drop_left]
  split
  · exact absurd rfl (hrest '.' rfl).2
  · rw [if_pos hrest.exponentCount_eq_zero, List.take_left]

/-- An integer of any length in front of a text. -/
theorem Lexes.digits {digits rest : List Char} {ts : List Token} (hne : digits ≠ [])
    (hdigits : ∀ c ∈ digits, c.isDigit = true) (hrest : Apart rest) (h : Lexes rest ts) :
    Lexes (digits ++ rest) (.int (.ofDigits digits) :: ts) :=
  .number (fun c hc => hdigits c (List.mem_of_mem_head? hc)) hne
    (scanNumber_digits hdigits hrest) h

/-- An integer of at most 64 bits in front of a text. -/
theorem Lexes.integer {n : ℕ} {rest : List Char} {ts : List Token} (hn : n < UInt64.size)
    (hrest : Apart rest) (h : Lexes rest ts) :
    Lexes (Nat.toDigits 10 n ++ rest) (.int (.word (UInt64.ofNat n)) :: ts) := by
  have hliteral : IntLiteral.ofDigits (Nat.toDigits 10 n) = .word (UInt64.ofNat n) := by
    rw [IntLiteral.ofDigits, Decimal.digitsValue_toDigits]
    exact if_pos hn
  rw [← hliteral]
  exact .digits Nat.toDigits_ne_nil (fun c hc => Decimal.isDigit_of_mem_toDigits hc) hrest h

/-! ## Floats -/

namespace Decimal.Numeral

variable (n : Numeral) {rest : List Char}

theorem exponentCount_signText (plusSign : Bool) (k : ℤ) (hrest : Apart rest) :
    exponentCount ('e' :: (signText plusSign k ++ (Nat.toDigits 10 k.natAbs ++ rest))) =
      (signText plusSign k).length + (Nat.toDigits 10 k.natAbs).length + 1 := by
  have hdigits : ∀ c ∈ Nat.toDigits 10 k.natAbs, c.isDigit = true :=
    fun c hc => isDigit_of_mem_toDigits hc
  have hne : Nat.toDigits 10 k.natAbs ≠ [] := Nat.toDigits_ne_nil
  generalize Nat.toDigits 10 k.natAbs = digits at *
  have hcount := digitCount_append hdigits hrest.isDigit_eq_false
  have hpos : digits.length ≠ 0 := fun h => hne (List.length_eq_zero_iff.1 h)
  have hsigned (sign : Char) (hsign : sign = '+' ∨ sign = '-') :
      exponentCount ('e' :: sign :: (digits ++ rest)) = digits.length + 2 := by
    rw [exponentCount, if_pos (.inl rfl), if_pos hsign, hcount, if_neg hpos]
  simp only [signText]
  split
  · rw [List.singleton_append, hsigned '-' (.inr rfl), List.length_singleton]
    omega
  · cases plusSign with
    | true =>
      rw [if_pos rfl, List.singleton_append, hsigned '+' (.inl rfl), List.length_singleton]
      omega
    | false =>
      -- The first digit is neither of the two signs.
      obtain ⟨c, tail, rfl⟩ := List.exists_cons_of_ne_nil hne
      have hc : c.isDigit = true := hdigits c List.mem_cons_self
      have hsign : ¬ (c = '+' ∨ c = '-') := by
        rintro (rfl | rfl) <;> cases hc
      rw [if_neg Bool.false_ne_true, List.nil_append, List.length_nil, Nat.zero_add]
      rw [List.cons_append] at hcount ⊢
      rw [exponentCount, if_pos (.inl rfl), if_neg hsign, hcount, if_neg hpos]

/-- An exponent is taken as a whole. -/
theorem exponentCount_exponentText (hrest : Apart rest) :
    exponentCount (n.exponentText ++ rest) = n.exponentText.length := by
  simp only [exponentText]
  cases n.exponent with
  | none => exact hrest.exponentCount_eq_zero
  | some k =>
    dsimp only
    rw [List.cons_append, List.append_assoc, exponentCount_signText n.plusSign k hrest]
    simp

theorem stop_exponent (hrest : Apart rest) :
    ∀ c ∈ (n.exponentText ++ rest).head?, c.isDigit = false := by
  simp only [exponentText]
  cases n.exponent with
  | none => exact hrest.isDigit_eq_false
  | some k => simp

theorem scanNumber_of_fraction {digits : List Char} (hfraction : n.fraction = some digits)
    (hrest : Apart rest) :
    scanNumber (n.text ++ rest) = (floatToken n.text, n.text.length) := by
  have hdigits : ∀ c ∈ digits, c.isDigit = true := by
    have h := n.fraction_isDigit
    rwa [hfraction] at h
  have htext : n.text = n.whole ++ '.' :: (digits ++ n.exponentText) := by
    rw [text, fractionText, hfraction, List.cons_append]
  have hlength : n.whole.length + 1 + digits.length + n.exponentText.length = n.text.length := by
    rw [htext]
    simp only [List.length_append, List.length_cons]
    omega
  have hsplit : n.text ++ rest = n.whole ++ '.' :: (digits ++ (n.exponentText ++ rest)) := by
    rw [htext]
    simp only [List.append_assoc, List.cons_append]
  have hcount := digitCount_append hdigits (n.stop_exponent hrest)
  have hwhole : digitCount (n.text ++ rest) = n.whole.length := by
    rw [hsplit]
    exact digitCount_append n.whole_isDigit (by simp)
  unfold scanNumber
  rw [hwhole]
  dsimp only
  rw [hsplit, List.drop_left]
  simp only
  rw [hcount, List.drop_left, n.exponentCount_exponentText hrest, hlength, ← hsplit,
    List.take_left]

theorem scanNumber_of_exponent {k : ℤ} (hfraction : n.fraction = none) (hk : n.exponent = some k)
    (hrest : Apart rest) :
    scanNumber (n.text ++ rest) = (floatToken n.text, n.text.length) := by
  have htext : n.text = n.whole ++ n.exponentText := by
    rw [text, fractionText, hfraction, List.nil_append]
  have hlength : n.whole.length + n.exponentText.length = n.text.length := by
    rw [htext, List.length_append]
  have hsplit : n.text ++ rest = n.whole ++ (n.exponentText ++ rest) := by
    rw [htext, List.append_assoc]
  have hpos : n.exponentText.length ≠ 0 := by
    rw [exponentText, hk]
    simp
  have hwhole : digitCount (n.text ++ rest) = n.whole.length := by
    rw [hsplit]
    exact digitCount_append n.whole_isDigit (n.stop_exponent hrest)
  unfold scanNumber
  rw [hwhole]
  dsimp only
  rw [hsplit, List.drop_left]
  split
  · next tail hdot =>
    rw [exponentText, hk] at hdot
    cases hdot
  · rw [n.exponentCount_exponentText hrest, if_neg hpos, hlength, ← hsplit, List.take_left]

/-- A numeral with a point or an exponent is taken as a whole, as a float. -/
theorem scanNumber_text (hn : n.fraction.isSome = true ∨ n.exponent.isSome = true)
    (hrest : Apart rest) :
    scanNumber (n.text ++ rest) = (floatToken n.text, n.text.length) := by
  cases hfraction : n.fraction with
  | some digits => exact n.scanNumber_of_fraction hfraction hrest
  | none =>
    rw [hfraction] at hn
    rcases hn with hn | hn
    · cases hn
    · obtain ⟨k, hk⟩ := Option.isSome_iff_exists.1 hn
      exact n.scanNumber_of_exponent hfraction hk hrest

end Decimal.Numeral

/-- A decimal of any layout in front of a text, as the float that it is read as. -/
theorem Lexes.unsigned {l : Decimal.Layout} {d : Decimal.Scientific} {rest : List Char}
    {ts : List Token} (htrim : d.trim = d) (hrest : Apart rest) (h : Lexes rest ts) :
    Lexes (l.unsigned d ++ rest) (.float (Decimal.ofSignAndBits false d.toBits) :: ts) := by
  have hread := Decimal.read_unsigned l htrim
  obtain ⟨n, ⟨hn, -⟩, htext⟩ := Decimal.exists_numeral_unsigned l d
  obtain ⟨c, tail, hcons, hc⟩ := n.exists_text_eq
  rw [← htext] at hread ⊢
  refine .number ?_ ?_ ?_ h
  · rw [hcons]
    rintro _ ⟨⟩
    exact hc
  · rw [hcons]
    exact List.cons_ne_nil c tail
  · rw [n.scanNumber_text hn hrest, floatToken, hread]

/-! ## Names -/

theorem isNameStart_spec {c : Char} (h : isNameStart c = true) :
    isSpace c = false ∧ c.isDigit = false := by
  rw [isNameStart, Bool.or_eq_true, decide_eq_true_eq] at h
  constructor
  · by_contra hspace
    simp only [isSpace, Bool.not_eq_false, Bool.or_eq_true, decide_eq_true_eq] at hspace
    rcases hspace with (((rfl | rfl) | rfl) | rfl) | rfl <;> revert h <;> decide
  · by_contra hdigit
    rw [Bool.not_eq_false, Char.isDigit_iff_toNat] at hdigit
    rcases h with h | rfl
    · simp only [Char.isAlpha, Char.isUpper, Char.isLower, Bool.or_eq_true, Bool.and_eq_true,
        decide_eq_true_eq, ge_iff_le, UInt32.le_iff_toNat_le] at h
      change ('A'.toNat ≤ c.toNat ∧ _) ∨ ('a'.toNat ≤ c.toNat ∧ _) at h
      have hnine : '9'.toNat < 'A'.toNat := by decide
      have hcase : 'A'.toNat < 'a'.toNat := by decide
      omega
    · exact absurd hdigit (by decide)

/-- A name or a reserved word in front of a text. -/
theorem Lexes.word {word rest : List Char} {ts : List Token} (hne : word ≠ [])
    (hstart : word.head?.all isNameStart = true) (hname : word.all isNameChar = true)
    (hrest : Apart rest) (h : Lexes rest ts) : Lexes (word ++ rest) (wordToken word :: ts) := by
  obtain ⟨c, tail, rfl⟩ := List.exists_cons_of_ne_nil hne
  have hc : isNameStart c = true := hstart
  rw [List.all_eq_true] at hname
  obtain ⟨hspace, hdigit⟩ := isNameStart_spec hc
  have htail : (tail ++ rest).takeWhile isNameChar = tail := by
    rw [List.takeWhile_append_of_pos fun d hd => hname d (List.mem_cons_of_mem c hd)]
    cases rest with
    | nil => simp
    | cons d rest => simp [(hrest d rfl).1]
  rw [List.cons_append]
  have hscan : scan c (tail ++ rest) = (.token (wordToken (c :: tail)), tail.length) := by
    simp only [scan]
    rw [if_neg (by simp [hspace]), if_neg (by simp [hdigit]), if_pos hc, htail]
  refine .token hscan ?_
  rw [List.drop_left]
  exact h

/-- A reserved word in front of a text. -/
theorem Lexes.keyword (word : Keyword) {rest : List Char} {ts : List Token} (hrest : Apart rest)
    (h : Lexes rest ts) : Lexes (word.text.toList ++ rest) (.keyword word :: ts) := by
  have htoken : wordToken word.text.toList = .keyword word := by cases word <;> rfl
  have hne : word.text.toList ≠ [] := by cases word <;> decide
  have hstart : word.text.toList.head?.all isNameStart = true := by cases word <;> rfl
  have hname : word.text.toList.all isNameChar = true := by cases word <;> rfl
  rw [← htoken]
  exact .word hne hstart hname hrest h

/-- A name as source text can have it: letters, digits and underscores without a digit at the front,
and no reserved word. -/
structure IsIdentifier (word : String) : Prop where
  ne_empty : word ≠ ""
  start : word.toList.head?.all isNameStart = true
  chars : word.toList.all isNameChar = true
  unreserved : Keyword.ofText? word = none

instance (word : String) : Decidable (IsIdentifier word) :=
  decidable_of_iff (word ≠ "" ∧ word.toList.head?.all isNameStart = true ∧
      word.toList.all isNameChar = true ∧ Keyword.ofText? word = none)
    ⟨fun ⟨ne, start, chars, free⟩ => ⟨ne, start, chars, free⟩,
      fun ⟨ne, start, chars, free⟩ => ⟨ne, start, chars, free⟩⟩

/-- A name in front of a text. -/
theorem Lexes.identifier {word : String} (hword : IsIdentifier word) {rest : List Char}
    {ts : List Token} (hrest : Apart rest) (h : Lexes rest ts) :
    Lexes (word.toList ++ rest) (.ident word :: ts) := by
  have htoken : wordToken word.toList = .ident word := by
    rw [wordToken, String.ofList_toList, hword.unreserved]
  have hne : word.toList ≠ [] := by simpa using hword.ne_empty
  rw [← htoken]
  exact .word hne hword.start hword.chars hrest h

/-! ## Signs -/

/-- A minus sign that is not the start of an arrow. -/
theorem Lexes.minus {c : Char} {rest : List Char} {ts : List Token} (hc : c ≠ '>')
    (h : Lexes (c :: rest) ts) : Lexes ('-' :: c :: rest) (.punct .minus :: ts) := by
  have hscan : scan '-' (c :: rest) = (.token (.punct .minus), 0) := by
    simp only [scan]
    simp [hc, isSpace, isNameStart, Char.isDigit, Char.isAlpha, punct?]
  exact .token hscan h

/-- The tokens of a number: its magnitude, behind a minus sign if it has one. -/
def numberTokens (v : Float) : List Token :=
  (if Decimal.isNegative v then [.punct .minus] else []) ++
    [.float (Decimal.ofSignAndBits false (Decimal.magnitudeBits v))]

/-- **A finite float in front of a text.** -/
theorem Lexes.float {v : Float} {rest : List Char} {ts : List Token} (h : Lexes rest ts)
    (hv : v.isFinite) (hrest : Apart rest) :
    Lexes ((Decimal.Layout.source.text v).toList ++ rest) (numberTokens v ++ ts) := by
  have hlt := Decimal.magnitudeBits_lt hv
  have hnan : ¬ Decimal.infinityBits < Decimal.magnitudeBits v := by omega
  have hinf : ¬ Decimal.magnitudeBits v = Decimal.infinityBits := by omega
  obtain ⟨hbits, htrim⟩ := Decimal.toBits_shortest Decimal.Layout.source.tie hlt
  have hunsigned := Lexes.unsigned (l := .source) htrim hrest h
  rw [hbits] at hunsigned
  rw [Decimal.Layout.text]
  dsimp only
  rw [if_neg hnan, if_neg hinf, String.toList_ofList, numberTokens]
  cases Decimal.isNegative v with
  | false => exact hunsigned
  | true =>
    obtain ⟨n, -, htext⟩ := Decimal.exists_numeral_unsigned .source
      (Decimal.shortest Decimal.Layout.source.tie (Decimal.magnitudeBits v))
    obtain ⟨c, tail, hcons, hc⟩ := n.exists_text_eq
    rw [← htext, hcons] at hunsigned ⊢
    refine Lexes.minus ?_ hunsigned
    rintro rfl
    cases hc

end FlatQasm
