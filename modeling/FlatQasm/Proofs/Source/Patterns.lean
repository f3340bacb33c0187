import FlatQasm.Proofs.Decimal.Written
import FlatQasm.Source.Lexeme
import Mathlib.Computability.Language

/-!
# The patterns of lexemes

What may stand in a source text, as languages: blanks and comments, and a pattern for each kind of
token.  Floats have three patterns.  A text that matches one of the patterns of floats is always
read, so that no number is an error.

## Main definitions

* `Pattern`, `Pattern.language` — the patterns, and the texts that match them.
* `Token.SpelledAs` — a text matches the pattern of a token and stands for it.
* `LexemeKind.Fits` — what a piece of text is, by its own characters alone.

## Main statements

* `Decimal.exists_read_of_float` — every float that matches a pattern is read.
* `exists_pattern_of_fits` — what a piece of text is comes from a pattern.
-/

namespace FlatQasm

/-- The patterns of lexemes: two for what stands between tokens, and those of the tokens. -/
inductive Pattern where
  | blanks
  | comment
  | keyword (word : Keyword)
  | punct (sign : Punct)
  | integer
  | pointFloat
  | fractionFloat
  | exponentFloat
  | string
  | name

namespace Pattern

/-- One or more digits. -/
def digits : Language Char := {s | s ≠ [] ∧ ∀ c ∈ s, c.isDigit = true}

/-- The letter of an exponent, an optional sign and digits. -/
def exponent : Language Char := {['e'], ['E']} * {[], ['+'], ['-']} * digits

/-- Text that does not go beyond a line. -/
def line : Language Char := {s | '\n' ∉ s}

/-- What can stand between quotation marks. -/
def quotable : Language Char := {s | ∀ c ∈ s, c ≠ '"' ∧ c ≠ '\n'}

/-- The texts that match a pattern. -/
def language : Pattern → Language Char
  | blanks => {s | s ≠ [] ∧ ∀ c ∈ s, c ∈ [' ', '\t', '\r', '\n', '\x0c']}
  | comment => {['/', '/']} * line
  | keyword word => {word.text.toList}
  | punct sign => {sign.text.toList}
  | integer => digits
  | pointFloat => digits * {['.']} * (digits + 1) * (exponent + 1)
  | fractionFloat => {['.']} * digits * (exponent + 1)
  | exponentFloat => digits * exponent
  | string => {['"']} * quotable * {['"']}
  | name => {s | ∃ c rest, s = c :: rest ∧ isNameStart c = true ∧ ∀ d ∈ rest, isNameChar d = true}

/-- The floats. -/
def float : Language Char := pointFloat.language + fractionFloat.language + exponentFloat.language

/-! ## The parts of a number -/

theorem isDigit_of_mem_optional {d : List Char} (hd : d ∈ digits + 1) :
    ∀ c ∈ d, c.isDigit = true := by
  rcases hd with hd | hd
  · exact hd.2
  · rw [(Language.mem_one d).1 hd]
    exact List.forall_mem_nil _

theorem mem_optional_of_isDigit {d : List Char} (hd : ∀ c ∈ d, c.isDigit = true) :
    d ∈ digits + 1 := by
  cases d with
  | nil => exact .inr rfl
  | cons c rest => exact .inl ⟨List.cons_ne_nil c rest, hd⟩

theorem mem_exponent {x : List Char} : x ∈ exponent ↔ ∃ e sign d, x = e :: (sign ++ d) ∧
    (e = 'e' ∨ e = 'E') ∧ (sign = [] ∨ sign = ['+'] ∨ sign = ['-']) ∧ d ∈ digits := by
  constructor
  · rintro ⟨_, ⟨e, he, sign, hsign, rfl⟩, d, hd, rfl⟩
    rcases he with rfl | rfl
    · exact ⟨'e', sign, d, rfl, .inl rfl, hsign, hd⟩
    · exact ⟨'E', sign, d, rfl, .inr rfl, hsign, hd⟩
  · rintro ⟨e, sign, d, rfl, he, hsign, hd⟩
    refine ⟨[e] ++ sign, ⟨[e], ?_, sign, hsign, rfl⟩, d, hd, rfl⟩
    rcases he with rfl | rfl
    · exact .inl rfl
    · exact .inr rfl

theorem mem_pointFloat {s : List Char} : s ∈ pointFloat.language ↔ ∃ w d x,
    s = w ++ '.' :: (d ++ x) ∧ w ∈ digits ∧ (∀ c ∈ d, c.isDigit = true) ∧ x ∈ exponent + 1 := by
  constructor
  · rintro ⟨_, ⟨_, ⟨w, hw, _, rfl, rfl⟩, d, hd, rfl⟩, x, hx, rfl⟩
    exact ⟨w, d, x, by simp, hw, isDigit_of_mem_optional hd, hx⟩
  · rintro ⟨w, d, x, rfl, hw, hd, hx⟩
    exact ⟨w ++ ['.'] ++ d, ⟨w ++ ['.'], ⟨w, hw, ['.'], rfl, rfl⟩, d, mem_optional_of_isDigit hd,
      rfl⟩, x, hx, by simp⟩

/-- A number that starts with no point starts with a digit. -/
theorem isDigit_of_number {c : Char} {rest : List Char}
    (h : c :: rest ∈ integer.language ∨ c :: rest ∈ pointFloat.language ∨
      c :: rest ∈ exponentFloat.language) : c.isDigit = true := by
  rcases h with h | h | h
  · exact h.2 c List.mem_cons_self
  · obtain ⟨w, d, x, heq, hw, -⟩ := mem_pointFloat.1 h
    obtain ⟨c', w, rfl⟩ := List.exists_cons_of_ne_nil hw.1
    obtain ⟨rfl, -⟩ := List.cons.inj heq
    exact hw.2 c List.mem_cons_self
  · obtain ⟨w, hw, x, -, heq⟩ := h
    obtain ⟨c', w, rfl⟩ := List.exists_cons_of_ne_nil hw.1
    obtain ⟨rfl, -⟩ := List.cons.inj heq
    exact hw.2 c' List.mem_cons_self

theorem mem_fractionFloat {s : List Char} : s ∈ fractionFloat.language ↔ ∃ d x,
    s = '.' :: (d ++ x) ∧ d ∈ digits ∧ x ∈ exponent + 1 := by
  constructor
  · rintro ⟨_, ⟨_, rfl, d, hd, rfl⟩, x, hx, rfl⟩
    exact ⟨d, x, rfl, hd, hx⟩
  · rintro ⟨d, x, rfl, hd, hx⟩
    exact ⟨'.' :: d, ⟨['.'], rfl, d, hd, rfl⟩, x, hx, rfl⟩

/-- A float has more than digits: a point or the letter of an exponent. -/
theorem not_mem_integer_of_float {s : List Char} (hs : s ∈ float) : s ∉ integer.language := by
  have of_mem {c : Char} (hc : c ∈ s) (hdigit : c.isDigit = false) : s ∉ integer.language := by
    intro h
    rw [h.2 c hc] at hdigit
    cases hdigit
  rcases hs with (hs | hs) | hs
  · obtain ⟨w, d, x, rfl, -⟩ := mem_pointFloat.1 hs
    exact of_mem (c := '.') (by simp) rfl
  · obtain ⟨d, x, rfl, -⟩ := mem_fractionFloat.1 hs
    exact of_mem (c := '.') (by simp) rfl
  · obtain ⟨w, -, x, hx, rfl⟩ := hs
    obtain ⟨e, sign, d, rfl, he, -⟩ := mem_exponent.1 hx
    refine of_mem (c := e) (by simp) ?_
    rcases he with rfl | rfl <;> rfl

/-- No exponent starts with a digit. -/
theorem exponent_stops {x : List Char} (hx : x ∈ exponent) (z : List Char) :
    ∀ c ∈ (x ++ z).head?, c.isDigit = false := by
  obtain ⟨e, sign, d, rfl, he, -⟩ := mem_exponent.1 hx
  rcases he with rfl | rfl <;> rintro _ ⟨⟩ <;> rfl

theorem optionalExponent_stops {x : List Char} (hx : x ∈ exponent + 1) :
    ∀ c ∈ x.head?, c.isDigit = false := by
  rcases hx with hx | hx
  · simpa using exponent_stops hx []
  · simp [(Language.mem_one x).1 hx]

theorem mem_string {s : List Char} :
    s ∈ string.language ↔ ∃ content ∈ quotable, s = '"' :: (content ++ ['"']) := by
  constructor
  · rintro ⟨_, ⟨_, rfl, content, hcontent, rfl⟩, _, rfl, rfl⟩
    exact ⟨content, hcontent, rfl⟩
  · rintro ⟨content, hcontent, rfl⟩
    exact ⟨'"' :: content, ⟨['"'], rfl, content, hcontent, rfl⟩, ['"'], rfl, rfl⟩

theorem mem_comment {s : List Char} :
    s ∈ comment.language ↔ ∃ text, s = '/' :: '/' :: text ∧ '\n' ∉ text := by
  constructor
  · rintro ⟨_, rfl, text, htext, rfl⟩
    exact ⟨text, rfl, htext⟩
  · rintro ⟨text, rfl, htext⟩
    exact ⟨['/', '/'], rfl, text, htext, rfl⟩

theorem keyword_le_name (word : Keyword) : (keyword word).language ≤ name.language := by
  rintro _ rfl
  have hne : word.text.toList ≠ [] := by cases word <;> decide
  have hstart : word.text.toList.head?.all isNameStart = true := by cases word <;> rfl
  have hname : word.text.toList.all isNameChar = true := by cases word <;> rfl
  obtain ⟨c, rest, hcons⟩ := List.exists_cons_of_ne_nil hne
  rw [hcons] at hstart hname
  exact ⟨c, rest, hcons, hstart,
    fun d hd => List.all_eq_true.1 hname d (List.mem_cons_of_mem c hd)⟩

end Pattern

namespace Decimal

open FlatQasm.Pattern

/-! ## Floats are read -/

theorem exists_exponent? {x : List Char} (hx : x ∈ exponent) :
    ∃ e rest k, x = e :: rest ∧ (e = 'e' ∨ e = 'E') ∧ exponent? rest = some k := by
  obtain ⟨e, sign, d, rfl, he, hsign, hne, hd⟩ := mem_exponent.1 hx
  have hcheck : (d.isEmpty || !d.all Char.isDigit) = false := by
    simpa [hne] using hd
  rcases hsign with rfl | rfl | rfl
  · obtain ⟨c, rest, rfl⟩ := List.exists_cons_of_ne_nil hne
    have hc : c.isDigit = true := hd c List.mem_cons_self
    refine ⟨e, c :: rest, digitsValue (c :: rest), rfl, he, ?_⟩
    unfold exponent?
    split
    next negative digits heq =>
      split at heq
      · next h =>
        cases h
        cases hc
      · next h =>
        cases h
        cases hc
      · cases heq
        rw [hcheck]
        rfl
  · exact ⟨e, '+' :: d, digitsValue d, rfl, he, by simp [exponent?, hcheck]⟩
  · exact ⟨e, '-' :: d, -digitsValue d, rfl, he, by simp [exponent?, hcheck]⟩

section Numerals

variable {w d x : List Char} (hw : ∀ c ∈ w, c.isDigit = true) (hx : x ∈ exponent + 1)
include hw hx

/-- Digits with a point among them are read as a decimal. -/
theorem isSome_numeral?_point (hd : ∀ c ∈ d, c.isDigit = true) (hne : w ≠ [] ∨ d ≠ []) :
    (numeral? (w ++ '.' :: (d ++ x))).isSome = true := by
  have hstop := optionalExponent_stops hx
  have hpoint : ∀ c ∈ ('.' :: (d ++ x)).head?, c.isDigit = false := by simp
  obtain ⟨htake, hdrop⟩ := takeWhile_isDigit_append hw hpoint
  obtain ⟨htake', hdrop'⟩ := takeWhile_isDigit_append hd hstop
  have hsome : (w.isEmpty && d.isEmpty) = false := by
    simpa [or_iff_not_imp_left] using hne
  simp only [numeral?]
  rw [htake, hdrop]
  simp only [htake', hdrop', hsome, Bool.false_eq_true, if_false, Option.isSome_map]
  rcases hx with hx | hx
  · obtain ⟨e, rest, k, rfl, he, hk⟩ := exists_exponent? hx
    simp [he, hk]
  · rw [(Language.mem_one x).1 hx]
    rfl

/-- Digits with or without an exponent are read as a decimal. -/
theorem isSome_numeral?_whole (hne : w ≠ []) : (numeral? (w ++ x)).isSome = true := by
  have hstop := optionalExponent_stops hx
  obtain ⟨htake, hdrop⟩ := takeWhile_isDigit_append hw hstop
  have hsome : w.isEmpty = false := by simpa using hne
  simp only [numeral?]
  rw [htake, hdrop]
  rcases hx with hx | hx
  · obtain ⟨e, rest, k, rfl, he, hk⟩ := exists_exponent? hx
    have hpoint : e ≠ '.' := by
      rcases he with rfl | rfl <;> decide
    simp [he, hk, hpoint, hsome]
  · rw [(Language.mem_one x).1 hx]
    simp [hsome]

end Numerals

/-- A text that starts with a digit or with a point has no sign, and is none of the words. -/
theorem exists_read_eq_ok {c : Char} {rest : List Char} (hc : c.isDigit = true ∨ c = '.')
    (h : (numeral? (c :: rest)).isSome = true) : ∃ value, read (c :: rest) = .ok value := by
  obtain ⟨value, hvalue⟩ := Option.isSome_iff_exists.1 h
  rcases hc with hc | rfl
  · exact ⟨_, read_of_isDigit hc hvalue⟩
  · refine ⟨ofSignAndBits false value.toBits, ?_⟩
    have hlower : Char.toLower '.' = '.' := by decide
    simp [read, magnitude?, hlower, hvalue]

/-- **Every float that matches a pattern is read.** -/
theorem exists_read_of_float {s : List Char} (hs : s ∈ Pattern.float) :
    ∃ value, read s = .ok value := by
  rcases hs with (hs | hs) | hs
  · obtain ⟨w, d, x, rfl, hw, hd, hx⟩ := mem_pointFloat.1 hs
    have hnumeral := isSome_numeral?_point hw.2 hx hd (.inl hw.1)
    obtain ⟨c, rest, rfl⟩ := List.exists_cons_of_ne_nil hw.1
    exact exists_read_eq_ok (.inl (hw.2 c List.mem_cons_self)) hnumeral
  · obtain ⟨d, x, rfl, hd, hx⟩ := mem_fractionFloat.1 hs
    exact exists_read_eq_ok (.inr rfl)
      (isSome_numeral?_point (List.forall_mem_nil _) hx hd.2 (.inr hd.1))
  · obtain ⟨w, hw, x, hx, rfl⟩ := hs
    have hnumeral := isSome_numeral?_whole hw.2 (x := x) (.inl hx) hw.1
    obtain ⟨c, rest, rfl⟩ := List.exists_cons_of_ne_nil hw.1
    exact exists_read_eq_ok (.inl (hw.2 c List.mem_cons_self)) hnumeral

end Decimal

/-! ## What a lexeme is spelled like -/

/-- A text matches the pattern of a token and stands for the token.  A name is no reserved word. -/
def Token.SpelledAs (s : List Char) : Token → Prop
  | .keyword word => s ∈ (Pattern.keyword word).language
  | .punct sign => s ∈ (Pattern.punct sign).language
  | .float value => s ∈ Pattern.float ∧ Decimal.read s = .ok value
  | .int (.word value) => s ∈ Pattern.integer.language ∧ value.toNat = Decimal.digitsValue s
  | .int (.wide written) => s ∈ Pattern.integer.language ∧ UInt64.size ≤ Decimal.digitsValue s ∧
      written = s
  | .string content => s ∈ Pattern.string.language ∧ s = '"' :: (content.toList ++ ['"'])
  | .ident name => s ∈ Pattern.name.language ∧ name.toList = s ∧
      ∀ word : Keyword, s ∉ (Pattern.keyword word).language

/-- What a piece of text is, by its own characters alone. -/
def LexemeKind.Fits (s : List Char) : LexemeKind → Prop
  | .skip => s ∈ Pattern.blanks.language ∨ s ∈ Pattern.comment.language
  | .token t => t.SpelledAs s
  | .invalid => False

/-- What a piece of text is comes from a pattern. -/
theorem exists_pattern_of_fits {kind : LexemeKind} {s : List Char} (h : kind.Fits s) :
    ∃ p : Pattern, s ∈ p.language := by
  match kind, h with
  | .skip, .inl hs => exact ⟨.blanks, hs⟩
  | .skip, .inr hs => exact ⟨.comment, hs⟩
  | .token (.keyword word), hs => exact ⟨.keyword word, hs⟩
  | .token (.punct sign), hs => exact ⟨.punct sign, hs⟩
  | .token (.float _), ⟨.inl (.inl hs), _⟩ => exact ⟨.pointFloat, hs⟩
  | .token (.float _), ⟨.inl (.inr hs), _⟩ => exact ⟨.fractionFloat, hs⟩
  | .token (.float _), ⟨.inr hs, _⟩ => exact ⟨.exponentFloat, hs⟩
  | .token (.int (.word _)), ⟨hs, _⟩ => exact ⟨.integer, hs⟩
  | .token (.int (.wide _)), ⟨hs, _⟩ => exact ⟨.integer, hs⟩
  | .token (.string _), ⟨hs, _⟩ => exact ⟨.string, hs⟩
  | .token (.ident _), ⟨hs, _⟩ => exact ⟨.name, hs⟩

end FlatQasm
