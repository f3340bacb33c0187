import FlatQasm.Proofs.Source.Lexing
import FlatQasm.Proofs.Source.Patterns

/-!
# The lexeme at the front of a text

The scanner is compared with the patterns.  What it takes matches a pattern and stands for the token
that is given, and every pattern that matches at the same place matches no more.  An error is given
exactly where no pattern matches.  Since no text stands for two tokens, the longest match alone says
what is scanned.

## Main definitions

* `Scans` — a text starts with a lexeme.
* `Unscannable` — what an error covers.

## Main statements

* `exists_scans` — the lexeme at the front of a text, and what it is spelled like.
* `Scans.longest` — no pattern matches more.
* `scans_of_fits` — the longest match is scanned.
-/

namespace FlatQasm

open Pattern

/-- The text `l ++ z` starts with the lexeme `l`. -/
inductive Scans : LexemeKind → List Char → List Char → Prop where
  | intro {kind : LexemeKind} {c : Char} {l z : List Char}
      (h : scan c (l ++ z) = (kind, l.length)) : Scans kind (c :: l) z

namespace Scans

variable {kind kind' : LexemeKind} {l l' z z' : List Char}

theorem ne_nil (h : Scans kind l z) : l ≠ [] := by
  cases h
  exact List.cons_ne_nil _ _

theorem lexemes_eq (h : Scans kind l z) : lexemes (l ++ z) = ⟨kind, l⟩ :: lexemes z := by
  cases h with
  | intro h =>
    rw [List.cons_append, lexemes, h]
    dsimp only
    rw [List.take_left, List.drop_left]

theorem scan_eq (h : Scans kind l z) {c : Char} {rest : List Char} (heq : c :: rest = l ++ z) :
    scan c rest = (kind, l.length - 1) := by
  cases h with
  | intro h =>
    obtain ⟨rfl, rfl⟩ := List.cons.inj heq
    exact h

/-- A text starts with a single lexeme. -/
theorem unique (h : Scans kind l z) (h' : Scans kind' l' z') (heq : l ++ z = l' ++ z') :
    kind = kind' ∧ l = l' ∧ z = z' := by
  obtain ⟨c, rest, hcons⟩ := List.exists_cons_of_ne_nil h.ne_nil
  have hfirst : c :: (rest ++ z) = l ++ z := by rw [hcons, List.cons_append]
  have hscan := h.scan_eq hfirst
  rw [h'.scan_eq (by rw [← heq, hcons, List.cons_append])] at hscan
  obtain ⟨rfl, hlength⟩ := Prod.mk.inj hscan
  have hpos := List.length_pos_iff.2 h.ne_nil
  have hpos' := List.length_pos_iff.2 h'.ne_nil
  obtain ⟨rfl, rfl⟩ := List.append_inj heq (by omega)
  exact ⟨rfl, rfl, rfl⟩

end Scans

/-- What an error covers: a single character, or a quotation mark and the rest of its line, which
has no other one. -/
def Unscannable (l behind : List Char) : Prop :=
  (∃ c, c ≠ '"' ∧ l = [c]) ∨
    ∃ content ∈ quotable, l = '"' :: content ∧ ∀ c ∈ behind.head?, c = '\n'

/-- A text in two parts, where the first has a property throughout and the second does not start
with it. -/
theorem exists_takeWhile (p : Char → Bool) (text : List Char) : ∃ a z, text = a ++ z ∧
    text.takeWhile p = a ∧ (∀ c ∈ a, p c = true) ∧ ∀ c ∈ z.head?, p c = false := by
  refine ⟨text.takeWhile p, text.dropWhile p, List.takeWhile_append_dropWhile.symm, rfl,
    fun c hc => List.mem_takeWhile_imp hc, fun c hc => ?_⟩
  have h := List.head?_dropWhile_not p text
  rw [Option.mem_def.1 hc] at h
  exact h

theorem length_le_digitCount {d : List Char} (hd : ∀ c ∈ d, c.isDigit = true) (z : List Char) :
    d.length ≤ digitCount (d ++ z) := by
  rw [digitCount, List.takeWhile_append_of_pos hd, List.length_append]
  exact Nat.le_add_right _ _

/-- An exponent at the front of a text is counted. -/
theorem length_le_exponentCount {x : List Char} (hx : x ∈ exponent) (z : List Char) :
    x.length ≤ exponentCount (x ++ z) := by
  obtain ⟨e, sign, d, rfl, he, hsign, hne, hd⟩ := mem_exponent.1 hx
  have hcount := length_le_digitCount hd z
  have hpos := List.length_pos_iff.2 hne
  rcases hsign with rfl | rfl | rfl
  · -- The first digit is neither of the two signs.
    obtain ⟨c, rest, rfl⟩ := List.exists_cons_of_ne_nil hne
    have hc : c.isDigit = true := hd c List.mem_cons_self
    have hsign : ¬ (c = '+' ∨ c = '-') := by
      rintro (rfl | rfl) <;> cases hc
    simp only [List.nil_append, List.cons_append, exponentCount, if_pos he, if_neg hsign,
      List.length_cons] at hcount ⊢
    rw [if_neg (by omega)]
    omega
  · simp only [List.cons_append, List.nil_append, exponentCount, if_pos he, true_or, if_true,
      List.length_cons]
    rw [if_neg (by omega)]
    omega
  · simp only [List.cons_append, List.nil_append, exponentCount, if_pos he, or_true, if_true,
      List.length_cons]
    rw [if_neg (by omega)]
    omega

/-- What is counted is an exponent, or nothing. -/
theorem exists_exponent (text : List Char) :
    ∃ x z, text = x ++ z ∧ exponentCount text = x.length ∧ x ∈ exponent + 1 := by
  have nothing (h : exponentCount text = 0) :
      ∃ x z, text = x ++ z ∧ exponentCount text = x.length ∧ x ∈ exponent + 1 :=
    ⟨[], text, rfl, h, .inr rfl⟩
  have digits (e : Char) (sign : List Char) (rest : List Char) (he : e = 'e' ∨ e = 'E')
      (hsign : sign = [] ∨ sign = ['+'] ∨ sign = ['-']) (htext : text = e :: (sign ++ rest))
      (hcount : exponentCount text = digitCount rest + (sign.length + 1))
      (hpos : digitCount rest ≠ 0) :
      ∃ x z, text = x ++ z ∧ exponentCount text = x.length ∧ x ∈ exponent + 1 := by
    obtain ⟨d, z, rfl, -, hd, hz⟩ := exists_takeWhile Char.isDigit rest
    rw [digitCount_append hd hz] at hcount hpos
    have hx : e :: (sign ++ d) ∈ exponent :=
      mem_exponent.2 ⟨e, sign, d, rfl, he, hsign, by rintro rfl; exact hpos rfl, hd⟩
    refine ⟨e :: (sign ++ d), z, by simp [htext], ?_, .inl hx⟩
    rw [hcount, List.length_cons, List.length_append]
    omega
  match text with
  | [] => exact nothing rfl
  | [_] => exact nothing rfl
  | e :: sign :: rest =>
    by_cases he : e = 'e' ∨ e = 'E'
    swap
    · exact nothing (if_neg he)
    by_cases hsign : sign = '+' ∨ sign = '-'
    · by_cases hpos : digitCount rest = 0
      · exact nothing (by rw [exponentCount, if_pos he, if_pos hsign, if_pos hpos])
      · refine digits e [sign] rest he ?_ rfl ?_ hpos
        · rcases hsign with rfl | rfl
          · exact .inr (.inl rfl)
          · exact .inr (.inr rfl)
        · rw [exponentCount, if_pos he, if_pos hsign, if_neg hpos]
          rfl
    · by_cases hpos : digitCount (sign :: rest) = 0
      · exact nothing (by rw [exponentCount, if_pos he, if_neg hsign, if_pos hpos])
      · refine digits e [] (sign :: rest) he (.inl rfl) rfl ?_ hpos
        rw [exponentCount, if_pos he, if_neg hsign, if_neg hpos]
        rfl

/-! ## Numbers -/

section Numbers

variable {w r : List Char} (hw : w ∈ digits) (hr : ∀ c ∈ r.head?, c.isDigit = false)
include hw hr

theorem scanNumber_point {rest : List Char} (hrest : r = '.' :: rest) :
    scanNumber (w ++ r) = (floatToken ((w ++ r).take (w.length + 1 + digitCount rest +
        exponentCount (rest.drop (digitCount rest)))),
      w.length + 1 + digitCount rest + exponentCount (rest.drop (digitCount rest))) := by
  unfold scanNumber
  rw [digitCount_append hw.2 hr]
  dsimp only
  rw [List.drop_left]
  subst hrest
  rfl

theorem scanNumber_noPoint (hpoint : ∀ rest, r ≠ '.' :: rest) :
    scanNumber (w ++ r) = if exponentCount r = 0 then (.token (.int (.ofDigits w)), w.length)
      else (floatToken ((w ++ r).take (w.length + exponentCount r)),
        w.length + exponentCount r) := by
  unfold scanNumber
  rw [digitCount_append hw.2 hr]
  dsimp only
  rw [List.drop_left, List.take_left]
  split
  · exact absurd rfl (hpoint _)
  · rfl

/-- A number is an integer or a float of one of two patterns. -/
theorem exists_scanNumber_eq : ∃ l z, w ++ r = l ++ z ∧ l ≠ [] ∧
    (scanNumber (w ++ r) = (.token (.int (.ofDigits l)), l.length) ∧ l ∈ integer.language ∨
      scanNumber (w ++ r) = (floatToken l, l.length) ∧
        (l ∈ pointFloat.language ∨ l ∈ exponentFloat.language)) := by
  by_cases hpoint : ∃ rest, r = '.' :: rest
  · obtain ⟨rest, hrest⟩ := hpoint
    obtain ⟨d, behind, hd, -, hdigits, hbehind⟩ := exists_takeWhile Char.isDigit rest
    obtain ⟨x, z, hx, hcount, hexponent⟩ := exists_exponent behind
    have hscan := scanNumber_point hw hr hrest
    rw [hd, digitCount_append hdigits hbehind, List.drop_left, hcount] at hscan
    have hsplit : w ++ r = w ++ '.' :: (d ++ x) ++ z := by
      rw [hrest, hd, hx]
      simp
    have hlength : w.length + 1 + d.length + x.length = (w ++ '.' :: (d ++ x)).length := by
      simp only [List.length_append, List.length_cons]
      omega
    rw [hlength, hsplit, List.take_left] at hscan
    refine ⟨w ++ '.' :: (d ++ x), z, hsplit, by simp, .inr ⟨?_, .inl ?_⟩⟩
    · rw [hsplit, hscan]
    · exact mem_pointFloat.2 ⟨w, d, x, rfl, hw, hdigits, hexponent⟩
  · have hscan := scanNumber_noPoint hw hr (not_exists.1 hpoint)
    obtain ⟨x, z, rfl, hcount, hexponent⟩ := exists_exponent r
    rcases hexponent with hexponent | hexponent
    · obtain ⟨e, sign, d, hx, -⟩ := mem_exponent.1 hexponent
      have hne : x.length ≠ 0 := by simp [hx]
      rw [hcount, if_neg hne, ← List.append_assoc, ← List.length_append, List.take_left] at hscan
      refine ⟨w ++ x, z, by rw [List.append_assoc], by simp [hw.1], .inr ⟨?_, .inr ?_⟩⟩
      · rw [← List.append_assoc, hscan]
      · exact ⟨w, hw, x, hexponent, rfl⟩
    · rw [(Language.mem_one x).1 hexponent] at hscan hcount ⊢
      rw [hcount, List.length_nil, if_pos rfl] at hscan
      exact ⟨w, z, rfl, hw.1, .inl ⟨hscan, hw⟩⟩

end Numbers

theorem spelledAs_ofDigits {l : List Char} (hl : l ∈ integer.language) :
    (Token.int (.ofDigits l)).SpelledAs l := by
  by_cases h : Decimal.digitsValue l < UInt64.size
  · have hliteral : IntLiteral.ofDigits l = .word (UInt64.ofNat (Decimal.digitsValue l)) := if_pos h
    rw [hliteral]
    exact ⟨hl, UInt64.toNat_ofNat_of_lt' h⟩
  · have hliteral : IntLiteral.ofDigits l = .wide l := if_neg h
    rw [hliteral]
    exact ⟨hl, Nat.le_of_not_lt h, rfl⟩

theorem exists_floatToken_eq {l : List Char} (hl : l ∈ Pattern.float) :
    ∃ value, floatToken l = .token (.float value) ∧ Decimal.read l = .ok value := by
  obtain ⟨value, hvalue⟩ := Decimal.exists_read_of_float hl
  exact ⟨value, by rw [floatToken, hvalue], hvalue⟩

theorem fits_floatToken {l : List Char} (hl : l ∈ Pattern.float) : (floatToken l).Fits l := by
  obtain ⟨value, htoken, hvalue⟩ := exists_floatToken_eq hl
  rw [htoken]
  exact ⟨hl, hvalue⟩

/-- A number at the front of a text is as long as any pattern of numbers matches. -/
theorem length_le_scanNumber {s : List Char}
    (hs : s ∈ integer.language ∨ s ∈ pointFloat.language ∨ s ∈ exponentFloat.language)
    (z : List Char) : s.length ≤ (scanNumber (s ++ z)).2 := by
  rcases hs with hs | hs | hs
  · obtain ⟨d, r, rfl, -, hd, hr⟩ := exists_takeWhile Char.isDigit z
    have hall : s ++ d ∈ digits :=
      ⟨by simp [hs.1], List.forall_mem_append.2 ⟨hs.2, hd⟩⟩
    rw [← List.append_assoc]
    by_cases hpoint : ∃ rest, r = '.' :: rest
    · obtain ⟨rest, hrest⟩ := hpoint
      rw [scanNumber_point hall hr hrest, List.length_append]
      dsimp only
      omega
    · rw [scanNumber_noPoint hall hr (not_exists.1 hpoint)]
      split <;> simp only [List.length_append] <;> omega
  · obtain ⟨w, d, x, rfl, hw, hd, hx⟩ := mem_pointFloat.1 hs
    have hsplit : w ++ '.' :: (d ++ x) ++ z = w ++ '.' :: (d ++ (x ++ z)) := by simp
    rw [hsplit, scanNumber_point hw (by simp) rfl]
    rcases hx with hx | hx
    · have hexponent := length_le_exponentCount hx z
      rw [digitCount_append hd (exponent_stops hx z), List.drop_left]
      simp only [List.length_append, List.length_cons]
      omega
    · rw [(Language.mem_one x).1 hx]
      have hcount := length_le_digitCount hd z
      simp only [List.length_append, List.length_cons, List.length_nil, List.nil_append]
      omega
  · obtain ⟨w, hw, x, hx, rfl⟩ := hs
    have hcount := length_le_exponentCount hx z
    obtain ⟨e, sign, d, rfl, he, -⟩ := mem_exponent.1 hx
    have hpoint : ∀ rest, e :: (sign ++ d) ++ z ≠ '.' :: rest := by
      rintro rest h
      obtain ⟨rfl, -⟩ := List.cons.inj h
      rcases he with h | h <;> cases h
    have hpos : exponentCount (e :: (sign ++ d) ++ z) ≠ 0 := by
      rw [List.length_cons] at hcount
      omega
    rw [List.append_assoc, scanNumber_noPoint hw (exponent_stops hx z) hpoint,
      if_neg hpos, List.length_append]
    dsimp only
    omega

theorem scans_of_scanNumber {kind : LexemeKind} {l z : List Char} (hne : l ≠ [])
    (hdigit : ∀ c ∈ l.head?, c.isDigit = true) (h : scanNumber (l ++ z) = (kind, l.length)) :
    Scans kind l z := by
  obtain ⟨c, l, rfl⟩ := List.exists_cons_of_ne_nil hne
  refine .intro ?_
  rw [scan_of_isDigit (hdigit c rfl), ← List.cons_append, h]
  rfl

/-- The number at the front of a text that starts with a digit. -/
theorem exists_scans_number {c : Char} (hc : c.isDigit = true) (rest : List Char) :
    ∃ kind l z, c :: rest = l ++ z ∧ Scans kind l z ∧ scanNumber (c :: rest) = (kind, l.length) ∧
      (kind = .token (.int (.ofDigits l)) ∧ l ∈ integer.language ∨
        kind = floatToken l ∧ (l ∈ pointFloat.language ∨ l ∈ exponentFloat.language)) := by
  obtain ⟨d, r, rfl, -, hd, hr⟩ := exists_takeWhile Char.isDigit rest
  have hw : c :: d ∈ digits := ⟨List.cons_ne_nil c d, List.forall_mem_cons.2 ⟨hc, hd⟩⟩
  obtain ⟨l, z, hsplit, hne, hscan⟩ := exists_scanNumber_eq hw hr
  have hdigit : ∀ c ∈ l.head?, c.isDigit = true := by
    obtain ⟨c', l, rfl⟩ := List.exists_cons_of_ne_nil hne
    obtain ⟨rfl, -⟩ := List.cons.inj hsplit
    rintro _ ⟨⟩
    exact hc
  rw [List.cons_append] at hscan hsplit
  rcases hscan with ⟨hscan, hl⟩ | ⟨hscan, hl⟩
  · exact ⟨.token (.int (.ofDigits l)), l, z, hsplit,
      scans_of_scanNumber hne hdigit (by rw [← hsplit, hscan]), hscan, .inl ⟨rfl, hl⟩⟩
  · exact ⟨floatToken l, l, z, hsplit,
      scans_of_scanNumber hne hdigit (by rw [← hsplit, hscan]), hscan, .inr ⟨rfl, hl⟩⟩

/-- Everything that starts with a digit is scanned. -/
theorem exists_fits_number {c : Char} (hc : c.isDigit = true) (rest : List Char) :
    ∃ kind l z, c :: rest = l ++ z ∧ Scans kind l z ∧ kind.Fits l := by
  obtain ⟨kind, l, z, hsplit, hscans, -, ⟨rfl, hl⟩ | ⟨rfl, hl⟩⟩ := exists_scans_number hc rest
  · exact ⟨_, l, z, hsplit, hscans, spelledAs_ofDigits hl⟩
  · exact ⟨_, l, z, hsplit, hscans, fits_floatToken (hl.elim (fun h => .inl (.inl h)) .inr)⟩

theorem scan_point (rest : List Char) :
    scan '.' rest = if digitCount rest = 0 then (.invalid, 0)
      else
        (floatToken ('.' :: rest.take (digitCount rest +
            exponentCount (rest.drop (digitCount rest)))),
          digitCount rest + exponentCount (rest.drop (digitCount rest))) := rfl

/-- The lexeme at the front of a text that starts with a point. -/
theorem exists_scans_point (rest : List Char) :
    Scans .invalid ['.'] rest ∧ digitCount rest = 0 ∨
      ∃ l z, '.' :: rest = l ++ z ∧ l ∈ fractionFloat.language ∧ Scans (floatToken l) l z := by
  obtain ⟨d, r, rfl, -, hd, hr⟩ := exists_takeWhile Char.isDigit rest
  have hscan := scan_point (d ++ r)
  have hcount := digitCount_append hd hr
  by_cases hne : d = []
  · rw [hcount, hne, List.length_nil, if_pos rfl] at hscan
    rw [hcount, hne]
    exact .inl ⟨.intro hscan, rfl⟩
  · obtain ⟨x, z, rfl, hexponent, hx⟩ := exists_exponent r
    have hpos : d.length ≠ 0 := fun h => hne (List.length_eq_zero_iff.1 h)
    rw [hcount, if_neg hpos, List.drop_left, hexponent, ← List.append_assoc, ← List.length_append,
      List.take_left] at hscan
    exact .inr ⟨'.' :: (d ++ x), z, by simp, mem_fractionFloat.2 ⟨d, x, rfl, ⟨hne, hd⟩, hx⟩,
      .intro hscan⟩

/-! ## Words, strings and what stands between tokens -/

@[simp] theorem Keyword.mem_all (word : Keyword) : word ∈ Keyword.all := by
  cases word <;> decide

theorem Keyword.ofText?_eq_some {text : String} {word : Keyword} (h : ofText? text = some word) :
    word.text = text :=
  beq_iff_eq.1 (List.find?_some h :)

theorem Keyword.ofText?_eq_none {text : String} :
    ofText? text = none ↔ ∀ word : Keyword, word.text ≠ text := by
  rw [ofText?, List.find?_eq_none]
  constructor
  · intro h word heq
    exact h word word.mem_all (beq_iff_eq.2 heq)
  · intro h word _ heq
    exact h word (beq_iff_eq.1 heq)

theorem spelledAs_wordToken {s : List Char} (hs : s ∈ name.language) :
    (wordToken s).SpelledAs s := by
  rw [wordToken]
  split
  · next word hword =>
    have htext := Keyword.ofText?_eq_some hword
    have hs : s = word.text.toList := by rw [htext, String.toList_ofList]
    exact hs
  · next hnone =>
    refine ⟨hs, String.toList_ofList, fun word hword => ?_⟩
    have hs : s = word.text.toList := hword
    refine Keyword.ofText?_eq_none.1 hnone word ?_
    rw [hs, String.ofList_toList]

theorem scan_of_isNameStart {c : Char} {rest : List Char} (hc : isNameStart c = true) :
    scan c rest = (.token (wordToken (c :: rest.takeWhile isNameChar)),
      (rest.takeWhile isNameChar).length) := by
  obtain ⟨hspace, hdigit⟩ := isNameStart_spec hc
  simp only [scan]
  rw [if_neg (by simp [hspace]), if_neg (by simp [hdigit]), if_pos hc]

theorem isSpace_iff {c : Char} : isSpace c = true ↔ c ∈ [' ', '\t', '\r', '\n', '\x0c'] := by
  simp [isSpace, or_assoc]

theorem takeWhile_quotable {content z : List Char} (hcontent : content ∈ quotable)
    (hz : ∀ c ∈ z.head?, c = '"' ∨ c = '\n') :
    (content ++ z).takeWhile (fun d => d ≠ '"' && d ≠ '\n') = content := by
  rw [List.takeWhile_append_of_pos fun c hc => by simpa using hcontent c hc]
  cases z with
  | nil => simp
  | cons c z =>
    have hc := hz c rfl
    rw [List.takeWhile_cons_of_neg (by simpa [or_iff_not_imp_left] using hc), List.append_nil]

theorem scan_quote_closed {content : List Char} (hcontent : content ∈ quotable) (z : List Char) :
    scan '"' (content ++ '"' :: z) =
      (.token (.string (String.ofList content)), content.length + 1) := by
  have htake := takeWhile_quotable hcontent (z := '"' :: z) (by simp)
  simp only [scan]
  rw [if_neg (by decide), if_neg (by decide), if_neg (by decide), htake, List.drop_left]
  rfl

theorem scan_quote_open {content z : List Char} (hcontent : content ∈ quotable)
    (hz : ∀ c ∈ z.head?, c = '\n') : scan '"' (content ++ z) = (.invalid, content.length) := by
  have htake := takeWhile_quotable hcontent fun c hc => .inr (hz c hc)
  simp only [scan]
  rw [if_neg (by decide), if_neg (by decide), if_neg (by decide), htake, List.drop_left]
  split
  · exact absurd (hz _ rfl) (by decide)
  · rfl

theorem scan_comment (rest : List Char) :
    scan '/' ('/' :: rest) = (.skip, (rest.takeWhile (· ≠ '\n')).length + 1) := rfl

/-- What starts with a quotation mark is a string, or an error that covers the rest of the line. -/
theorem exists_scans_quote (rest : List Char) : ∃ kind l z, '"' :: rest = l ++ z ∧
    Scans kind l z ∧ (kind.Fits l ∨ kind = .invalid ∧ Unscannable l z) := by
  obtain ⟨content, z, rfl, -, hall, hz⟩ :=
    exists_takeWhile (fun d => d ≠ '"' && d ≠ '\n') rest
  have hcontent : content ∈ quotable := fun c hc => by simpa using hall c hc
  by_cases hclosed : ∃ z', z = '"' :: z'
  · obtain ⟨z', rfl⟩ := hclosed
    refine ⟨.token (.string (String.ofList content)), '"' :: (content ++ ['"']), z', by simp,
      .intro ?_, .inl ⟨mem_string.2 ⟨content, hcontent, rfl⟩, by rw [String.toList_ofList]⟩⟩
    rw [List.append_assoc, List.singleton_append, scan_quote_closed hcontent, List.length_append,
      List.length_singleton]
  · have hline : ∀ c ∈ z.head?, c = '\n' := by
      intro c hc
      by_contra hne
      have hquote : c = '"' := by simpa [hne] using hz c hc
      obtain ⟨z', rfl⟩ := List.head?_eq_some_iff.1 hc
      exact hclosed ⟨z', by rw [hquote]⟩
    exact ⟨.invalid, '"' :: content, z, rfl, .intro (scan_quote_open hcontent hline),
      .inr ⟨rfl, .inr ⟨content, hcontent, rfl, hline⟩⟩⟩

theorem spelledAs_of_punct? {c : Char} {sign : Punct} (h : punct? c = some sign) :
    (Token.punct sign).SpelledAs [c] := by
  unfold punct? at h
  split at h <;> cases h <;> rfl

/-- What starts in no other way is a comment, a sign or an error of a single character. -/
theorem exists_scans_sign {c : Char} (hspace : ¬ isSpace c = true) (hdigit : ¬ c.isDigit = true)
    (hname : ¬ isNameStart c = true) (hquote : c ≠ '"') (hpoint : c ≠ '.') (rest : List Char) :
    ∃ kind l z, c :: rest = l ++ z ∧ Scans kind l z ∧
      (kind.Fits l ∨ kind = .invalid ∧ Unscannable l z) := by
  have single {kind : LexemeKind} (hscan : scan c rest = (kind, 0)) : Scans kind [c] rest :=
    .intro hscan
  have hscan : scan c rest = scan c rest := rfl
  conv_rhs at hscan => simp only [scan]
  rw [if_neg hspace, if_neg hdigit, if_neg hname] at hscan
  split at hscan
  · next rest =>
    obtain ⟨a, z, rfl, ha, hall, -⟩ := exists_takeWhile (· ≠ '\n') rest
    refine ⟨.skip, '/' :: '/' :: a, z, rfl, .intro ?_,
      .inl (.inr (mem_comment.2 ⟨a, rfl, fun hmem => ?_⟩))⟩
    · rw [List.cons_append, scan_comment, ha]
      rfl
    · simpa using hall _ hmem
  · next rest => exact ⟨.token (.punct .arrow), ['-', '>'], rest, rfl, .intro hscan, .inl rfl⟩
  · exact absurd rfl hpoint
  · exact absurd rfl hquote
  · split at hscan
    · next sign hsign =>
      exact ⟨.token (.punct sign), [c], rest, rfl, single hscan, .inl (spelledAs_of_punct? hsign)⟩
    · exact ⟨.invalid, [c], rest, rfl, single hscan, .inr ⟨rfl, .inl ⟨c, hquote, rfl⟩⟩⟩

/-- **The lexeme at the front of a text** is spelled like what it is, or it is an error. -/
theorem exists_scans (c : Char) (rest : List Char) : ∃ kind l z, c :: rest = l ++ z ∧
    Scans kind l z ∧ (kind.Fits l ∨ kind = .invalid ∧ Unscannable l z) := by
  by_cases hspace : isSpace c = true
  · obtain ⟨a, z, rfl, ha, hall, -⟩ := exists_takeWhile isSpace rest
    refine ⟨.skip, c :: a, z, rfl, .intro (by rw [scan_of_isSpace hspace, ha]),
      .inl (.inl ⟨List.cons_ne_nil c a, List.forall_mem_cons.2 ⟨isSpace_iff.1 hspace, ?_⟩⟩)⟩
    exact fun d hd => isSpace_iff.1 (hall d hd)
  by_cases hdigit : c.isDigit = true
  · obtain ⟨kind, l, z, hsplit, hscans, hfits⟩ := exists_fits_number hdigit rest
    exact ⟨kind, l, z, hsplit, hscans, .inl hfits⟩
  by_cases hname : isNameStart c = true
  · obtain ⟨a, z, rfl, ha, hall, -⟩ := exists_takeWhile isNameChar rest
    refine ⟨.token (wordToken (c :: a)), c :: a, z, rfl,
      .intro (by rw [scan_of_isNameStart hname, ha]), .inl ?_⟩
    exact spelledAs_wordToken ⟨c, a, rfl, hname, hall⟩
  by_cases hquote : c = '"'
  · exact hquote ▸ exists_scans_quote rest
  by_cases hpoint : c = '.'
  · subst hpoint
    rcases exists_scans_point rest with ⟨hscans, -⟩ | ⟨l, z, hsplit, hl, hscans⟩
    · exact ⟨.invalid, ['.'], rest, rfl, hscans, .inr ⟨rfl, .inl ⟨'.', by decide, rfl⟩⟩⟩
    · exact ⟨floatToken l, l, z, hsplit, hscans, .inl (fits_floatToken (.inl (.inr hl)))⟩
  exact exists_scans_sign hspace hdigit hname hquote hpoint rest

theorem Scans.fits_or_unscannable {kind : LexemeKind} {l z : List Char} (h : Scans kind l z) :
    kind.Fits l ∨ kind = .invalid ∧ Unscannable l z := by
  obtain ⟨c, rest, hcons⟩ := List.exists_cons_of_ne_nil h.ne_nil
  obtain ⟨kind', l', z', hsplit, h', hspelled⟩ := exists_scans c (rest ++ z)
  obtain ⟨rfl, rfl, rfl⟩ := h.unique h' (by rw [← hsplit, hcons, List.cons_append])
  exact hspelled

/-! ## The longest match -/

section Covers

variable {c : Char} {a : List Char}

/-- Whatever stands behind a text, no less of it than the text is scanned. -/
def Covers (c : Char) (a : List Char) : Prop :=
  ∀ b, (scan c (a ++ b)).1 ≠ .invalid ∧ a.length ≤ (scan c (a ++ b)).2

theorem covers_number (h : c :: a ∈ integer.language ∨ c :: a ∈ pointFloat.language ∨
    c :: a ∈ exponentFloat.language) : Covers c a := by
  intro b
  have hc : c.isDigit = true := isDigit_of_number h
  have hlength := length_le_scanNumber h b
  obtain ⟨kind, l, z, hsplit, hscans, hfits⟩ := exists_fits_number hc (a ++ b)
  rw [scan_of_isDigit hc, ← List.cons_append]
  refine ⟨?_, Nat.le_sub_of_add_le hlength⟩
  have hscan := hscans.scan_eq hsplit
  rw [scan_of_isDigit hc, ← List.cons_append] at hscan
  rw [(Prod.mk.inj hscan).1]
  rintro rfl
  exact hfits

theorem covers_point (h : '.' :: a ∈ fractionFloat.language) : Covers '.' a := by
  intro b
  obtain ⟨d, x, heq, hd, hx⟩ := mem_fractionFloat.1 h
  obtain ⟨-, rfl⟩ := List.cons.inj heq
  have hcount := length_le_digitCount hd.2 (x ++ b)
  have hpos := List.length_pos_iff.2 hd.1
  rw [List.append_assoc]
  refine ⟨?_, ?_⟩
  · rcases exists_scans_point (d ++ (x ++ b)) with ⟨-, hzero⟩ | ⟨l, z, hsplit, hl, hscans⟩
    · omega
    · obtain ⟨value, htoken, -⟩ := exists_floatToken_eq (.inl (.inr hl))
      rw [hscans.scan_eq hsplit, htoken]
      rintro ⟨⟩
  · rw [scan_point, if_neg (by omega)]
    dsimp only
    rw [List.length_append]
    rcases hx with hx | hx
    · have hexponent := length_le_exponentCount hx b
      rw [digitCount_append hd.2 (exponent_stops hx b), List.drop_left]
      omega
    · obtain rfl := (Language.mem_one x).1 hx
      rw [List.length_nil]
      omega

theorem covers_name (h : c :: a ∈ name.language) : Covers c a := by
  intro b
  obtain ⟨c', a', heq, hc, ha⟩ := h
  obtain ⟨rfl, rfl⟩ := List.cons.inj heq
  rw [scan_of_isNameStart hc, List.takeWhile_append_of_pos ha, List.length_append]
  exact ⟨by rintro ⟨⟩, Nat.le_add_right _ _⟩

/-- A slash or a minus sign may start something longer. -/
theorem scan_slash (b : List Char) : scan '/' b = (.token (.punct .slash), 0) ∨
    ∃ b', b = '/' :: b' := by
  match b with
  | [] => exact .inl rfl
  | d :: b =>
    by_cases hd : d = '/'
    · exact .inr ⟨b, by rw [hd]⟩
    · refine .inl ?_
      simp only [scan]
      simp [hd, isSpace, isNameStart, Char.isDigit, Char.isAlpha, punct?]

theorem scan_minus (b : List Char) : scan '-' b = (.token (.punct .minus), 0) ∨
    ∃ b', b = '>' :: b' := by
  match b with
  | [] => exact .inl rfl
  | d :: b =>
    by_cases hd : d = '>'
    · exact .inr ⟨b, by rw [hd]⟩
    · refine .inl ?_
      simp only [scan]
      simp [hd, isSpace, isNameStart, Char.isDigit, Char.isAlpha, punct?]

theorem covers_punct {sign : Punct} (h : c :: a = sign.text.toList) : Covers c a := by
  intro b
  cases sign
  case minus =>
    have heq : c :: a = ['-'] := h
    cases heq
    rcases scan_minus b with hscan | ⟨b, rfl⟩
    · rw [List.nil_append, hscan]
      exact ⟨by rintro ⟨⟩, Nat.le_refl _⟩
    · exact ⟨by rintro ⟨⟩, Nat.zero_le _⟩
  case slash =>
    have heq : c :: a = ['/'] := h
    cases heq
    rcases scan_slash b with hscan | ⟨b, rfl⟩
    · rw [List.nil_append, hscan]
      exact ⟨by rintro ⟨⟩, Nat.le_refl _⟩
    · exact ⟨by rintro ⟨⟩, Nat.zero_le _⟩
  all_goals
    obtain ⟨rfl, rfl⟩ := List.cons.inj h
    exact ⟨by rintro ⟨⟩, Nat.le_refl _⟩

theorem covers_of_mem {p : Pattern} (h : c :: a ∈ p.language) : Covers c a := by
  intro b
  match p, h with
  | .blanks, h =>
    have hall := List.forall_mem_cons.1 h.2
    rw [scan_of_isSpace (isSpace_iff.2 hall.1),
      List.takeWhile_append_of_pos fun d hd => isSpace_iff.2 (hall.2 d hd), List.length_append]
    exact ⟨by rintro ⟨⟩, Nat.le_add_right _ _⟩
  | .comment, h =>
    obtain ⟨text, heq, htext⟩ := mem_comment.1 h
    obtain ⟨rfl, rfl⟩ := List.cons.inj heq
    have hall : ∀ d ∈ text, decide (d ≠ '\n') = true := by
      intro d hd
      rw [decide_eq_true_eq]
      rintro rfl
      exact htext hd
    rw [List.cons_append, scan_comment, List.takeWhile_append_of_pos hall, List.length_append,
      List.length_cons]
    exact ⟨by rintro ⟨⟩, by dsimp only; omega⟩
  | .keyword word, h => exact covers_name (keyword_le_name word h) b
  | .punct _, h => exact covers_punct h b
  | .integer, h => exact covers_number (.inl h) b
  | .pointFloat, h => exact covers_number (.inr (.inl h)) b
  | .fractionFloat, h =>
    obtain ⟨d, x, heq, -⟩ := mem_fractionFloat.1 h
    obtain ⟨rfl, -⟩ := List.cons.inj heq
    exact covers_point h b
  | .exponentFloat, h => exact covers_number (.inr (.inr h)) b
  | .string, h =>
    obtain ⟨content, hcontent, heq⟩ := mem_string.1 h
    obtain ⟨rfl, rfl⟩ := List.cons.inj heq
    rw [List.append_assoc, List.singleton_append, scan_quote_closed hcontent, List.length_append]
    exact ⟨by rintro ⟨⟩, Nat.le_refl _⟩
  | .name, h => exact covers_name h b

end Covers

theorem Pattern.ne_nil_of_mem {p : Pattern} {s : List Char} (h : s ∈ p.language) : s ≠ [] := by
  rintro rfl
  match p, h with
  | .blanks, h => exact h.1 rfl
  | .comment, h =>
    obtain ⟨text, heq, -⟩ := mem_comment.1 h
    cases heq
  | .keyword word, h =>
    obtain ⟨c, rest, heq, -⟩ := keyword_le_name word h
    cases heq
  | .punct sign, h =>
    have heq : [] = sign.text.toList := h
    cases sign <;> cases heq
  | .integer, h => exact h.1 rfl
  | .pointFloat, h =>
    obtain ⟨w, d, x, heq, -⟩ := mem_pointFloat.1 h
    exact List.append_ne_nil_of_right_ne_nil w (List.cons_ne_nil _ _) heq.symm
  | .fractionFloat, h =>
    obtain ⟨d, x, heq, -⟩ := mem_fractionFloat.1 h
    cases heq
  | .exponentFloat, ⟨_, hw, x, _, heq⟩ => exact List.append_ne_nil_of_left_ne_nil hw.1 x heq
  | .string, h =>
    obtain ⟨content, -, heq⟩ := mem_string.1 h
    cases heq
  | .name, ⟨_, _, heq, _⟩ => cases heq

/-- **No pattern matches more than what is scanned**, and none matches where an error is. -/
theorem Scans.longest {kind : LexemeKind} {l z : List Char} (h : Scans kind l z) {p : Pattern}
    {s b : List Char} (hs : s ∈ p.language) (heq : s ++ b = l ++ z) :
    kind ≠ .invalid ∧ s.length ≤ l.length := by
  obtain ⟨c, a, rfl⟩ := List.exists_cons_of_ne_nil (p.ne_nil_of_mem hs)
  have hcovers := covers_of_mem hs b
  have hfirst : c :: (a ++ b) = l ++ z := heq
  rw [h.scan_eq hfirst] at hcovers
  have hpos := List.length_pos_iff.2 h.ne_nil
  refine ⟨hcovers.1, ?_⟩
  have hlength := hcovers.2
  rw [List.length_cons]
  omega

/-! ## What the longest match is -/

/-- A pattern that matches a whole text leaves nothing. -/
theorem Scans.eq_nil_of_mem {kind : LexemeKind} {l z : List Char} (h : Scans kind l z) {p : Pattern}
    (hp : l ++ z ∈ p.language) : z = [] := by
  have hlength := (h.longest hp (List.append_nil _)).2
  rw [List.length_append] at hlength
  exact List.length_eq_zero_iff.1 (by omega)

theorem scans_name {s : List Char} (h : s ∈ name.language) :
    Scans (.token (wordToken s)) s [] := by
  obtain ⟨c, a, rfl, hc, ha⟩ := h
  have htake : a.takeWhile isNameChar = a := List.takeWhile_eq_self_iff.2 ha
  exact .intro (by rw [List.append_nil, scan_of_isNameStart hc, htake])

@[simp] theorem wordToken_keyword (word : Keyword) :
    wordToken word.text.toList = .keyword word := by
  cases word <;> rfl

theorem ofDigits_of_spelledAs {literal : IntLiteral} {s : List Char}
    (h : (Token.int literal).SpelledAs s) : IntLiteral.ofDigits s = literal := by
  unfold IntLiteral.ofDigits
  cases literal with
  | word value =>
    have hlt : Decimal.digitsValue s < UInt64.size := h.2 ▸ value.toNat_lt
    rw [if_pos hlt, ← h.2, UInt64.ofNat_toNat]
  | wide written => rw [if_neg (Nat.not_lt.2 h.2.1), h.2.2]

theorem scans_integer {s : List Char} (hs : s ∈ integer.language) :
    Scans (.token (.int (.ofDigits s))) s [] := by
  have hscan := scanNumber_noPoint hs (r := []) (by simp) (by simp)
  refine scans_of_scanNumber hs.1 (fun c hc => hs.2 c (List.mem_of_mem_head? hc)) ?_
  rw [hscan]
  exact if_pos rfl

theorem scans_float {s : List Char} (hs : s ∈ float) : Scans (floatToken s) s [] := by
  have number {p : Pattern} (hp : s ∈ p.language)
      (h : s ∈ pointFloat.language ∨ s ∈ exponentFloat.language) : Scans (floatToken s) s [] := by
    obtain ⟨c, a, rfl⟩ := List.exists_cons_of_ne_nil (p.ne_nil_of_mem hp)
    obtain ⟨kind, l, z, hsplit, hscans, -, hkind⟩ :=
      exists_scans_number (isDigit_of_number (.inr h)) a
    rw [hsplit] at hp hs ⊢
    obtain rfl := hscans.eq_nil_of_mem hp
    rw [List.append_nil] at hs ⊢
    rcases hkind with ⟨-, hl⟩ | ⟨rfl, -⟩
    · exact absurd hl (not_mem_integer_of_float hs)
    · exact hscans
  rcases hs with (hs' | hs') | hs'
  · exact number hs' (.inl hs')
  · obtain ⟨d, x, rfl, hd, hx⟩ := mem_fractionFloat.1 hs'
    rcases exists_scans_point (d ++ x) with ⟨-, hzero⟩ | ⟨l, z, hsplit, -, hscans⟩
    · have hcount := length_le_digitCount hd.2 x
      have hpos := List.length_pos_iff.2 hd.1
      omega
    · rw [hsplit] at hs' ⊢
      obtain rfl := hscans.eq_nil_of_mem hs'
      rw [List.append_nil]
      exact hscans
  · exact number hs' (.inr hs')

theorem wordToken_of_unreserved {s : List Char}
    (h : ∀ word : Keyword, s ∉ (keyword word).language) :
    wordToken s = .ident (String.ofList s) := by
  have hnone : Keyword.ofText? (String.ofList s) = none := by
    refine Keyword.ofText?_eq_none.2 fun word heq => h word ?_
    have heq : s = word.text.toList := by rw [heq, String.toList_ofList]
    exact heq
  rw [wordToken, hnone]

/-- A text that is spelled like something is scanned as that when nothing follows it. -/
theorem LexemeKind.Fits.scans {kind : LexemeKind} {s : List Char} (h : kind.Fits s) :
    Scans kind s [] := by
  match kind, h with
  | .skip, .inl hs =>
    obtain ⟨c, a, rfl⟩ := List.exists_cons_of_ne_nil hs.1
    have hall := List.forall_mem_cons.1 hs.2
    have htake : a.takeWhile isSpace = a :=
      List.takeWhile_eq_self_iff.2 fun d hd => isSpace_iff.2 (hall.2 d hd)
    exact .intro (by rw [List.append_nil, scan_of_isSpace (isSpace_iff.2 hall.1), htake])
  | .skip, .inr hs =>
    obtain ⟨text, rfl, htext⟩ := mem_comment.1 hs
    have htake : text.takeWhile (· ≠ '\n') = text := by
      refine List.takeWhile_eq_self_iff.2 fun d hd => ?_
      rw [decide_eq_true_eq]
      rintro rfl
      exact htext hd
    exact .intro (by rw [List.append_nil, scan_comment, htake]; rfl)
  | .token (.keyword word), hs =>
    have hscans := scans_name (keyword_le_name word hs)
    have heq : s = word.text.toList := hs
    rwa [heq, wordToken_keyword, ← heq] at hscans
  | .token (.punct sign), hs =>
    have heq : s = sign.text.toList := hs
    subst heq
    cases sign <;> exact .intro rfl
  | .token (.float value), hs =>
    have htoken : floatToken s = .token (.float value) := by rw [floatToken, hs.2]
    exact htoken ▸ scans_float hs.1
  | .token (.int (.word value)), hs =>
    have hspelled : (Token.int (.word value)).SpelledAs s := hs
    exact ofDigits_of_spelledAs hspelled ▸ scans_integer hs.1
  | .token (.int (.wide written)), hs =>
    have hspelled : (Token.int (.wide written)).SpelledAs s := hs
    exact ofDigits_of_spelledAs hspelled ▸ scans_integer hs.1
  | .token (.string text), hs =>
    obtain ⟨content, hcontent, heq⟩ := mem_string.1 hs.1
    have htext : String.ofList content = text := by
      rw [hs.2] at heq
      rw [← List.append_cancel_right (List.cons.inj heq).2, String.ofList_toList]
    rw [heq, ← htext]
    refine .intro ?_
    rw [List.append_assoc, List.singleton_append, scan_quote_closed hcontent, List.length_append,
      List.length_singleton]
  | .token (.ident word), hs =>
    have htoken : wordToken s = .ident word := by
      rw [wordToken_of_unreserved hs.2.2, ← hs.2.1, String.ofList_toList]
    exact htoken ▸ scans_name hs.1

/-- No text is spelled like two things. -/
theorem LexemeKind.Fits.unique {kind kind' : LexemeKind} {s : List Char} (h : kind.Fits s)
    (h' : kind'.Fits s) : kind = kind' :=
  (h.scans.unique h'.scans rfl).1

/-- **The longest match is scanned.** -/
theorem scans_of_fits {kind : LexemeKind} {l z : List Char} (h : kind.Fits l)
    (hlongest : ∀ (p : Pattern) (s b : List Char), s ∈ p.language → s ++ b = l ++ z →
      s.length ≤ l.length) : Scans kind l z := by
  obtain ⟨p, hp⟩ := exists_pattern_of_fits h
  obtain ⟨c, rest, hcons⟩ := List.exists_cons_of_ne_nil (p.ne_nil_of_mem hp)
  obtain ⟨kind', l', z', hsplit, hscans, hspelled⟩ := exists_scans c (rest ++ z)
  have heq : l ++ z = l' ++ z' := by rw [← hsplit, hcons, List.cons_append]
  obtain ⟨hvalid, hle⟩ := hscans.longest hp heq
  have hfits : kind'.Fits l' := hspelled.resolve_right fun hinvalid => hvalid hinvalid.1
  obtain ⟨p', hp'⟩ := exists_pattern_of_fits hfits
  obtain ⟨rfl, rfl⟩ := List.append_inj heq (le_antisymm hle (hlongest p' l' z' hp' heq.symm))
  exact h.unique hfits ▸ hscans

end FlatQasm
