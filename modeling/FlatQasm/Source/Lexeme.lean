import FlatQasm.Source.Position
import FlatQasm.Source.Token

/-!
# Splitting source text into lexemes

Source text is a sequence of lexemes: tokens, and between them blanks and comments.  At each
place the longest lexeme is taken.  A character that starts none is a lexeme of its own, and so
is a quotation mark without a closing one on its line, together with the rest of that line; both
are errors.  Every character of the source belongs to exactly one lexeme.

## Main definitions

* `Lexeme` — a piece of source text and what it is.
* `scan` — the lexeme at the front of a text that is not empty.
* `lexemes` — all lexemes of a text.
* `Lexeme.locate` — lexemes with their positions.
-/

namespace FlatQasm

/-- What a piece of source text is. -/
inductive LexemeKind where
  /-- Blanks or a comment. -/
  | skip
  | token (t : Token)
  /-- The start of no lexeme. -/
  | invalid

/-- A piece of source text and what it is. -/
structure Lexeme where
  kind : LexemeKind
  text : List Char

/-- The characters that may stand between tokens. -/
def isSpace (c : Char) : Bool := c = ' ' || c = '\t' || c = '\r' || c = '\n' || c = '\x0c'

/-- The characters that start a name: ASCII letters and the underscore. -/
def isNameStart (c : Char) : Bool := c.isAlpha || c = '_'

/-- The characters of a name. -/
def isNameChar (c : Char) : Bool := c.isAlphanum || c = '_'

/-- How many digits a text starts with. -/
def digitCount (text : List Char) : Nat := (text.takeWhile Char.isDigit).length

/-- How many characters at the front of a text make an exponent: the letter, an optional sign and
at least one digit.  There are none when the exponent is not complete. -/
def exponentCount : List Char → Nat
  | e :: sign :: rest =>
    if e = 'e' ∨ e = 'E' then
      if sign = '+' ∨ sign = '-' then
        if digitCount rest = 0 then 0 else digitCount rest + 2
      else if digitCount (sign :: rest) = 0 then 0
      else digitCount (sign :: rest) + 1
    else 0
  | _ => 0

/-- The float literal with a given spelling. -/
def floatToken (text : List Char) : LexemeKind :=
  match Decimal.read text with
  | .ok value => .token (.float value)
  | .error _ => .invalid

/-- The token with the spelling of a name. -/
def wordToken (text : List Char) : Token :=
  let word := String.ofList text
  match Keyword.ofText? word with
  | some keyword => .keyword keyword
  | none => .ident word

/-- The punctuation of a single character. -/
def punct? : Char → Option Punct
  | '+' => some .plus
  | '-' => some .minus
  | '*' => some .star
  | '/' => some .slash
  | '(' => some .leftParen
  | ')' => some .rightParen
  | '[' => some .leftBracket
  | ']' => some .rightBracket
  | '\x7b' => some .leftBrace
  | '\x7d' => some .rightBrace
  | ';' => some .semicolon
  | ',' => some .comma
  | _ => none

/-- The number literal that starts with digits, as its kind and its length. -/
def scanNumber (text : List Char) : LexemeKind × Nat :=
  let whole := digitCount text
  match text.drop whole with
  | '.' :: rest =>
    let length := whole + 1 + digitCount rest + exponentCount (rest.drop (digitCount rest))
    (floatToken (text.take length), length)
  | rest =>
    if exponentCount rest = 0 then
      (.token (.int (.ofDigits (text.take whole))), whole)
    else
      let length := whole + exponentCount rest
      (floatToken (text.take length), length)

/-- The lexeme at the front of a text, as its kind and the number of its characters behind the
first. -/
def scan (c : Char) (rest : List Char) : LexemeKind × Nat :=
  if isSpace c then (.skip, (rest.takeWhile isSpace).length)
  else if c.isDigit then
    let (kind, length) := scanNumber (c :: rest)
    (kind, length - 1)
  else if isNameStart c then
    let tail := rest.takeWhile isNameChar
    (.token (wordToken (c :: tail)), tail.length)
  else
    match c, rest with
    | '/', '/' :: _ => (.skip, (rest.takeWhile (· ≠ '\n')).length)
    | '-', '>' :: _ => (.token (.punct .arrow), 1)
    | '.', rest =>
      if digitCount rest = 0 then (.invalid, 0)
      else
        let length := digitCount rest + exponentCount (rest.drop (digitCount rest))
        (floatToken (c :: rest.take length), length)
    | '"', rest =>
      let content := rest.takeWhile fun d => d ≠ '"' && d ≠ '\n'
      match rest.drop content.length with
      | '"' :: _ => (.token (.string (String.ofList content)), content.length + 1)
      | _ => (.invalid, content.length)
    | c, _ =>
      match punct? c with
      | some sign => (.token (.punct sign), 0)
      | none => (.invalid, 0)

/-- All lexemes of a text. -/
def lexemes : List Char → List Lexeme
  | [] => []
  | c :: rest =>
    let (kind, length) := scan c rest
    ⟨kind, c :: rest.take length⟩ :: lexemes (rest.drop length)
termination_by text => text.length

/-- Lexemes with their positions, the first one at `p`. -/
def Lexeme.locate (p : Position) : List Lexeme → List (Position × Lexeme)
  | [] => []
  | lexeme :: rest => (p, lexeme) :: locate (p.after lexeme.text) rest

end FlatQasm
