import FlatQasm.Json.Value

/-!
# JSON text

## Main definitions

* `Json.compact` — text without blanks.
* `Json.pretty` — text with a line for each element and member.
* `Json.parse?` — the value of a text.
-/

namespace FlatQasm.Json

/-! ## Writing -/

/-- A written string in its quotation marks. -/
def quoted (written : List Char) : List Char := '"' :: written ++ ['"']

/-- The text of a truth value. -/
def boolText : Bool → List Char
  | true => ['t', 'r', 'u', 'e']
  | false => ['f', 'a', 'l', 's', 'e']

mutual

/-- The text of a value without blanks. -/
def compactChars : Json → List Char
  | .null => ['n', 'u', 'l', 'l']
  | .bool value => boolText value
  | .number literal => literal
  | .string written => quoted written
  | .array elements => '[' :: compactElements elements ++ [']']
  | .object members => '\x7b' :: compactMembers members ++ ['\x7d']

/-- Elements with commas between them. -/
def compactElements : List Json → List Char
  | [] => []
  | [last] => compactChars last
  | first :: rest => compactChars first ++ ',' :: compactElements rest

/-- Members with commas between them. -/
def compactMembers : List (List Char × Json) → List Char
  | [] => []
  | [(key, value)] => quoted key ++ ':' :: compactChars value
  | (key, value) :: rest => quoted key ++ ':' :: compactChars value ++ ',' :: compactMembers rest

end

/-- The text of a value without blanks. -/
def compact (value : Json) : String := String.ofList value.compactChars

/-- A new line at a level of indentation; a level is two blanks. -/
def newLine (level : Nat) : List Char := '\n' :: List.replicate (2 * level) ' '

mutual

/-- The text of a value at a level, with a line for each element and member. -/
def prettyChars (level : Nat) : Json → List Char
  | .array (first :: rest) =>
    '[' :: prettyElements (level + 1) (first :: rest) ++ newLine level ++ [']']
  | .object (first :: rest) =>
    '\x7b' :: prettyMembers (level + 1) (first :: rest) ++ newLine level ++ ['\x7d']
  | .array [] => ['[', ']']
  | .object [] => ['\x7b', '\x7d']
  | .null => ['n', 'u', 'l', 'l']
  | .bool value => boolText value
  | .number literal => literal
  | .string written => quoted written

/-- Elements on lines of their own. -/
def prettyElements (level : Nat) : List Json → List Char
  | [] => []
  | [last] => newLine level ++ prettyChars level last
  | first :: rest => newLine level ++ prettyChars level first ++ ',' :: prettyElements level rest

/-- Members on lines of their own. -/
def prettyMembers (level : Nat) : List (List Char × Json) → List Char
  | [] => []
  | [(key, value)] => newLine level ++ quoted key ++ ':' :: ' ' :: prettyChars level value
  | (key, value) :: rest =>
    newLine level ++ quoted key ++ ':' :: ' ' :: prettyChars level value ++
      ',' :: prettyMembers level rest

end

/-- The text of a value with a line for each element and member. -/
def pretty (value : Json) : String := String.ofList (prettyChars 0 value)

/-! ## Reading -/

/-- The characters that may stand between the parts of a text. -/
def isBlank (c : Char) : Bool := c = ' ' || c = '\n' || c = '\t' || c = '\r'

/-- A text without the blanks at its front. -/
def skipBlanks (text : List Char) : List Char := text.dropWhile isBlank

/-- The rest of a text behind some characters that it starts with. -/
def afterChars? (front text : List Char) : Option (List Char) :=
  if front.isPrefixOf text then some (text.drop front.length) else none

/-- A string behind its first quotation mark, as it is written, and the text behind it.  Escapes
have to be complete, and a control character has to be escaped. -/
def stringFrom? : List Char → Option (List Char × List Char)
  | [] => none
  | '"' :: rest => some ([], rest)
  | '\\' :: 'u' :: a :: b :: c :: d :: rest => do
    let _ ← hexValue4? a b c d
    let (written, rest) ← stringFrom? rest
    some ('\\' :: 'u' :: a :: b :: c :: d :: written, rest)
  | '\\' :: e :: rest => do
    let _ ← simpleEscape? e
    let (written, rest) ← stringFrom? rest
    some ('\\' :: e :: written, rest)
  | c :: rest =>
    if c = '\\' ∨ c.toNat < 0x20 then none
    else do
      let (written, rest) ← stringFrom? rest
      some (c :: written, rest)

/-- The digits at the front of a text, at least one, and the text behind them. -/
def digitsFrom? (text : List Char) : Option (List Char × List Char) :=
  let digits := text.takeWhile Char.isDigit
  if digits.isEmpty then none else some (digits, text.drop digits.length)

/-- The whole part of a number: zero, or digits that do not start with one. -/
def wholeFrom? : List Char → Option (List Char × List Char)
  | '0' :: rest =>
    if (rest.takeWhile Char.isDigit).isEmpty then some (['0'], rest) else none
  | text => digitsFrom? text

/-- The fraction of a number with its point, if there is one. -/
def fractionFrom? : List Char → Option (List Char × List Char)
  | '.' :: rest => (digitsFrom? rest).map fun (digits, rest) => ('.' :: digits, rest)
  | text => some ([], text)

/-- The exponent of a number with its letter and sign, if there is one. -/
def exponentFrom? : List Char → Option (List Char × List Char)
  | e :: rest =>
    if e = 'e' ∨ e = 'E' then
      match rest with
      | '+' :: rest => (digitsFrom? rest).map fun (digits, rest) => (e :: '+' :: digits, rest)
      | '-' :: rest => (digitsFrom? rest).map fun (digits, rest) => (e :: '-' :: digits, rest)
      | rest => (digitsFrom? rest).map fun (digits, rest) => (e :: digits, rest)
    else some ([], e :: rest)
  | [] => some ([], [])

/-- A number without sign, as it is written, and the text behind it. -/
def unsignedFrom? (text : List Char) : Option (List Char × List Char) := do
  let (whole, rest) ← wholeFrom? text
  let (fraction, rest) ← fractionFrom? rest
  let (exponent, rest) ← exponentFrom? rest
  some (whole ++ fraction ++ exponent, rest)

/-- A value that is neither array nor object, and the text behind it. -/
def scalarFrom? : List Char → Option (Json × List Char)
  | '"' :: rest => (stringFrom? rest).map fun (written, rest) => (.string written, rest)
  | '-' :: rest => (unsignedFrom? rest).map fun (literal, rest) => (.number ('-' :: literal), rest)
  | 'n' :: rest => (afterChars? ['u', 'l', 'l'] rest).map (.null, ·)
  | 't' :: rest => (afterChars? ['r', 'u', 'e'] rest).map (.bool true, ·)
  | 'f' :: rest => (afterChars? ['a', 'l', 's', 'e'] rest).map (.bool false, ·)
  | text => (unsignedFrom? text).map fun (literal, rest) => (.number literal, rest)

/-- A key with its colon, as it is written, and the text behind them. -/
def keyFrom? (text : List Char) : Option (List Char × List Char) :=
  match skipBlanks text with
  | '"' :: rest => do
    let (key, rest) ← stringFrom? rest
    match skipBlanks rest with
    | ':' :: rest => some (key, rest)
    | _ => none
  | _ => none

mutual

/-- The value at the front of a text, and the text behind it.  Of two calls inside one another at
least one takes a character, so twice the number of characters bounds the recursion. -/
def valueFrom? : (bound : Nat) → List Char → Option (Json × List Char)
  | 0, _ => none
  | bound + 1, text =>
    match skipBlanks text with
    | '[' :: rest =>
      match skipBlanks rest with
      | ']' :: rest => some (.array [], rest)
      | rest => (elementsFrom? bound rest).map fun (elements, rest) => (.array elements, rest)
    | '\x7b' :: rest =>
      match skipBlanks rest with
      | '\x7d' :: rest => some (.object [], rest)
      | rest => (membersFrom? bound rest).map fun (members, rest) => (.object members, rest)
    | text => scalarFrom? text

/-- The elements of an array up to its closing bracket. -/
def elementsFrom? : (bound : Nat) → List Char → Option (List Json × List Char)
  | 0, _ => none
  | bound + 1, text => do
    let (value, rest) ← valueFrom? bound text
    match skipBlanks rest with
    | ',' :: rest => (elementsFrom? bound rest).map fun (others, rest) => (value :: others, rest)
    | ']' :: rest => some ([value], rest)
    | _ => none

/-- The members of an object up to its closing brace. -/
def membersFrom? : (bound : Nat) → List Char → Option (List (List Char × Json) × List Char)
  | 0, _ => none
  | bound + 1, text => do
    let (key, rest) ← keyFrom? text
    let (value, rest) ← valueFrom? bound rest
    match skipBlanks rest with
    | ',' :: rest =>
      (membersFrom? bound rest).map fun (others, rest) => ((key, value) :: others, rest)
    | '\x7d' :: rest => some ([(key, value)], rest)
    | _ => none

end

/-- The value of a text, if the text is one value with blanks around its parts. -/
def parse? (text : String) : Option Json := do
  let chars := text.toList
  let (value, rest) ← valueFrom? (2 * chars.length + 1) chars
  if (skipBlanks rest).isEmpty then some value else none

end FlatQasm.Json
