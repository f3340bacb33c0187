import FlatQasm.Source.Tokens

/-!
# Parsers over tokens

A parser takes tokens from the front of a list.  It either gives a value and the tokens behind it,
or an error; there is no going back.  A loop takes at least one token in each round.  It goes down
a list of tokens that is as long as what was left when it started, so that it ends; the list is
only a bound, and nobody has to count it.

## Main definitions

* `Parser` — a parser for values of a type.
* `expect`, `accept`, `identifier`, `integer` — parsers for single tokens.
* `commaSeparated` — a list with commas between its elements.
-/

namespace FlatQasm.Grammar

/-- A parser for values of type `α`. -/
abbrev Parser (α : Type) := StateT (List Located) (Except ImportError) α

/-- The error that the next token is not what is expected. -/
def unexpected (expected : String) : List Located → ImportError
  | [] => .unexpectedEnd expected
  | t :: _ => .unexpectedToken t.position expected t.token

/-- The position of the next token; at the end of the tokens, that of the last one taken. -/
def nextPosition (last : Position) : List Located → Position
  | [] => last
  | t :: _ => t.position

/-- Whether the next token is the given punctuation. -/
def nextIs (sign : Punct) : List Located → Bool
  | ⟨.punct found, _⟩ :: _ => found = sign
  | _ => false

/-- Takes the given punctuation. -/
def expect (sign : Punct) : Parser Unit := fun ts =>
  if nextIs sign ts then .ok ((), ts.drop 1)
  else .error (unexpected ("'" ++ sign.text ++ "'") ts)

/-- Takes the given punctuation if it is next, and says whether it was. -/
def accept (sign : Punct) : Parser Bool := fun ts =>
  if nextIs sign ts then .ok (true, ts.drop 1) else .ok (false, ts)

/-- Takes a name, and gives it with its position. -/
def identifier : Parser (String × Position)
  | ⟨.ident name, p⟩ :: rest => .ok ((name, p), rest)
  | ts => .error (unexpected "identifier" ts)

/-- Takes an integer literal of at most 64 bits. -/
def integer : Parser UInt64
  | ⟨.int (.word value), _⟩ :: rest => .ok (value, rest)
  | ⟨.int (.wide digits), p⟩ :: _ => .error (.integerTooLarge p digits)
  | ts => .error (unexpected "integer" ts)

section

variable (sign : Punct) (p : Position) (rest : List Located)

@[simp] theorem nextIs_punct : nextIs sign (⟨.punct sign, p⟩ :: rest) = true := by
  simp [nextIs]

@[simp] theorem expect_punct : expect sign (⟨.punct sign, p⟩ :: rest) = .ok ((), rest) := by
  simp [expect]

@[simp] theorem accept_punct : accept sign (⟨.punct sign, p⟩ :: rest) = .ok (true, rest) := by
  simp [accept]

@[simp] theorem identifier_ident (name : String) :
    identifier (⟨.ident name, p⟩ :: rest) = .ok ((name, p), rest) := rfl

@[simp] theorem integer_word (value : UInt64) :
    integer (⟨.int (.word value), p⟩ :: rest) = .ok (value, rest) := rfl

end

/-- Elements that each follow a comma, at most as many as the bound has tokens. -/
def afterCommas {α : Type} (element : Parser α) : (bound : List Located) → Parser (List α)
  | [] => pure []
  | _ :: bound => do
    if ← accept .comma then
      let x ← element
      let rest ← afterCommas element bound
      pure (x :: rest)
    else
      pure []

/-- Elements with commas between them, at least one. -/
def commaSeparated {α : Type} (element : Parser α) : Parser (List α) := do
  let first ← element
  let rest ← afterCommas element (← get)
  pure (first :: rest)

end FlatQasm.Grammar
