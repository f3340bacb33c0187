import FlatQasm.Program.ImportError
import FlatQasm.Source.Lexeme

/-!
# The tokens of a source text

The whole text is split before any of it is read, so that a character that starts no token wins
over every other error.

## Main definitions

* `Located` — a token with its position.
* `tokens` — the tokens of a text.
-/

namespace FlatQasm

/-- A token with the position of its first character. -/
structure Located where
  token : Token
  position : Position

/-- The tokens among some lexemes, in order; an invalid lexeme is an error. -/
def Lexeme.tokens : List (Position × Lexeme) → Except ImportError (List Located)
  | [] => .ok []
  | (p, lexeme) :: rest =>
    match lexeme.kind with
    | .skip => tokens rest
    | .token t => (tokens rest).map (⟨t, p⟩ :: ·)
    | .invalid => .error (.invalidLexeme p lexeme.text)

/-- The tokens of a text. -/
def tokens (source : String) : Except ImportError (List Located) :=
  Lexeme.tokens (Lexeme.locate .start (lexemes source.toList))

end FlatQasm
