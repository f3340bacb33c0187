import FlatQasm.Decimal.Layout
import FlatQasm.Decimal.Numeral

/-!
# Tokens of OpenQASM 2.0

## Main definitions

* `Keyword`, `Punct`, `IntLiteral`, `Token` — the tokens.
* `Token.text` — a token as messages show it.
-/

namespace FlatQasm

/-- The reserved words. -/
inductive Keyword where
  | openqasm
  | includeFile
  | qreg
  | creg
  | gate
  | measure
  | reset
  | barrier
  | pi
deriving DecidableEq

namespace Keyword

/-- Every reserved word. -/
def all : List Keyword :=
  [openqasm, includeFile, qreg, creg, gate, measure, reset, barrier, pi]

/-- The spelling of a reserved word. -/
def text : Keyword → String
  | openqasm => "OPENQASM"
  | includeFile => "include"
  | qreg => "qreg"
  | creg => "creg"
  | gate => "gate"
  | measure => "measure"
  | reset => "reset"
  | barrier => "barrier"
  | pi => "pi"

/-- The reserved word with a given spelling. -/
def ofText? (word : String) : Option Keyword := all.find? fun keyword => keyword.text == word

end Keyword

/-- Operators and punctuation. -/
inductive Punct where
  | plus
  | minus
  | star
  | slash
  | arrow
  | leftParen
  | rightParen
  | leftBracket
  | rightBracket
  | leftBrace
  | rightBrace
  | semicolon
  | comma
deriving DecidableEq

/-- The spelling of a punctuation token. -/
def Punct.text : Punct → String
  | plus => "+"
  | minus => "-"
  | star => "*"
  | slash => "/"
  | arrow => "->"
  | leftParen => "("
  | rightParen => ")"
  | leftBracket => "["
  | rightBracket => "]"
  | leftBrace => "\x7b"
  | rightBrace => "\x7d"
  | semicolon => ";"
  | comma => ","

/-- An integer literal: a 64-bit number, or the digits of a larger one as they are written. -/
inductive IntLiteral where
  | word (value : UInt64)
  | wide (digits : List Char)
deriving DecidableEq

namespace IntLiteral

/-- The literal that some digits make. -/
def ofDigits (digits : List Char) : IntLiteral :=
  let value := Decimal.digitsValue digits
  if value < UInt64.size then word (UInt64.ofNat value) else wide digits

/-- The literal as messages show it: a 64-bit number without leading zeros. -/
def text : IntLiteral → String
  | word value => toString value.toNat
  | wide digits => String.ofList digits

/-- The float nearest to the number. -/
def toFloat : IntLiteral → Float
  | word value => Decimal.ofNat value.toNat
  | wide digits =>
    Decimal.ofSignAndBits false (Decimal.Scientific.trim ⟨Decimal.digitsValue digits, 0⟩).toBits

end IntLiteral

/-- The tokens. -/
inductive Token where
  | keyword (word : Keyword)
  | punct (sign : Punct)
  | float (value : Float)
  | int (literal : IntLiteral)
  | string (content : String)
  | ident (name : String)
deriving BEq

/-- A token as messages show it. -/
def Token.text : Token → String
  | keyword word => word.text
  | punct sign => sign.text
  | float value => Decimal.Layout.source.text value
  | int literal => literal.text
  | string content => "\"" ++ content ++ "\""
  | ident name => name

end FlatQasm
