/-!
# Positions in source text

Lines and columns count from one, and columns count characters.
-/

namespace FlatQasm

/-- A line and a column. -/
structure Position where
  line : Nat
  column : Nat
deriving DecidableEq

namespace Position

/-- The position of the first character. -/
def start : Position := ⟨1, 1⟩

/-- The position behind a character. -/
def next (p : Position) (c : Char) : Position :=
  if c = '\n' then ⟨p.line + 1, 1⟩ else ⟨p.line, p.column + 1⟩

/-- The position behind some characters. -/
def after (p : Position) (text : List Char) : Position := text.foldl next p

/-- The written form. -/
def text (p : Position) : String := toString p.line ++ ":" ++ toString p.column

theorem after_append (p : Position) (s t : List Char) :
    p.after (s ++ t) = (p.after s).after t := List.foldl_append

end Position

end FlatQasm
