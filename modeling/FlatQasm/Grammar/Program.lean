import FlatQasm.Grammar.Statement

/-!
# Parsing programs

A program is a header, which may be optional, and statements.  An `include` is read and dropped.

## Main definitions

* `HeaderRule` — whether a program has to start with the header.
* `Program.parse` — the program that a source text stands for.
-/

namespace FlatQasm

/-- Whether a program has to start with the header `OPENQASM 2.0;`. -/
inductive HeaderRule where
  | required
  | optional
deriving DecidableEq

namespace Grammar

/-- The version and the semicolon behind the first word of the header.  The version is two,
however it is written. -/
def version : Parser String
  | ⟨.float value, p⟩ :: rest =>
    if value == 2.0 then finish rest else .error (.invalidVersion p (.float value))
  | ⟨.int literal, p⟩ :: rest =>
    if literal = .word 2 then finish rest else .error (.invalidVersion p (.int literal))
  | t :: _ => .error (.invalidVersion t.position t.token)
  | [] => .error (.unexpectedEnd "version number")
where
  /-- The semicolon, behind which the version is known. -/
  finish : Parser String := do
    expect .semicolon
    pure "2.0"

/-- The header, if there is one. -/
def header (rule : HeaderRule) : Parser (Option String)
  | ⟨.keyword .openqasm, _⟩ :: rest => (some <$> version) rest
  | ts =>
    match rule with
    | .required =>
      .error (.missingHeader (nextPosition .start ts) (ts.head?.map Located.token))
    | .optional => .ok (none, ts)

/-- The file name and the semicolon behind the word `include`. -/
def includedFile : Parser Unit
  | ⟨.string _, _⟩ :: rest => expect .semicolon rest
  | ts => .error (unexpected "string literal" ts)

/-- All statements up to the end of the tokens, at most as many as the bound has tokens. -/
def statements : (bound : List Located) → Scope → Parser (List Statement)
  | [], _ => pure []
  | _ :: bound, scope => fun ts =>
    match ts with
    | [] => .ok ([], [])
    | ⟨.keyword .includeFile, _⟩ :: rest => do
      let ((), rest) ← includedFile rest
      statements bound scope rest
    | ts => do
      let (first, rest) ← statement scope ts
      let (others, rest) ← statements bound (scope.declare first) rest
      .ok (first :: others, rest)

@[simp] theorem statements_nil (bound : List Located) (scope : Scope) :
    statements bound scope [] = .ok ([], []) := by
  cases bound <;> rfl

@[simp] theorem statements_include (b : Located) (bound : List Located) (scope : Scope)
    (p : Position) (ts : List Located) :
    statements (b :: bound) scope (⟨.keyword .includeFile, p⟩ :: ts) =
      includedFile ts >>= fun found => statements bound scope found.2 := rfl

/-- What is read where the first token starts no `include`. -/
@[grind =>] theorem statements_of_ne {t : Token} (ht : t ≠ .keyword .includeFile) (b : Located)
    (bound : List Located) (scope : Scope) (p : Position) (ts : List Located) :
    statements (b :: bound) scope (⟨t, p⟩ :: ts) = statement scope (⟨t, p⟩ :: ts) >>= fun first =>
      statements bound (scope.declare first.1) first.2 >>= fun others =>
        .ok (first.1 :: others.1, others.2) := by
  rw [statements]
  dsimp only
  split
  · next heq => cases heq
  · next heq =>
    cases heq
    exact absurd rfl ht
  · rfl

/-- A whole program. -/
def program (rule : HeaderRule) : Parser Program := do
  let version ← header rule
  let list ← statements (← get) .empty
  pure ⟨version, list⟩

/-- The header is the only part of a program that the rule is for. -/
theorem program_eq_bind (rule : HeaderRule) (ts : List Located) :
    program rule ts = header rule ts >>= fun found =>
      statements found.2 .empty found.2 >>= fun list => .ok (⟨found.1, list.1⟩, list.2) := rfl

end Grammar

/-- The program that a source text stands for. -/
def Program.parse (source : String) (rule : HeaderRule) : Except ImportError Program := do
  let ts ← tokens source
  let (p, _) ← Grammar.program rule ts
  pure p

end FlatQasm
