import FlatQasm.Program.Printer
import FlatQasm.Proofs.Circuit.Spelling
import FlatQasm.Proofs.Grammar.Scoping

/-!
# The tokens of a printed program

The text of a program splits into tokens that can be named from the program alone.  A minus sign in
front of a number is a token of its own, and so are the parentheses around every operation.

Every part of a program ends with a name, a number or a sign, and is followed by a sign, a blank or
nothing.  So it is enough to say what a part splits into where no name and no number goes on.

## Main definitions

* `Angle.Spelled`, `StatementKind.Spelled` — names that can be read, and finite numbers.
* `Angle.tokens`, `StatementKind.tokens`, `Program.tokens` — the tokens of a part and of the whole.
* `Spells` — a text splits into tokens, whatever follows it.

## Main statements

* `Angle.spells`, `StatementKind.spells` — the text of a part.
* `Program.lexes_text` — the text of a program.
-/

namespace FlatQasm

/-! ## Names and numbers that can be written -/

/-- Numbers are finite, and variables have names that can be read. -/
def Angle.Spelled : Angle → Prop
  | const v => v.isFinite = true
  | var name => IsIdentifier name
  | pi => True
  | neg e => e.Spelled
  | binary _ a b => a.Spelled ∧ b.Spelled

/-- Angles and registers can be read. -/
structure GateCall.Spelled (c : GateCall) : Prop where
  params : ∀ e ∈ c.params, e.Spelled
  operands : ∀ o ∈ c.operands, IsIdentifier o.name

/-- The name, the formal names and the body can be read. -/
structure GateDefinition.Spelled (d : GateDefinition) : Prop where
  name : IsIdentifier d.name
  params : ∀ x ∈ d.params, IsIdentifier x
  qubits : ∀ q ∈ d.qubits, IsIdentifier q
  body : ∀ c ∈ d.body, c.Spelled

/-- The names in a statement can be read, apart from those of the gates that it calls. -/
def StatementKind.Spelled : StatementKind → Prop
  | qreg name _ | creg name _ => IsIdentifier name
  | gateDefinition d => d.Spelled
  | call c => c.Spelled
  | measure qubit clbit => IsIdentifier qubit.name ∧ IsIdentifier clbit.name
  | reset target => IsIdentifier target.name
  | barrier targets => ∀ o ∈ targets, IsIdentifier o.name

instance : (e : Angle) → Decidable e.Spelled
  | .const v => inferInstanceAs (Decidable (v.isFinite = true))
  | .var name => inferInstanceAs (Decidable (IsIdentifier name))
  | .pi => inferInstanceAs (Decidable True)
  | .neg e => instDecidableSpelled e
  | .binary _ a b =>
    have := instDecidableSpelled a
    have := instDecidableSpelled b
    inferInstanceAs (Decidable (a.Spelled ∧ b.Spelled))

instance (c : GateCall) : Decidable c.Spelled :=
  decidable_of_iff ((∀ e ∈ c.params, e.Spelled) ∧ ∀ o ∈ c.operands, IsIdentifier o.name)
    ⟨fun ⟨params, operands⟩ => ⟨params, operands⟩, fun ⟨params, operands⟩ => ⟨params, operands⟩⟩

instance (d : GateDefinition) : Decidable d.Spelled :=
  decidable_of_iff (IsIdentifier d.name ∧ (∀ x ∈ d.params, IsIdentifier x) ∧
      (∀ q ∈ d.qubits, IsIdentifier q) ∧ ∀ c ∈ d.body, c.Spelled)
    ⟨fun ⟨name, params, qubits, body⟩ => ⟨name, params, qubits, body⟩,
      fun ⟨name, params, qubits, body⟩ => ⟨name, params, qubits, body⟩⟩

instance : (kind : StatementKind) → Decidable kind.Spelled
  | .qreg name _ | .creg name _ => inferInstanceAs (Decidable (IsIdentifier name))
  | .gateDefinition d => inferInstanceAs (Decidable d.Spelled)
  | .call c => inferInstanceAs (Decidable c.Spelled)
  | .measure qubit clbit =>
    inferInstanceAs (Decidable (IsIdentifier qubit.name ∧ IsIdentifier clbit.name))
  | .reset target => inferInstanceAs (Decidable (IsIdentifier target.name))
  | .barrier targets => inferInstanceAs (Decidable (∀ o ∈ targets, IsIdentifier o.name))

/-! ## Tokens -/

/-- The token of an operation. -/
def ArithOp.punct : ArithOp → Punct
  | add => .plus
  | sub => .minus
  | mul => .star
  | div => .slash

/-- The tokens of an angle, with parentheses around every operation. -/
def Angle.tokens : Angle → List Token
  | const v => numberTokens v
  | var name => [.ident name]
  | pi => [.keyword .pi]
  | neg e => .punct .minus :: .punct .leftParen :: (e.tokens ++ [.punct .rightParen])
  | binary op a b =>
    .punct .leftParen :: (a.tokens ++ .punct op.punct :: (b.tokens ++ [.punct .rightParen]))

/-- The tokens of an operand. -/
def Operand.tokens : Operand → List Token
  | register name => [.ident name]
  | element name index =>
    [.ident name, .punct .leftBracket, .int (.word index), .punct .rightBracket]

/-- Tokens with commas between them. -/
def listTokens (pieces : List (List Token)) : List Token :=
  [Token.punct .comma].intercalate pieces

/-- Tokens in parentheses with commas between them; none when there is nothing. -/
def parenthesizedTokens (pieces : List (List Token)) : List Token :=
  if pieces.isEmpty then [] else .punct .leftParen :: (listTokens pieces ++ [.punct .rightParen])

/-- The tokens of a gate call. -/
def GateCall.tokens (c : GateCall) : List Token :=
  .ident c.name :: (parenthesizedTokens (c.params.map Angle.tokens) ++
    (listTokens (c.operands.map Operand.tokens) ++ [.punct .semicolon]))

/-- The tokens of some names with commas between them. -/
def nameTokens (names : List String) : List (List Token) := names.map fun name => [.ident name]

/-- The tokens of a gate definition behind its keyword. -/
def GateDefinition.tokens (d : GateDefinition) : List Token :=
  .ident d.name :: (parenthesizedTokens (nameTokens d.params) ++
    (listTokens (nameTokens d.qubits) ++
      .punct .leftBrace :: (d.body.flatMap GateCall.tokens ++ [.punct .rightBrace])))

/-- The tokens of a statement. -/
def StatementKind.tokens : StatementKind → List Token
  | qreg name size => .keyword .qreg :: (elementTokens name size ++ [.punct .semicolon])
  | creg name size => .keyword .creg :: (elementTokens name size ++ [.punct .semicolon])
  | gateDefinition d => .keyword .gate :: d.tokens
  | call c => c.tokens
  | measure qubit clbit =>
    .keyword .measure :: (qubit.tokens ++ .punct .arrow :: (clbit.tokens ++ [.punct .semicolon]))
  | reset target => .keyword .reset :: (target.tokens ++ [.punct .semicolon])
  | barrier targets =>
    .keyword .barrier :: (listTokens (targets.map Operand.tokens) ++ [.punct .semicolon])

/-- The tokens of the header, for a program that has a version. -/
def Program.headerTokens (p : Program) : List Token :=
  match p.version with
  | some _ => [.keyword .openqasm, .float versionFloat, .punct .semicolon]
  | none => []

/-- The tokens of a program. -/
def Program.tokens (p : Program) : List Token :=
  p.headerTokens ++ p.statements.flatMap fun s => s.kind.tokens

/-! ## Texts in front of others -/

/-- A text splits into tokens wherever no name and no number goes on behind it. -/
def Spells (text : String) (pieces : List Token) : Prop :=
  ∀ (rest : List Char) (ts : List Token), Apart rest → Lexes rest ts →
    Lexes (text.toList ++ rest) (pieces ++ ts)

variable {rest : List Char} {ts : List Token}

theorem spells_identifier {name : String} (h : IsIdentifier name) : Spells name [.ident name] :=
  fun _ _ apart behind => .identifier h apart behind

/-- A text splits into tokens in front of a sign or a blank. -/
theorem Spells.lexes_cons {text : String} {pieces : List Token} (h : Spells text pieces) {c : Char}
    (hc : isNameChar c = false ∧ c ≠ '.') (behind : Lexes (c :: rest) ts) :
    Lexes (text.toList ++ c :: rest) (pieces ++ ts) :=
  h _ _ (apart_cons hc.1 hc.2) behind

section Lists

variable {α : Type} {text : α → String} {pieces : α → List Token} {xs : List α}

/-- Texts with commas between them. -/
theorem spells_commaList (h : ∀ x ∈ xs, Spells (text x) (pieces x)) :
    Spells (commaList (xs.map text)) (listTokens (xs.map pieces)) := by
  intro rest ts apart behind
  simp only [commaList, listTokens]
  induction xs with
  | nil => exact behind
  | cons x xs ih =>
    rw [List.forall_mem_cons] at h
    obtain ⟨hx, hxs⟩ := h
    cases xs with
    | nil =>
      rw [List.map_singleton, List.map_singleton, List.intercalate_singleton,
        String.intercalate_singleton]
      exact hx rest ts apart behind
    | cons y xs =>
      have hcomma : ", ".toList = [',', ' '] := rfl
      have hrest := ih hxs
      simp only [List.map_cons, String.intercalate_cons_cons, List.intercalate_cons_cons,
        String.toList_append, List.append_assoc, hcomma, List.cons_append,
        List.nil_append] at hrest ⊢
      exact hx.lexes_cons ⟨rfl, by decide⟩ (.token rfl (.space rfl hrest))

/-- Texts in parentheses with commas between them, in front of a blank. -/
theorem Lexes.parenthesized (h : ∀ x ∈ xs, Spells (text x) (pieces x))
    (behind : Lexes (' ' :: rest) ts) :
    Lexes ((parenthesized (xs.map text)).toList ++ ' ' :: rest)
      (parenthesizedTokens (xs.map pieces) ++ ts) := by
  cases xs with
  | nil => exact behind
  | cons x xs =>
    have hlist := (spells_commaList h).lexes_cons (c := ')') ⟨rfl, by decide⟩
      (.token (t := .punct .rightParen) rfl behind)
    simp only [FlatQasm.parenthesized, parenthesizedTokens, List.map_cons, List.isEmpty_cons,
      Bool.false_eq_true, if_false, String.toList_append, List.append_assoc, List.cons_append,
      List.nil_append] at hlist ⊢
    exact .token rfl hlist

/-- Neither a name nor a number goes on into parentheses or into a blank. -/
theorem apart_parenthesized (texts : List String) (rest : List Char) :
    Apart ((parenthesized texts).toList ++ ' ' :: rest) := by
  rw [parenthesized]
  split
  · exact @apart_cons ' ' rest rfl (by decide)
  · simp only [String.toList_append, List.append_assoc]
    exact apart_cons rfl (by decide)

end Lists

/-! ## Angles and operands -/

/-- **The text of an angle.** -/
theorem Angle.spells {e : Angle} (h : e.Spelled) : Spells e.text e.tokens := by
  induction e with
  | const v => exact fun _ _ apart behind => behind.float h apart
  | var name => exact spells_identifier h
  | pi => exact fun _ _ apart behind => .keyword .pi apart behind
  | neg e ih =>
    intro rest ts apart behind
    have inner := (ih h).lexes_cons (c := ')') ⟨rfl, by decide⟩
      (.token (t := .punct .rightParen) rfl behind)
    simp only [text, tokens, String.toList_append, List.append_assoc, List.cons_append,
      List.nil_append]
    exact .minus (by decide) (.token rfl inner)
  | binary op a b iha ihb =>
    intro rest ts apart behind
    have right := (ihb h.2).lexes_cons (c := ')') ⟨rfl, by decide⟩
      (.token (t := .punct .rightParen) rfl behind)
    have sign : Lexes (op.sign.toList ++ ' ' :: (b.text.toList ++ ')' :: rest))
        (.punct op.punct :: (b.tokens ++ .punct .rightParen :: ts)) := by
      cases op with
      | sub => exact .minus (by decide) (.space rfl right)
      | _ => exact .token rfl (.space rfl right)
    have left := (iha h.1).lexes_cons (c := ' ') ⟨rfl, by decide⟩ (.space rfl sign)
    simp only [text, tokens, String.toList_append, List.append_assoc, List.cons_append,
      List.nil_append]
    exact .token rfl left

/-- The text of an operand. -/
theorem Operand.spells {o : Operand} (h : IsIdentifier o.name) : Spells o.text o.tokens := by
  cases o with
  | register name => exact spells_identifier h
  | element name index =>
    intro rest ts apart behind
    have close : Lexes (']' :: rest) (.punct .rightBracket :: ts) := .token rfl behind
    have number := Lexes.integer index.toNat_lt (apart_cons rfl (by decide)) close
    have inside := (spells_identifier h).lexes_cons (c := '[') ⟨rfl, by decide⟩
      (.token (t := .punct .leftBracket) rfl number)
    have htext : (Operand.element name index).text.toList ++ rest =
        name.toList ++ '[' :: (Nat.toDigits 10 index.toNat ++ ']' :: rest) := by
      simp [text, toString]
    rw [htext, tokens]
    rw [UInt64.ofNat_toNat] at inside
    exact inside

/-! ## Statements -/

/-- The text of a gate call. -/
theorem GateCall.spells {c : GateCall} (hname : IsIdentifier c.name) (h : c.Spelled) :
    Spells c.text c.tokens := by
  intro rest ts apart behind
  have operands := (spells_commaList fun o ho => Operand.spells (h.operands o ho)).lexes_cons
    (c := ';') ⟨rfl, by decide⟩ (.token (t := .punct .semicolon) rfl behind)
  have params := Lexes.parenthesized (fun e he => Angle.spells (h.params e he))
    (.space (c := ' ') rfl operands)
  have all := Lexes.identifier hname (apart_parenthesized _ _) params
  simp only [text, tokens, String.toList_append, List.append_assoc, List.cons_append,
    List.nil_append]
  exact all

/-- The calls of a body with a blank behind each of them, in front of a text. -/
theorem Lexes.body {body : List GateCall} (hnames : ∀ c ∈ body, IsIdentifier c.name)
    (h : ∀ c ∈ body, c.Spelled) (behind : Lexes rest ts) :
    Lexes ((String.join (body.map fun call => call.text ++ " ")).toList ++ rest)
      (body.flatMap GateCall.tokens ++ ts) := by
  induction body with
  | nil => exact behind
  | cons c body ih =>
    rw [List.forall_mem_cons] at hnames h
    have others := ih hnames.2 h.2
    have first := (GateCall.spells hnames.1 h.1).lexes_cons (c := ' ') ⟨rfl, by decide⟩
      (.space rfl others)
    rw [List.map_cons, String.join_cons, List.flatMap_cons, String.toList_append,
      String.toList_append, List.append_assoc, List.append_assoc, List.append_assoc]
    exact first

/-- The text of a gate definition, in front of a text. -/
theorem Lexes.gateDefinition {d : GateDefinition} (hnames : ∀ c ∈ d.body, IsIdentifier c.name)
    (h : d.Spelled) (behind : Lexes rest ts) :
    Lexes (d.text.toList ++ rest) (.keyword .gate :: d.tokens ++ ts) := by
  have close : Lexes ('\x7d' :: rest) (.punct .rightBrace :: ts) := .token rfl behind
  have body := Lexes.body hnames h.body close
  have names (list : List String) (hlist : ∀ x ∈ list, IsIdentifier x) :
      ∀ x ∈ list, Spells (id x) [.ident x] := fun x hx => spells_identifier (hlist x hx)
  have brace : Lexes ('\x7b' :: ' ' :: _) (.punct .leftBrace :: _) := .token rfl (.space rfl body)
  have qubits := (spells_commaList (names d.qubits h.qubits)).lexes_cons (c := ' ')
    ⟨rfl, by decide⟩ (.space rfl brace)
  have params := Lexes.parenthesized (names d.params h.params) (.space (c := ' ') rfl qubits)
  have name := Lexes.identifier h.name (apart_parenthesized _ _) params
  have all := Lexes.keyword .gate (apart_cons rfl (by decide)) (.space (c := ' ') rfl name)
  rw [List.map_id, List.map_id] at all
  simp only [GateDefinition.text, GateDefinition.tokens, nameTokens, String.toList_append,
    List.append_assoc, List.cons_append, List.nil_append]
  exact all

/-- **The text of a statement.** -/
theorem Statement.spells {s : Statement} (hcalls : ∀ c ∈ s.calls, IsIdentifier c.name)
    (h : s.kind.Spelled) : Spells s.kind.text s.kind.tokens := by
  intro rest ts apart behind
  obtain ⟨kind, position⟩ := s
  have close : Lexes (';' :: rest) (.punct .semicolon :: ts) := .token rfl behind
  have declaration (word : Keyword) {name : String} (hname : IsIdentifier name) (size : UInt32) :
      Lexes (word.text.toList ++
          ' ' :: ((name ++ "[" ++ toString size.toNat ++ "]").toList ++ ';' :: rest))
        (.keyword word :: (elementTokens name size ++ .punct .semicolon :: ts)) :=
    .keyword word (apart_cons rfl (by decide)) (.space rfl (close.element hname size))
  cases kind with
  | qreg name size =>
    simpa [StatementKind.text, StatementKind.tokens, Keyword.text] using declaration .qreg h size
  | creg name size =>
    simpa [StatementKind.text, StatementKind.tokens, Keyword.text] using declaration .creg h size
  | gateDefinition d => exact behind.gateDefinition hcalls h
  | call c => exact GateCall.spells (hcalls c (List.mem_singleton_self c)) h rest ts apart behind
  | measure qubit clbit =>
    have target := (Operand.spells h.2).lexes_cons (c := ';') ⟨rfl, by decide⟩ close
    have arrow : Lexes ('-' :: '>' :: ' ' :: _) (.punct .arrow :: _) :=
      .token rfl (.space rfl target)
    have source := (Operand.spells h.1).lexes_cons (c := ' ') ⟨rfl, by decide⟩ (.space rfl arrow)
    have all := Lexes.keyword .measure (apart_cons rfl (by decide)) (.space (c := ' ') rfl source)
    simpa [StatementKind.text, StatementKind.tokens, Keyword.text] using all
  | reset target =>
    have target := (Operand.spells h).lexes_cons (c := ';') ⟨rfl, by decide⟩ close
    have all := Lexes.keyword .reset (apart_cons rfl (by decide)) (.space (c := ' ') rfl target)
    simpa [StatementKind.text, StatementKind.tokens, Keyword.text] using all
  | barrier targets =>
    have list : Spells (commaList (targets.map Operand.text))
        (listTokens (targets.map Operand.tokens)) :=
      spells_commaList fun o ho => Operand.spells (h o ho)
    have list := list.lexes_cons (c := ';') ⟨rfl, by decide⟩ close
    have all := Lexes.keyword .barrier (apart_cons rfl (by decide)) (.space (c := ' ') rfl list)
    simpa [StatementKind.text, StatementKind.tokens, Keyword.text] using all

/-! ## Programs -/

/-- Texts on lines of their own. -/
theorem lexes_intercalate {lines : List String} {pieces : List (List Token)}
    (h : List.Forall₂ Spells lines pieces) :
    Lexes ("\n".intercalate lines).toList pieces.flatten := by
  induction h with
  | nil => exact .nil
  | @cons line piece lines pieces first others ih =>
    cases lines with
    | nil =>
      cases others
      have last := first [] [] (fun c hc => by cases hc) .nil
      rw [String.intercalate_singleton, List.flatten_singleton]
      rwa [List.append_nil, List.append_nil] at last
    | cons next lines =>
      have hbreak : "\n".toList = ['\n'] := rfl
      have all := first.lexes_cons (c := '\n') ⟨rfl, by decide⟩ (.space rfl ih)
      rw [String.intercalate_cons_cons, String.toList_append, String.toList_append, hbreak,
        List.append_assoc, List.singleton_append, List.flatten_cons]
      exact all

/-- **The text of a program splits into the tokens of the program.** -/
theorem Program.lexes_text {p : Program} (hversion : p.version = none ∨ p.version = some "2.0")
    (hcalls : ∀ s ∈ p.statements, ∀ c ∈ s.calls, IsIdentifier c.name)
    (h : ∀ s ∈ p.statements, s.kind.Spelled) : Lexes p.text.toList p.tokens := by
  have statements : List.Forall₂ Spells (p.statements.map fun s => s.kind.text)
      (p.statements.map fun s => s.kind.tokens) := by
    rw [List.forall₂_map_left_iff, List.forall₂_map_right_iff, List.forall₂_same]
    exact fun s hs => Statement.spells (hcalls s hs) (h s hs)
  rw [tokens, headerTokens, text, lines, List.flatMap_def]
  obtain hnone | hsome := hversion
  · rw [hnone]
    exact lexes_intercalate statements
  · rw [hsome]
    have header : Spells "OPENQASM 2.0;"
        [.keyword .openqasm, .float versionFloat, .punct .semicolon] :=
      fun _ _ _ behind => behind.version
    exact lexes_intercalate (.cons header statements)

end FlatQasm
