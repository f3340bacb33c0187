import FlatQasm.Grammar.Program
import FlatQasm.Proofs.Agreement

/-!
# Parsers on tokens at other places

A parser never looks at positions: on related tokens it gives related values and leaves related
tokens, or it fails with errors that agree.  The position of an error is always that of a token that
was there.

## Main definitions

* `Parser.Agrees` — two parsers agree on related tokens.
* `Statement.Agrees` — statements that differ in their positions only.

## Main statements

* `Parser.Agrees.bind` — two parsers in a row.
* `agrees_statement`, `agree_program` — a statement, and a whole program.
-/

namespace FlatQasm

/-- Statements that differ in their positions only. -/
def Statement.Agrees (r : Located → Located → Prop) (s s' : Statement) : Prop :=
  s.kind = s'.kind ∧ Placed r s.position s'.position

/-- Programs that differ in the positions of their statements only. -/
def Program.Agrees (r : Located → Located → Prop) (p p' : Program) : Prop :=
  p.version = p'.version ∧ List.Forall₂ (Statement.Agrees r) p.statements p'.statements

namespace Grammar

variable {r : Located → Located → Prop} {α α' β β' : Type}

/-- Related values in front of related tokens. -/
def Behind (r : Located → Located → Prop) (R : α → α' → Prop) (x : α × List Located)
    (y : α' × List Located) : Prop :=
  R x.1 y.1 ∧ List.Forall₂ r x.2 y.2

/-- Two parsers agree on related tokens. -/
def Parser.Agrees (r : Located → Located → Prop) (p : Parser α) (p' : Parser α')
    (R : α → α' → Prop) : Prop :=
  ∀ ts ts', List.Forall₂ r ts ts' → Agree r (Behind r R) (p ts) (p' ts')

/-- The same value in front of related tokens, and what is done with both. -/
theorem agree_bind_same {x y : Except ImportError (α × List Located)}
    (h : Agree r (Behind r Eq) x y) {R : β → β' → Prop}
    {f : α × List Located → Except ImportError β}
    {g : α × List Located → Except ImportError β'}
    (hfg : ∀ a ts ts', List.Forall₂ r ts ts' → Agree r R (f (a, ts)) (g (a, ts'))) :
    Agree r R (x >>= f) (y >>= g) := by
  refine h.bind fun x y hxy => ?_
  obtain ⟨a, ts⟩ := x
  obtain ⟨a', ts'⟩ := y
  obtain ⟨rfl, hts⟩ := hxy
  exact hfg a ts ts' hts

namespace Parser.Agrees

variable {p : Parser α} {p' : Parser α'} {f : α → Parser β} {f' : α' → Parser β'}
  {R : α → α' → Prop} {S : β → β' → Prop}

theorem pure {a : α} {a' : α'} (h : R a a') : Agrees r (pure a) (pure a') R :=
  fun _ _ hts => .ok ⟨h, hts⟩

theorem bind (hp : Agrees r p p' R) (hf : ∀ a a', R a a' → Agrees r (f a) (f' a') S) :
    Agrees r (p >>= f) (p' >>= f') S :=
  fun ts ts' hts => (hp ts ts' hts).bind fun x y hxy => hf x.1 y.1 hxy.1 x.2 y.2 hxy.2

/-- Where the first parsers give the same value. -/
theorem next {p' : Parser α} {f' : α → Parser β'} (hp : Agrees r p p' Eq)
    (hf : ∀ a, Agrees r (f a) (f' a) S) : Agrees r (p >>= f) (p' >>= f') S := by
  refine hp.bind fun a a' h => ?_
  subst h
  exact hf a

theorem map {g : α → β} {g' : α' → β'} (hp : Agrees r p p' R)
    (hg : ∀ a a', R a a' → S (g a) (g' a')) : Agrees r (g <$> p) (g' <$> p') S :=
  hp.bind fun a a' h => .pure (hg a a' h)

theorem get : Agrees r (MonadState.get : Parser (List Located)) MonadState.get (List.Forall₂ r) :=
  fun _ _ hts => .ok ⟨hts, hts⟩

theorem fail {e e' : ImportError} (h : ErrorsAgree r e e') :
    Agrees r (fail e : Parser α) (Grammar.fail e' : Parser α') R :=
  fun _ _ _ => .error h

end Parser.Agrees

open FlatQasm.Grammar.Parser (Agrees)

/-! ## Parts of parsers -/

/-- A call behind its angles. -/
def callOperands (operand : Parser Operand) (p : Position) (name : String) (arity : Arity)
    (params : List Angle) : Parser GateCall := do
  let operands ← commaSeparated operand
  expect .semicolon
  if params.length ≠ arity.params then
    fail (.wrongParamCount p name arity.params params.length)
  else if operands.length ≠ arity.qubits then
    fail (.wrongQubitCount p name arity.qubits operands.length)
  else
    pure ⟨name, params, operands⟩

/-- A gate definition behind its formal angles. -/
def definitionQubits (scope : Scope) (p : Position) (name : String) (params : List String) :
    Parser GateDefinition := do
  let qubits ← names
  match firstRepeated? (params ++ qubits) with
  | some formal => fail (.duplicateDeclaration p formal)
  | none =>
    expect .leftBrace
    let calls ← body scope qubits (← get)
    pure ⟨name, params, qubits, calls⟩

/-! ## Places -/

theorem nextPosition_place {p p' : Position} (hp : Placed r p p') {ts ts' : List Located}
    (hts : List.Forall₂ r ts ts') : Placed r (nextPosition p ts) (nextPosition p' ts') := by
  cases hts with
  | nil => exact hp
  | cons ht _ => exact ⟨_, _, ht, rfl, rfl⟩

theorem negate_agree {p p' : Position} (hp : Placed r p p') (operand : Subtree) :
    Agree r Eq (negate p operand) (negate p' operand) := by
  rw [negate, negate]
  split
  · exact .error (.placed hp rfl rfl)
  · exact .ok rfl

theorem join_agree (op : ArithOp) {p p' : Position} (hp : Placed r p p') (left right : Subtree) :
    Agree r Eq (join op p left right) (join op p' left right) := by
  rw [join, join]
  split
  · exact .error (.placed hp rfl rfl)
  · split
    · exact .error (.placed hp rfl rfl)
    · exact .ok rfl

/-! ## Single tokens -/

section Parsers

variable (same : ∀ t t', r t t' → t.token = t'.token)
include same

/-- Parsers that look at the first token agree when they do so on each token. -/
theorem agrees_of_cases {p : Parser α} {p' : Parser α'} {R : α → α' → Prop}
    (hnil : Agree r (Behind r R) (p []) (p' []))
    (hcons : ∀ t q q' rest rest', r ⟨t, q⟩ ⟨t, q'⟩ → List.Forall₂ r rest rest' →
      Agree r (Behind r R) (p (⟨t, q⟩ :: rest)) (p' (⟨t, q'⟩ :: rest'))) : Agrees r p p' R := by
  intro ts ts' hts
  cases hts with
  | nil => exact hnil
  | @cons t t' rest rest' ht hrest =>
    obtain ⟨t, q⟩ := t
    obtain ⟨t', q'⟩ := t'
    obtain rfl : t = t' := same _ _ ht
    exact hcons t q q' rest rest' ht hrest

theorem unexpected_agree (expected : String) {ts ts' : List Located} (hts : List.Forall₂ r ts ts') :
    ErrorsAgree r (unexpected expected ts) (unexpected expected ts') := by
  cases hts with
  | nil => exact .positionless rfl
  | @cons t t' _ _ ht _ =>
    rw [unexpected, unexpected, ← same t t' ht]
    exact .found ht

theorem nextIs_eq (sign : Punct) {ts ts' : List Located} (hts : List.Forall₂ r ts ts') :
    nextIs sign ts = nextIs sign ts' := by
  cases hts with
  | nil => rfl
  | @cons t t' _ _ ht _ =>
    obtain ⟨t, q⟩ := t
    obtain ⟨t', q'⟩ := t'
    obtain rfl : t = t' := same _ _ ht
    cases t <;> rfl

theorem agrees_expect (sign : Punct) : Agrees r (expect sign) (expect sign) Eq := by
  intro ts ts' hts
  rw [expect, expect, ← nextIs_eq same sign hts]
  split
  · exact .ok ⟨rfl, List.forall₂_drop 1 hts⟩
  · exact .error (unexpected_agree same _ hts)

theorem agrees_accept (sign : Punct) : Agrees r (accept sign) (accept sign) Eq := by
  intro ts ts' hts
  rw [accept, accept, ← nextIs_eq same sign hts]
  split
  · exact .ok ⟨rfl, List.forall₂_drop 1 hts⟩
  · exact .ok ⟨rfl, hts⟩

/-- Names with their positions agree. -/
theorem agrees_identifier :
    Agrees r identifier identifier fun x x' => x.1 = x'.1 ∧ Placed r x.2 x'.2 := by
  refine agrees_of_cases same (.error (.positionless rfl)) fun t q q' rest rest' ht hrest => ?_
  cases t with
  | ident name => exact .ok ⟨⟨rfl, _, _, ht, rfl, rfl⟩, hrest⟩
  | _ => exact .error (.found ht)

/-- Behind a name, its position is at hand. -/
theorem agrees_identifier_bind {f : String × Position → Parser β}
    {f' : String × Position → Parser β'} {S : β → β' → Prop}
    (hf : ∀ name p p', Placed r p p' → Agrees r (f (name, p)) (f' (name, p')) S) :
    Agrees r (identifier >>= f) (identifier >>= f') S := by
  refine (agrees_identifier same).bind fun x x' hx => ?_
  obtain ⟨name, p⟩ := x
  obtain ⟨name', p'⟩ := x'
  obtain ⟨rfl, hplace⟩ : name = name' ∧ Placed r p p' := hx
  exact hf name p p' hplace

theorem agrees_integer : Agrees r integer integer Eq := by
  refine agrees_of_cases same (.error (.positionless rfl)) fun t q q' rest rest' ht hrest => ?_
  cases t with
  | int literal =>
    cases literal with
    | word value => exact .ok ⟨rfl, hrest⟩
    | wide digits => exact .error (.placed ⟨_, _, ht, rfl, rfl⟩ rfl rfl)
  | _ => exact .error (.found ht)

/-! ## Lists -/

section Lists

variable {element : Parser α} {element' : Parser α'} {R : α → α' → Prop}

theorem agrees_afterCommas (helement : Agrees r element element' R) {bound bound' : List Located}
    (hbound : List.Forall₂ r bound bound') :
    Agrees r (afterCommas element bound) (afterCommas element' bound') (List.Forall₂ R) := by
  induction hbound with
  | nil => exact .pure .nil
  | cons _ _ ih =>
    refine (agrees_accept same .comma).next fun found => ?_
    cases found with
    | true => exact helement.bind fun _ _ hx => ih.bind fun _ _ hxs => .pure (.cons hx hxs)
    | false => exact .pure .nil

theorem agrees_commaSeparated (helement : Agrees r element element' R) :
    Agrees r (commaSeparated element) (commaSeparated element') (List.Forall₂ R) :=
  helement.bind fun _ _ hx => Agrees.get.bind fun _ _ hbound =>
    (agrees_afterCommas same helement hbound).bind fun _ _ hxs => .pure (.cons hx hxs)

/-- Lists of the same elements are the same. -/
theorem agrees_list {element element' : Parser α} (helement : Agrees r element element' Eq) :
    Agrees r (commaSeparated element) (commaSeparated element') Eq := by
  intro ts ts' hts
  have h := agrees_commaSeparated same helement ts ts' hts
  rw [List.forall₂_eq_eq_eq] at h
  exact h

end Lists

/-! ## Angles -/

section Angles

variable {inner inner' : (minimum nesting : Nat) → List Located → SubtreeResult}
  (hinner : ∀ minimum nesting, Agrees (α := Subtree) r (inner minimum nesting)
    (inner' minimum nesting) Eq)
include hinner

theorem agrees_primary (nesting : Nat) :
    Agrees (α := Subtree) r (primary inner nesting) (primary inner' nesting) Eq := by
  refine agrees_of_cases same (.error (.positionless rfl)) fun t q q' rest rest' ht hrest => ?_
  have found : Agree r (Behind r Eq)
      (.error (unexpected "expression" (⟨t, q⟩ :: rest)) : SubtreeResult)
      (.error (unexpected "expression" (⟨t, q'⟩ :: rest'))) := .error (.found ht)
  have hplace : Placed r q q' := ⟨_, _, ht, rfl, rfl⟩
  cases t with
  | int => exact .ok ⟨rfl, hrest⟩
  | float => exact .ok ⟨rfl, hrest⟩
  | ident => exact .ok ⟨rfl, hrest⟩
  | string => exact found
  | keyword word =>
    cases word with
    | pi => exact .ok ⟨rfl, hrest⟩
    | _ => exact found
  | punct sign =>
    cases sign with
    | leftParen =>
      have hnested : Agree r (Behind r Eq) (nested inner nesting q rest)
          (nested inner' nesting q' rest') := by
        rw [nested, nested]
        split
        · exact .error (.placed (nextPosition_place hplace hrest) rfl rfl)
        · exact hinner 0 (nesting + 1) rest rest' hrest
      refine agree_bind_same hnested fun s ts ts' hts => ?_
      exact agree_bind_same (agrees_expect same .rightParen ts ts' hts)
        fun _ _ _ hts => .ok ⟨rfl, hts⟩
    | _ => exact found

theorem agrees_unary (nesting : Nat) :
    Agrees (α := Subtree) r (unary inner nesting) (unary inner' nesting) Eq := by
  refine agrees_of_cases same (.error (.positionless rfl)) fun t q q' rest rest' ht hrest => ?_
  have hplace : Placed r q q' := ⟨_, _, ht, rfl, rfl⟩
  have hprimary := agrees_primary same hinner nesting _ _ (.cons ht hrest)
  cases t with
  | punct sign =>
    cases sign with
    | minus =>
      rw [unary, unary]
      split
      · exact .error (.placed hplace rfl rfl)
      · refine agree_bind_same (hinner operandPrecedence (nesting + 1) rest rest' hrest)
          fun s ts ts' hts => ?_
        exact (negate_agree hplace s).bind fun e e' he => .ok ⟨he, hts⟩
    | _ => exact hprimary
  | _ => exact hprimary

end Angles

theorem agrees_climb_extend {bound bound' : List Located} (hbound : List.Forall₂ r bound bound') :
    (∀ minimum nesting, Agrees (α := Subtree) r (climb bound minimum nesting)
      (climb bound' minimum nesting) Eq) ∧
    ∀ minimum nesting left, Agrees (α := Subtree) r (extend bound minimum nesting left)
      (extend bound' minimum nesting left) Eq := by
  induction hbound with
  | nil =>
    refine ⟨fun minimum nesting ts ts' hts => ?_, fun minimum nesting left ts ts' hts => ?_⟩
    · rw [climb, climb]
      exact .error (unexpected_agree same _ hts)
    · rw [extend, extend]
      exact .ok ⟨rfl, hts⟩
  | @cons _ _ bound bound' _ _ ih =>
    refine ⟨fun minimum nesting ts ts' hts => ?_, fun minimum nesting left => ?_⟩
    · rw [climb, climb]
      exact agree_bind_same (agrees_unary same ih.1 nesting ts ts' hts)
        fun left ts ts' hts => ih.2 minimum nesting left ts ts' hts
    · have stop {t : Token} {q q' : Position} {rest rest' : List Located}
          (ht : r ⟨t, q⟩ ⟨t, q'⟩) (hrest : List.Forall₂ r rest rest') :
          Agree r (Behind r Eq) (.ok (left, ⟨t, q⟩ :: rest) : SubtreeResult)
            (.ok (left, ⟨t, q'⟩ :: rest')) := .ok ⟨rfl, .cons ht hrest⟩
      refine agrees_of_cases same (.ok ⟨rfl, .nil⟩) fun t q q' rest rest' ht hrest => ?_
      cases t with
      | punct sign =>
        simp only [extend]
        cases operation? sign with
        | none => exact stop ht hrest
        | some op =>
          dsimp only
          split
          · exact stop ht hrest
          · refine agree_bind_same (ih.1 (precedence op + 1) nesting rest rest' hrest)
              fun right ts ts' hts => ?_
            refine (join_agree op ⟨_, _, ht, rfl, rfl⟩ left right).bind fun e e' he => ?_
            subst he
            exact ih.2 minimum nesting e ts ts' hts
      | _ => exact stop ht hrest

theorem agrees_angle : Agrees r angle angle Eq := by
  intro ts ts' hts
  exact agree_bind_same ((agrees_climb_extend same hts).1 0 1 ts ts' hts)
    fun _ _ _ hts => .ok ⟨rfl, hts⟩

theorem agrees_arguments : Agrees r arguments arguments Eq := by
  refine Agrees.get.bind fun ts ts' hts => ?_
  rw [← nextIs_eq same .rightParen hts]
  dsimp only
  split
  · exact .pure rfl
  · exact (agrees_list same (agrees_angle same)).next fun args => .pure rfl

/-! ## Statements -/

theorem agrees_operand : Agrees r operand operand Eq := by
  refine agrees_identifier_bind same fun name p p' hplace => ?_
  refine (agrees_accept same .leftBracket).next fun found => ?_
  cases found with
  | true =>
    exact (agrees_integer same).next fun index => (agrees_expect same .rightBracket).next fun _ =>
      .pure rfl
  | false => exact .pure rfl

theorem agrees_formalOperand (qubits : List String) :
    Agrees r (formalOperand qubits) (formalOperand qubits) Eq := by
  refine agrees_identifier_bind same fun name p p' hplace => ?_
  dsimp only
  split
  · exact .fail (.placed hplace rfl rfl)
  · refine Agrees.get.bind fun ts ts' hts => ?_
    rw [← nextIs_eq same .leftBracket hts]
    split
    · exact Agrees.get.bind fun ts ts' hts => .fail (unexpected_agree same _ hts)
    · exact .pure rfl

theorem agrees_callOperands {p p' : Position} (hplace : Placed r p p') (name : String)
    (arity : Arity) (params : List Angle) {operand operand' : Parser Operand}
    (hoperand : Agrees r operand operand' Eq) :
    Agrees r (callOperands operand p name arity params)
      (callOperands operand' p' name arity params) Eq := by
  refine (agrees_list same hoperand).next fun operands => ?_
  refine (agrees_expect same .semicolon).next fun _ => ?_
  split
  · exact .fail (.placed hplace rfl rfl)
  · split
    · exact .fail (.placed hplace rfl rfl)
    · exact .pure rfl

theorem agrees_call (scope : Scope) {operand operand' : Parser Operand}
    (hoperand : Agrees r operand operand' Eq) :
    Agrees r (call scope operand) (call scope operand') Eq := by
  refine agrees_identifier_bind same fun name p p' hplace => ?_
  dsimp only
  cases scope.arity? name with
  | none => exact .fail (.placed hplace rfl rfl)
  | some arity =>
    dsimp only
    have hrest (params : List Angle) := agrees_callOperands same hplace name arity params hoperand
    refine (agrees_accept same .leftParen).next fun found => ?_
    cases found with
    | true =>
      refine (agrees_arguments same).next fun params => ?_
      exact (agrees_expect same .rightParen).next fun _ => hrest params
    | false => exact hrest []

theorem agrees_names : Agrees r names names Eq := by
  refine (agrees_commaSeparated same (agrees_identifier same)).map fun list list' h => ?_
  induction h with
  | nil => rfl
  | cons hx _ ih => rw [List.map_cons, List.map_cons, hx.1, ih]

theorem agrees_registerDeclaration (scope : Scope) (make : String → UInt32 → StatementKind) :
    Agrees r (registerDeclaration scope make) (registerDeclaration scope make) Eq := by
  refine agrees_identifier_bind same fun name p p' hplace => ?_
  refine (agrees_expect same .leftBracket).next fun _ => ?_
  refine (agrees_integer same).next fun size => ?_
  refine (agrees_expect same .rightBracket).next fun _ => ?_
  refine (agrees_expect same .semicolon).next fun _ => ?_
  split
  · exact .fail (.placed hplace rfl rfl)
  · split
    · exact .fail (.placed hplace rfl rfl)
    · exact .pure rfl

theorem agrees_body (scope : Scope) (qubits : List String) {bound bound' : List Located}
    (hbound : List.Forall₂ r bound bound') :
    Agrees r (body scope qubits bound) (body scope qubits bound') Eq := by
  induction hbound with
  | nil => exact fun ts ts' hts => .error (unexpected_agree same _ hts)
  | cons _ _ ih =>
    refine (agrees_accept same .rightBrace).next fun closed => ?_
    cases closed with
    | true => exact .pure rfl
    | false =>
      refine Agrees.get.bind fun ts ts' hts => ?_
      have other : Agrees r (fail (unexpected "gate call or '\x7d'" ts) : Parser (List GateCall))
          (fail (unexpected "gate call or '\x7d'" ts')) Eq := .fail (unexpected_agree same _ hts)
      cases hts with
      | nil => exact other
      | @cons t t' _ _ ht _ =>
        obtain ⟨t, q⟩ := t
        obtain ⟨t', q'⟩ := t'
        obtain rfl : t = t' := same _ _ ht
        cases t with
        | ident =>
          refine (agrees_call same scope (agrees_formalOperand same qubits)).next fun first => ?_
          exact ih.next fun rest => .pure rfl
        | _ => exact other

theorem agrees_definitionQubits (scope : Scope) {p p' : Position} (hplace : Placed r p p')
    (name : String) (params : List String) :
    Agrees r (definitionQubits scope p name params) (definitionQubits scope p' name params) Eq := by
  refine (agrees_names same).next fun qubits => ?_
  cases firstRepeated? (params ++ qubits) with
  | some formal => exact .fail (.placed hplace rfl rfl)
  | none =>
    refine (agrees_expect same .leftBrace).next fun _ => ?_
    refine Agrees.get.bind fun bound bound' hbound => ?_
    exact (agrees_body same scope qubits hbound).next fun calls => .pure rfl

theorem agrees_gateDefinition (scope : Scope) :
    Agrees r (gateDefinition scope) (gateDefinition scope) Eq := by
  refine agrees_identifier_bind same fun name p p' hplace => ?_
  dsimp only
  split
  · exact .fail (.placed hplace rfl rfl)
  · have hrest (params : List String) := agrees_definitionQubits same scope hplace name params
    refine (agrees_accept same .leftParen).next fun found => ?_
    cases found with
    | true =>
      refine Agrees.get.bind fun ts ts' hts => ?_
      rw [← nextIs_eq same .rightParen hts]
      have behind (params : List String) :=
        (agrees_expect same .rightParen).next fun _ => hrest params
      split
      · exact behind []
      · exact (agrees_names same).next behind
    | false => exact hrest []

theorem agrees_measurement : Agrees r measurement measurement Eq :=
  (agrees_operand same).next fun _ => (agrees_expect same .arrow).next fun _ =>
    (agrees_operand same).next fun _ => (agrees_expect same .semicolon).next fun _ => .pure rfl

theorem agrees_reset : Agrees r reset reset Eq :=
  (agrees_operand same).next fun _ => (agrees_expect same .semicolon).next fun _ => .pure rfl

theorem agrees_barrier : Agrees r barrier barrier Eq :=
  (agrees_list same (agrees_operand same)).next fun _ =>
    (agrees_expect same .semicolon).next fun _ => .pure rfl

theorem agrees_statementKind (scope : Scope) :
    Agrees r (statementKind scope) (statementKind scope) Eq := by
  refine agrees_of_cases same (.error (.positionless rfl)) fun t q q' rest rest' ht hrest => ?_
  have found : Agree r (Behind r Eq)
      (.error (unexpected "statement" (⟨t, q⟩ :: rest)) : Except ImportError (StatementKind × _))
      (.error (unexpected "statement" (⟨t, q'⟩ :: rest'))) := .error (.found ht)
  cases t with
  | keyword word =>
    cases word with
    | qreg => exact agrees_registerDeclaration same scope .qreg rest rest' hrest
    | creg => exact agrees_registerDeclaration same scope .creg rest rest' hrest
    | gate =>
      exact (agrees_gateDefinition same scope).map (fun _ _ => congrArg _) rest rest' hrest
    | measure => exact agrees_measurement same rest rest' hrest
    | reset => exact agrees_reset same rest rest' hrest
    | barrier => exact agrees_barrier same rest rest' hrest
    | _ => exact found
  | ident name =>
    exact (agrees_call same scope (agrees_operand same)).map (fun _ _ => congrArg _) _ _
      (.cons ht hrest)
  | _ => exact found

/-- **Statements on tokens at other places** differ in their positions only. -/
theorem agrees_statement (scope : Scope) :
    Agrees r (statement scope) (statement scope) (Statement.Agrees r) := by
  refine agrees_of_cases same (.error (.positionless rfl)) fun t q q' rest rest' ht hrest => ?_
  refine agree_bind_same (agrees_statementKind same scope _ _ (.cons ht hrest))
    fun kind us us' hus => ?_
  exact .ok ⟨⟨rfl, _, _, ht, rfl, rfl⟩, hus⟩

/-! ## Programs -/

theorem agrees_version : Agrees r version version Eq := by
  have finish : Agrees r version.finish version.finish Eq :=
    (agrees_expect same .semicolon).next fun _ => .pure rfl
  refine agrees_of_cases same (.error (.positionless rfl)) fun t q q' rest rest' ht hrest => ?_
  have hplace : Placed r q q' := ⟨_, _, ht, rfl, rfl⟩
  cases t with
  | float value =>
    rw [version, version]
    split
    · exact finish rest rest' hrest
    · exact .error (.placed hplace rfl rfl)
  | int literal =>
    rw [version, version]
    split
    · exact finish rest rest' hrest
    · exact .error (.placed hplace rfl rfl)
  | _ => exact .error (.placed hplace rfl rfl)

omit same in
/-- What stands for the header when the first token is another one. -/
theorem header_of_ne (rule : HeaderRule) {ts : List Located}
    (h : ∀ t ∈ ts.head?, t.token ≠ .keyword .openqasm) : header rule ts =
      match rule with
      | .required => .error (.missingHeader (nextPosition .start ts) (ts.head?.map Located.token))
      | .optional => .ok (none, ts) := by
  simp only [header]
  split
  · exact absurd rfl (h _ rfl)
  · rfl

/-- Where there are no tokens, the missing header has a position of its own. -/
theorem agree_header (rule : HeaderRule) {ts ts' : List Located} (hts : List.Forall₂ r ts ts')
    (hne : rule = .required → ts ≠ []) :
    Agree r (Behind r Eq) (header rule ts) (header rule ts') := by
  cases hts with
  | nil =>
    cases rule with
    | required => exact absurd rfl (hne rfl)
    | optional => exact .ok ⟨rfl, .nil⟩
  | @cons t t' rest rest' ht hrest =>
    obtain ⟨t, q⟩ := t
    obtain ⟨t', q'⟩ := t'
    obtain rfl : t = t' := same _ _ ht
    by_cases hfirst : t = .keyword .openqasm
    · subst hfirst
      exact (agrees_version same).map (fun _ _ => congrArg _) rest rest' hrest
    · rw [header_of_ne rule (by rintro _ ⟨⟩; exact hfirst),
        header_of_ne rule (by rintro _ ⟨⟩; exact hfirst)]
      cases rule with
      | required => exact .error (.placed ⟨_, _, ht, rfl, rfl⟩ rfl rfl)
      | optional => exact .ok ⟨rfl, .cons ht hrest⟩

theorem agrees_includedFile : Agrees r includedFile includedFile Eq := by
  refine agrees_of_cases same (.error (.positionless rfl)) fun t q q' rest rest' ht hrest => ?_
  cases t with
  | string => exact agrees_expect same .semicolon rest rest' hrest
  | _ => exact .error (.found ht)

theorem agrees_statements {bound bound' : List Located} (hbound : List.Forall₂ r bound bound')
    (scope : Scope) : Agrees r (statements bound scope) (statements bound' scope)
      (List.Forall₂ (Statement.Agrees r)) := by
  induction hbound generalizing scope with
  | nil => exact .pure .nil
  | @cons _ _ bound bound' _ _ ih =>
    refine agrees_of_cases same (.ok ⟨.nil, .nil⟩) fun t q q' rest rest' ht hrest => ?_
    by_cases hfile : t = .keyword .includeFile
    · subst hfile
      exact agree_bind_same (agrees_includedFile same rest rest' hrest)
        fun _ us us' hus => ih scope us us' hus
    · rw [statements_of_ne hfile, statements_of_ne hfile]
      refine (agrees_statement same scope _ _ (.cons ht hrest)).bind fun x y hxy => ?_
      obtain ⟨s, us⟩ := x
      obtain ⟨s', us'⟩ := y
      obtain ⟨hs, hus⟩ := hxy
      have hdeclare : scope.declare s' = scope.declare s := by
        rw [Scope.declare, Scope.declare, hs.1]
      dsimp only
      rw [hdeclare]
      exact (ih (scope.declare s) us us' hus).bind fun x y hxy => .ok ⟨.cons hs hxy.1, hxy.2⟩

/-- **Programs on tokens at other places** differ in the positions of their statements only. -/
theorem agree_program (rule : HeaderRule) {ts ts' : List Located} (hts : List.Forall₂ r ts ts')
    (hne : rule = .required → ts ≠ []) :
    Agree r (Behind r (Program.Agrees r)) (program rule ts) (program rule ts') := by
  refine agree_bind_same (agree_header same rule hts hne) fun version us us' hus => ?_
  refine (agrees_statements same hus .empty us us' hus).bind fun x y hxy => ?_
  exact .ok ⟨⟨rfl, hxy.1⟩, hxy.2⟩

end Parsers

end Grammar

end FlatQasm
