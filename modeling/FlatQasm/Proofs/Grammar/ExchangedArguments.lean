import FlatQasm.Proofs.Grammar.Exchange

/-!
# Programs with another argument

A program is read in the same way when an argument `pi` is exchanged for one that is within the
nesting limit, and it is refused for its depth when the other argument is not.  The first angle that
is read at the place of an argument may be the one that was exchanged; every other parser only hands
on what the parsers inside it do.  What the arguments of a call are does not matter to the rest of
the program, only how many there are.

## Main statements

* `keeps_angle` — an angle, which may be the one that was exchanged.
* `keeps_call`, `keeps_gateDefinition` — calls, and definitions whose bodies have calls.
* `keeps_program` — a whole program.
-/

namespace FlatQasm.Grammar

variable {arg : List Token} {within : Prop} {place : Place}

/-! ## Angles -/

/-- The argument that is taken out is read. -/
theorem angle_pi (q : Position) {rest : List Located}
    (h : EndsArgument (rest.map Located.token)) :
    angle (⟨.keyword .pi, q⟩ :: rest) = .ok (.pi, rest) := by
  have admissible : Angle.pi.Admissible := ⟨by decide, by simp [Angle.quotients]⟩
  have derives : Derives .expr ([⟨.keyword .pi, q⟩].map Located.token) .pi 0 :=
    .expr (.term (.unary .pi))
  exact angle_of_derives derives (by decide) admissible h.head?_ne_operator

section Angles

variable {e : Angle} {opened : Nat} (harg : Argument arg e opened)
include harg

/-- **An angle at the place of an argument** may be the one that was exchanged.  Then it is read or
refused; any other angle is read as before. -/
theorem keeps_angle :
    Parser.Keeps arg (Within 1 opened e) .argument angle angle (fun _ _ => True) := by
  intro ts ts' hts found rest hfound
  rcases Exchanged.argument_cases hts with hother | ⟨after, hafter, hus, hus'⟩
  · obtain ⟨us, n, rfl, hderives, hn, hhead⟩ := exists_derives_of_angle hfound
    rw [List.map_append] at hother
    obtain ⟨vs', hsplit, hrest⟩ := hderives.untouched _ _ hother
    obtain ⟨us', rest', rfl, hus', rfl⟩ := List.map_eq_append_iff.1 hsplit
    rw [← hus'] at hderives
    rw [← hrest.head?_eq (by simp)] at hhead
    have hread := angle_of_derives hderives hn (admissible_of_angle hfound) hhead
    exact .inl ⟨found, rest', hread, trivial, hrest⟩
  · obtain ⟨q, behind, rfl, rfl⟩ := exists_of_map_eq_cons hus
    obtain ⟨us', behind', rfl, rfl, hbehind⟩ := List.map_eq_append_iff.1 hus'
    cases (angle_pi q hafter).symm.trans hfound
    rw [← hbehind] at hafter
    refine (angle_cases harg.derives harg.divisors hafter.head?_ne_operator).imp ?_ id
    rintro ⟨within, hread⟩
    refine ⟨e, behind', hread, trivial, ?_⟩
    rw [At, hbehind]
    exact .passed within

/-- Whether the list of arguments is empty does not depend on what its arguments are. -/
theorem nextIs_rightParen {ts ts' : List Located} (hts : At arg within .argument ts ts') :
    nextIs .rightParen ts' = nextIs .rightParen ts := by
  rcases Exchanged.argument_cases hts with hother | ⟨after, -, hus, hus'⟩
  · exact nextIs_congr (hother.head?_eq (by simp))
  · rw [Bool.eq_iff_iff, nextIs_iff, nextIs_iff, hus, hus']
    exact iff_of_false (harg.derives.head?_ne after) (by simp)

theorem keeps_arguments : Parser.Keeps arg (Within 1 opened e) .argument arguments arguments
    (fun args args' => args'.length = args.length) := by
  refine Parser.Keeps.get_bind fun ts ts' hts => ?_
  rw [nextIs_rightParen harg hts]
  split
  · next hnext =>
    have hhead := nextIs_iff.1 hnext
    rcases Exchanged.argument_cases hts with hother | ⟨after, -, hus, -⟩
    · have none : Parser.Keeps arg (Within 1 opened e) .name (pure [] : Parser (List Angle))
          (pure []) (fun args args' => args'.length = args.length) := .pure rfl
      exact none ts ts' (hother.of_other .name)
    · rw [hus] at hhead
      cases hhead
  · have hangles := keeps_commaSeparated (keeps_angle harg) (keeps_angle harg)
      fun ts x rest => reads_angle.length_le
    refine hangles.bind (fun args args' h => .pure ?_) ts ts' hts
    rw [List.length_map, List.length_map, h.length_eq]

end Angles

/-! ## Operands and calls -/

theorem keeps_operand : Parser.Keeps arg within place operand operand Eq := by
  refine keeps_identifier_bind fun name q q' => keeps_accept_bind ?_ (.pure rfl)
  refine keeps_integer.next fun index => ?_
  exact (keeps_expect (by decide)).next fun _ => .pure rfl

theorem keeps_formalOperand (qubits : List String) :
    Parser.Keeps arg within place (formalOperand qubits) (formalOperand qubits) Eq := by
  refine keeps_identifier_bind fun name q q' => ?_
  dsimp only
  split
  · exact .fail
  · refine Parser.Keeps.get_bind fun ts ts' hts => ?_
    rw [nextIs_congr (Exchanged.head?_eq hts (by simp))]
    split
    · intro x rest h
      cases h
    · exact Parser.Keeps.pure rfl ts ts' hts

theorem keeps_semicolon :
    Parser.Keeps arg within place (expect .semicolon) (expect .semicolon) Eq :=
  keeps_expect (by decide)

section Operands

variable {operand : Parser Operand}
  (hoperand : ∀ place, Parser.Keeps arg within place operand operand Eq)
  (hreads : Parser.Reads operand operand Eq plain)
include hoperand hreads

theorem keeps_operands :
    Parser.Keeps arg within place (commaSeparated operand) (commaSeparated operand) Eq := by
  have h := keeps_commaSeparated (hoperand place) (hoperand .argument)
    fun ts x rest => hreads.length_le
  rwa [List.forall₂_eq_eq_eq] at h

theorem keeps_callOperands (q q' : Position) (name : String) (arity : Arity)
    {params params' : List Angle} (hparams : params'.length = params.length) :
    Parser.Keeps arg within .name (callOperands operand q name arity params)
      (callOperands operand q' name arity params') (fun _ _ => True) := by
  refine (keeps_operands hoperand hreads).next fun operands => ?_
  refine keeps_semicolon.next fun _ => ?_
  rw [hparams]
  split
  · exact .fail
  · split
    · exact .fail
    · exact .pure trivial

end Operands

/-- A call in a body is read, and then the others. -/
theorem body_ident (scope : Scope) (qubits : List String) (b : Located) (bound : List Located)
    (name : String) (q : Position) (ts : List Located) :
    body scope qubits (b :: bound) (⟨.ident name, q⟩ :: ts) =
      call scope (formalOperand qubits) (⟨.ident name, q⟩ :: ts) >>= fun first =>
        body scope qubits bound first.2 >>= fun others =>
          .ok (first.1 :: others.1, others.2) := rfl

section Calls

variable {e : Angle} {opened : Nat} (harg : Argument arg e opened)
include harg

theorem keeps_call (scope : Scope) {operand : Parser Operand}
    (hoperand : ∀ place, Parser.Keeps arg (Within 1 opened e) place operand operand Eq)
    (hreads : Parser.Reads operand operand Eq plain) :
    Parser.Keeps arg (Within 1 opened e) place (call scope operand) (call scope operand)
      (fun _ _ => True) := by
  refine keeps_identifier_bind fun name q q' => ?_
  dsimp only
  cases scope.arity? name with
  | none => exact .fail
  | some arity =>
    have hrest (params params' : List Angle) (hparams : params'.length = params.length) :=
      keeps_callOperands hoperand hreads q q' name arity hparams
    refine keeps_accept_bind ?_ (hrest [] [] rfl)
    refine (keeps_arguments harg).bind fun params params' hparams => ?_
    exact (keeps_expect (by decide)).next fun _ => hrest params params' hparams

theorem keeps_body (scope : Scope) (qubits : List String) {bound bound' ts ts' : List Located}
    (hbound' : ts'.length ≤ bound'.length) (hts : At arg (Within 1 opened e) .name ts ts') :
    Kept arg (Within 1 opened e) (fun _ _ => True) (body scope qubits bound ts)
      (body scope qubits bound' ts') := by
  induction bound generalizing ts ts' bound' with
  | nil => exact .error
  | cons b bound ih =>
    cases ts with
    | nil => exact .error
    | cons t ts =>
      obtain ⟨t, q⟩ := t
      obtain ⟨q', rest', rfl, hrest⟩ := hts.uncons (by simp)
      obtain ⟨b', bound', rfl, hbound'⟩ := exists_cons_of_succ_le hbound'
      cases t with
      | punct sign =>
        cases sign with
        | rightBrace =>
          rw [body, body, accept_bind_found, accept_bind_found]
          exact Parser.Keeps.pure trivial ts rest' (hrest.to_name (Place.next_ne (by simp) _))
        | _ => exact .error
      | ident name =>
        rw [body_ident, body_ident]
        have hcall := keeps_call harg scope (fun _ => keeps_formalOperand qubits)
          (reads_formalOperand qubits) _ _ hts
        refine hcall.bind fun first first' between between' _ hfirst' _ hbetween => ?_
        have hlength' := (closes_call scope (reads_formalOperand qubits)).length_lt hfirst'
        rw [List.length_cons] at hlength'
        refine (ih (by omega) hbetween).bind fun others others' rest rest' _ _ _ hrest => ?_
        exact Parser.Keeps.pure trivial rest rest' hrest
      | _ => exact .error

end Calls

/-! ## Gate definitions -/

theorem keeps_names : Parser.Keeps arg within place names names Eq := by
  refine (keeps_commaSeparated keeps_identifier keeps_identifier
    fun ts x rest => closes_identifier.reads.length_le).bind fun list list' h => .pure ?_
  induction h with
  | nil => rfl
  | cons hx _ ih => rw [List.map_cons, List.map_cons, hx, ih]

/-- Definitions of the same name for as many angles and qubits. -/
def SameHeads (d d' : GateDefinition) : Prop := d'.name = d.name ∧ d'.arity = d.arity

section Definitions

variable {e : Angle} {opened : Nat} (harg : Argument arg e opened)
include harg

theorem keeps_definitionQubits (scope : Scope) (q q' : Position) (name : String)
    (params : List String) : Parser.Keeps arg (Within 1 opened e) .name
      (definitionQubits scope q name params) (definitionQubits scope q' name params) SameHeads := by
  refine keeps_names.next fun qubits => ?_
  cases firstRepeated? (params ++ qubits) with
  | some formal => exact .fail
  | none =>
    refine (keeps_expect (by decide)).next fun _ => ?_
    refine Parser.Keeps.get_bind fun ts ts' hts => ?_
    refine (keeps_body harg scope qubits (Nat.le_refl _) hts).bind
      fun calls calls' rest rest' _ _ _ hrest => ?_
    exact Parser.Keeps.pure ⟨rfl, rfl⟩ rest rest' hrest

theorem keeps_gateDefinition (scope : Scope) : Parser.Keeps arg (Within 1 opened e) place
    (gateDefinition scope) (gateDefinition scope) SameHeads := by
  refine keeps_identifier_bind fun name q q' => ?_
  dsimp only
  split
  · exact .fail
  · have hrest := keeps_definitionQubits harg scope q q' name
    refine keeps_accept_bind ?_ (hrest [])
    refine Parser.Keeps.get_bind fun ts ts' hts => ?_
    rw [nextIs_rightParen harg hts]
    have behind {place : Place} (params : List String) :
        Parser.Keeps arg (Within 1 opened e) place
          (expect .rightParen >>= fun _ => definitionQubits scope q name params)
          (expect .rightParen >>= fun _ => definitionQubits scope q' name params) SameHeads :=
      (keeps_expect (by decide)).next fun _ => hrest params
    split
    · exact behind [] ts ts' hts
    · exact keeps_names.next behind ts ts' hts

end Definitions

/-! ## Statements -/

theorem keeps_registerDeclaration (scope : Scope) (make : String → UInt32 → StatementKind) :
    Parser.Keeps arg within place (registerDeclaration scope make) (registerDeclaration scope make)
      Eq := by
  refine keeps_identifier_bind fun name q q' => ?_
  refine (keeps_expect (by decide)).next fun _ => ?_
  refine keeps_integer.next fun size => ?_
  refine (keeps_expect (by decide)).next fun _ => ?_
  refine keeps_semicolon.next fun _ => ?_
  split
  · exact .fail
  · split
    · exact .fail
    · exact .pure rfl

theorem keeps_measurement : Parser.Keeps arg within place measurement measurement Eq :=
  keeps_operand.next fun _ => (keeps_expect (by decide)).next fun _ =>
    keeps_operand.next fun _ => keeps_semicolon.next fun _ => .pure rfl

theorem keeps_reset : Parser.Keeps arg within place reset reset Eq :=
  keeps_operand.next fun _ => keeps_semicolon.next fun _ => .pure rfl

theorem keeps_barrier : Parser.Keeps arg within place barrier barrier Eq :=
  (keeps_operands (fun _ => keeps_operand) reads_operand).next fun _ =>
    keeps_semicolon.next fun _ => .pure rfl

/-- Statements of these kinds declare the same names. -/
def DeclareSame (kind kind' : StatementKind) : Prop :=
  ∀ (scope : Scope) (q q' : Position), scope.declare ⟨kind', q'⟩ = scope.declare ⟨kind, q⟩

section Statements

variable {e : Angle} {opened : Nat} (harg : Argument arg e opened)
include harg

theorem keeps_statementKind (scope : Scope) : Parser.Keeps arg (Within 1 opened e) .name
    (statementKind scope) (statementKind scope) DeclareSame := by
  intro ts ts' hts
  cases ts with
  | nil => exact .error
  | cons t ts =>
    obtain ⟨t, q⟩ := t
    obtain ⟨q', ts', rfl, hbehind⟩ := hts.uncons (by simp)
    cases t with
    | keyword word =>
      have hname : At arg (Within 1 opened e) .name ts ts' :=
        hbehind.to_name (Place.next_ne (by simp) _)
      have same {p : Parser StatementKind}
          (hp : Parser.Keeps arg (Within 1 opened e) .name p p Eq) :
          Kept arg (Within 1 opened e) DeclareSame (p ts) (p ts') :=
        hp.mono (fun kind kind' h scope q q' => h ▸ rfl) ts ts' hname
      cases word with
      | qreg => exact same (keeps_registerDeclaration scope .qreg)
      | creg => exact same (keeps_registerDeclaration scope .creg)
      | gate =>
        refine (keeps_gateDefinition harg scope).map (fun d d' h scope q q' => ?_) ts ts' hname
        simp only [Scope.declare, h.1, h.2]
      | measure => exact same keeps_measurement
      | reset => exact same keeps_reset
      | barrier => exact same keeps_barrier
      | _ => exact .error
    | ident name =>
      exact (keeps_call harg scope (fun _ => keeps_operand) reads_operand).map
        (fun _ _ _ scope q q' => rfl) _ _ hts
    | _ => exact .error

theorem keeps_statement (scope : Scope) : Parser.Keeps arg (Within 1 opened e) .name
    (statement scope) (statement scope) (fun s s' => ∀ scope : Scope,
      scope.declare s' = scope.declare s) := by
  intro ts ts' hts
  refine (keeps_statementKind harg scope ts ts' hts).bind
    fun kind kind' rest rest' _ _ hkind hrest => ?_
  exact Parser.Keeps.pure (fun scope => hkind scope _ _) rest rest' hrest

end Statements

/-! ## Programs -/

theorem keeps_version : Parser.Keeps arg within place version version Eq := by
  have finish : Parser.Keeps arg within .name version.finish version.finish Eq :=
    keeps_semicolon.next fun _ => .pure rfl
  intro ts ts' hts
  cases ts with
  | nil => exact .error
  | cons t ts =>
    obtain ⟨t, q⟩ := t
    cases t with
    | float value =>
      obtain ⟨q', ts', rfl, hbehind⟩ := hts.behind (by simp) (by simp)
      rw [version, version]
      split
      · exact finish ts ts' hbehind
      · exact .error
    | int literal =>
      obtain ⟨q', ts', rfl, hbehind⟩ := hts.behind (by simp) (by simp)
      rw [version, version]
      split
      · exact finish ts ts' hbehind
      · exact .error
    | _ => exact .error

theorem keeps_header (rule : HeaderRule) :
    Parser.Keeps arg within .name (header rule) (header rule) Eq := by
  intro ts ts' hts
  rcases hts.head_cases (.keyword .openqasm) with
    ⟨q, behind, q', behind', rfl, rfl, hbehind⟩ | ⟨hhead, hhead'⟩
  · exact keeps_version.map (fun _ _ h => congrArg some h) behind behind' hbehind
  · have other {ts : List Located}
        (h : (ts.map Located.token).head? ≠ some (.keyword .openqasm)) :
        ∀ t ∈ ts.head?, t.token ≠ .keyword .openqasm := by
      intro t ht htoken
      rw [List.head?_map, ht, Option.map_some, htoken] at h
      exact h rfl
    rw [header_of_ne rule (other hhead), header_of_ne rule (other hhead')]
    cases rule with
    | required => exact .error
    | optional => exact Parser.Keeps.pure rfl ts ts' hts

theorem keeps_includedFile : Parser.Keeps arg within place includedFile includedFile Eq := by
  intro ts ts' hts
  cases ts with
  | nil => exact .error
  | cons t ts =>
    obtain ⟨t, q⟩ := t
    cases t with
    | string =>
      obtain ⟨q', ts', rfl, hbehind⟩ := hts.uncons (by simp)
      exact keeps_semicolon ts ts' hbehind
    | _ => exact .error

theorem length_lt_of_statement {scope : Scope} {ts rest : List Located} {s : Statement}
    (h : statement scope ts = .ok (s, rest)) : rest.length < ts.length := by
  obtain ⟨⟨kind, behind⟩, hkind, heq⟩ := bind_eq_ok.1 h
  cases heq
  exact (closes_statementKind scope).length_lt hkind

section Programs

variable {e : Angle} {opened : Nat} (harg : Argument arg e opened)
include harg

theorem keeps_statements (scope : Scope) {bound bound' ts ts' : List Located}
    (hbound : ts.length ≤ bound.length) (hbound' : ts'.length ≤ bound'.length)
    (hts : At arg (Within 1 opened e) .name ts ts') :
    Kept arg (Within 1 opened e) (fun _ _ => True) (statements bound scope ts)
      (statements bound' scope ts') := by
  induction bound generalizing scope ts ts' bound' with
  | nil =>
    obtain rfl : ts = [] := List.length_eq_zero_iff.1 (Nat.le_zero.1 hbound)
    obtain rfl := hts.nil
    rw [statements_nil, statements_nil]
    exact Parser.Keeps.pure trivial [] [] hts
  | cons b bound ih =>
    cases ts with
    | nil =>
      obtain rfl := hts.nil
      rw [statements_nil, statements_nil]
      exact Parser.Keeps.pure trivial [] [] hts
    | cons t ts =>
      obtain ⟨t, q⟩ := t
      obtain ⟨q', ts', rfl, hbehind⟩ := hts.uncons (by simp)
      obtain ⟨b', bound', rfl, hbound'⟩ := exists_cons_of_succ_le hbound'
      have hbound : ts.length ≤ bound.length := Nat.le_of_succ_le_succ hbound
      by_cases ht : t = .keyword .includeFile
      · subst ht
        rw [statements_include, statements_include]
        refine (keeps_includedFile ts ts' hbehind).bind
          fun _ _ rest rest' hfile hfile' _ hrest => ?_
        have hlength := closes_includedFile.length_lt hfile
        have hlength' := closes_includedFile.length_lt hfile'
        have hshort : rest.length ≤ bound.length := by omega
        have hshort' : rest'.length ≤ bound'.length := by omega
        exact ih scope hshort hshort' hrest
      · rw [statements_of_ne ht, statements_of_ne ht]
        refine (keeps_statement harg scope _ _ hts).bind
          fun s s' rest rest' hs hs' hsame hrest => ?_
        have hlength := length_lt_of_statement hs
        have hlength' := length_lt_of_statement hs'
        rw [List.length_cons] at hlength hlength'
        dsimp only
        rw [hsame scope]
        refine (ih (scope.declare s) (by omega) (by omega) hrest).bind
          fun others others' rest rest' _ _ _ hrest => ?_
        exact Parser.Keeps.pure trivial rest rest' hrest

/-- **A program with another argument** is read like the one with `pi`, or it is refused for the
depth of the argument. -/
theorem keeps_program (rule : HeaderRule) : Parser.Keeps arg (Within 1 opened e) .name
    (program rule) (program rule) (fun _ _ => True) := by
  refine (keeps_header rule).next fun version => Parser.Keeps.get_bind fun ts ts' hts => ?_
  refine (keeps_statements harg .empty (Nat.le_refl _) (Nat.le_refl _) hts).bind
    fun list list' rest rest' _ _ _ hrest => ?_
  exact Parser.Keeps.pure trivial rest rest' hrest

end Programs

end FlatQasm.Grammar
