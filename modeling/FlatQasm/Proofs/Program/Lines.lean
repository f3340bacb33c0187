import FlatQasm.Proofs.Grammar.TopLevel
import FlatQasm.Proofs.Program.Appending
import FlatQasm.Proofs.Program.Headers
import FlatQasm.Proofs.Program.Insertions

/-!
# A line behind a source text

A line that is put behind a source text does not change what the text splits into, and neither what
is read from it: no token goes beyond the end of a line, and no statement looks at what stands
behind it.  So what the longer text stands for is known from the statements of the shorter one and
from the tokens of the line alone.

## Main statements

* `lexes_line` — the tokens of a text and a line behind it.
* `Grammar.exists_program_behind` — the tokens behind a program are read with its names declared.
* `Program.exists_parse_line`, `Program.refuses_parse_line` — a statement on a line of its own.
* `Circuit.ofSource_line` — what a statement on a line of its own adds to a circuit.
-/

namespace FlatQasm

/-! ## Tokens -/

/-- What may stand at the end of a text may stand at the end of a line. -/
theorem Gap.of_line {gap behind : List Char} (h : Gap [] gap)
    (hbehind : ∀ c ∈ behind.head?, c = '\n') : Gap behind gap := by
  induction h with
  | nil => exact .nil
  | blank hc _ ih => exact .blank hc ih
  | @comment text gap htext hline _ ih =>
    refine .comment htext ?_ ih
    cases gap with
    | nil => exact hbehind
    | cons c gap => exact hline

/-- **The tokens of a text and a line behind it.** -/
theorem lexes_line {source : String} {ts : List Located} (hts : tokens source = .ok ts)
    {line : List Char} {us : List Token} (h : Lexes line us) :
    Lexes (source.toList ++ '\n' :: line) (ts.map Located.token ++ us) := by
  obtain ⟨htokens, hall⟩ := Item.tokens_eq_map (tokens_eq_ok.1 hts)
  obtain ⟨a, z, htext, cut⟩ :=
    (tiles_items source).exists_cut (List.append_nil (items source)).symm hall
  have hgap : Gap ('\n' :: line) z := by
    cases cut.tiles with
    | gap hgap => exact hgap.of_line (by simp)
  have hbarrier : Barrier '\n' := by decide
  rw [← htokens, htext]
  refine cut.replace (List.append_nil z).symm (.inr ?_) ((lexes_gap hgap).2 (.space rfl h))
  simpa using hbarrier

/-! ## Statements -/

namespace Grammar

open FlatQasm.Grammar.Parser (Takes Refuses)

section Statements

variable {bound : List Located} {scope : Scope}

theorem map_nil_append (x : Except ImportError (List Statement × List Located)) :
    (x.map fun found => ([] ++ found.1, found.2)) = x := by
  cases x <;> rfl

/-- The tokens behind some statements are read with the names of the statements declared. -/
theorem exists_statements_behind {ts rest : List Located} {list : List Statement}
    (hbound : ts.length ≤ bound.length) (h : statements bound scope ts = .ok (list, rest))
    {located bound' : List Located} {us : List Token}
    (hlocated : located.map Located.token = ts.map Located.token ++ us)
    (hbound' : located.length ≤ bound'.length) :
    ∃ front behind bound'', SameKinds list front ∧ behind.map Located.token = us ∧
      behind.length ≤ bound''.length ∧
      statements bound' scope located =
        (statements bound'' (list.foldl Scope.declare scope) behind).map fun found =>
          (front ++ found.1, found.2) := by
  induction bound generalizing scope ts list located bound' with
  | nil =>
    obtain rfl : ts = [] := List.length_eq_zero_iff.1 (Nat.le_zero.1 hbound)
    cases h
    exact ⟨[], located, bound', rfl, hlocated, hbound', (map_nil_append _).symm⟩
  | cons b bound ih =>
    cases ts with
    | nil =>
      cases h
      exact ⟨[], located, bound', rfl, hlocated, hbound', (map_nil_append _).symm⟩
    | cons t ts =>
      obtain ⟨used, between, s?, others, hsplit, piece, rfl, hothers⟩ := exists_piece h
      have hpos := List.length_pos_iff.2 (topLevel_of_unit piece.unit).1
      have hlength := congrArg List.length hsplit
      have hlength' := congrArg List.length hlocated
      simp only [List.length_map, List.length_append, List.length_cons] at hpos hlength hlength'
      rw [hsplit, List.map_append, List.append_assoc] at hlocated
      obtain ⟨b', bound', rfl, hrest⟩ :=
        exists_cons_of_succ_le (show located.length - 1 + 1 ≤ bound'.length by omega)
      obtain ⟨front, between', hfront, hbetween, hstep⟩ := piece.step b' bound' hlocated
      have hbetween' := congrArg List.length hbetween
      simp only [List.length_map, List.length_append] at hbetween'
      have hbound : ts.length + 1 ≤ bound.length + 1 := hbound
      have hshort : between.length ≤ bound.length := by omega
      have hshort' : between'.length ≤ bound'.length := by omega
      obtain ⟨front', behind, bound'', hfront', hbehind, hlarge, heq⟩ :=
        ih hshort hothers hbetween hshort'
      have hscope : (s?.toList ++ others).foldl Scope.declare scope =
          others.foldl Scope.declare (behind? scope s?) := by
        cases s? <;> rfl
      refine ⟨front ++ front', behind, bound'', hfront.append hfront', hbehind, hlarge, ?_⟩
      rw [hstep, heq, hscope]
      cases statements bound'' (others.foldl Scope.declare (behind? scope s?)) behind with
      | error e => rfl
      | ok found =>
        exact congrArg (fun list => Except.ok (list, found.2))
          (List.append_assoc front front' found.1).symm

end Statements

section Programs

variable {rule : HeaderRule} {ts rest located : List Located} {p : Program} {us : List Token}

/-- **The tokens behind a program are read with the names of the program declared.** -/
theorem exists_program_behind (h : program rule ts = .ok (p, rest))
    (hlocated : located.map Located.token = ts.map Located.token ++ us)
    (hus : ∀ t ∈ us.head?, t ≠ .keyword .openqasm) :
    ∃ front behind bound, SameKinds p.statements front ∧ behind.map Located.token = us ∧
      behind.length ≤ bound.length ∧
      program rule located =
        (statements bound (p.statements.foldl Scope.declare .empty) behind).map fun found =>
          (⟨p.version, front ++ found.1⟩, found.2) := by
  obtain ⟨⟨found, between⟩, hheader, h⟩ := bind_eq_ok.1 h
  obtain ⟨⟨list, end_⟩, hlist, heq⟩ := bind_eq_ok.1 h
  cases heq
  have headed : ∃ between', header rule located = .ok (found, between') ∧
      between'.map Located.token = between.map Located.token ++ us := by
    obtain ⟨used, rfl, -, -, htakes⟩ | ⟨rfl, rfl, rfl, hfirst⟩ := header_cases hheader
    · rw [List.map_append, List.append_assoc] at hlocated
      obtain ⟨_, between', hfound, rfl, hbetween⟩ := htakes _ located hlocated
      exact ⟨between', hfound, hbetween⟩
    · refine ⟨located, header_of_ne .optional fun t ht => ?_, hlocated⟩
      have hhead : t.token ∈ (between.map Located.token ++ us).head? := by
        rw [← hlocated, List.head?_map, ht]
        rfl
      cases between with
      | nil => exact hus _ hhead
      | cons first between =>
        have hsame : first.token = t.token := Option.some.inj hhead
        rw [← hsame]
        exact hfirst first rfl
  obtain ⟨between', hheader', hbetween⟩ := headed
  obtain ⟨front, behind, bound, hfront, hbehind, hbound, hstatements⟩ :=
    exists_statements_behind (Nat.le_refl _) hlist hbetween (Nat.le_refl between'.length)
  refine ⟨front, behind, bound, hfront, hbehind, hbound, ?_⟩
  rw [program_eq_bind, hheader', ok_bind, hstatements]
  cases statements bound (list.foldl Scope.declare .empty) behind <;> rfl

/-- A statement behind a program is one more statement. -/
theorem takes_program_concat (h : program rule ts = .ok (p, rest)) {t : Token}
    (ht : t ≠ .keyword .openqasm ∧ t ≠ .keyword .includeFile) {kind : StatementKind}
    (hkind : (statementKind (p.statements.foldl Scope.declare .empty)).Takes (t :: us)
      (· = kind) []) :
    (program rule).Takes (ts.map Located.token ++ t :: us) (fun p' => p'.version = p.version ∧
      p'.statements.map Statement.kind = p.statements.map Statement.kind ++ [kind]) [] := by
  intro located hlocated
  obtain ⟨front, behind, bound, hfront, hbehind, hbound, hprogram⟩ :=
    exists_program_behind h hlocated (by rintro _ ⟨⟩; exact ht.1)
  have hpos : 0 + 1 ≤ bound.length := by
    refine Nat.le_trans ?_ hbound
    rw [← List.length_map Located.token, hbehind, List.length_cons]
    omega
  obtain ⟨b, bound, rfl, -⟩ := exists_cons_of_succ_le hpos
  have one : (statements (b :: bound) (p.statements.foldl Scope.declare .empty)).Takes (t :: us)
      (fun list => ∃ s rest, list = s :: rest ∧ s.kind = kind ∧ rest = []) [] :=
    takes_statements_cons ht.2 hkind fun _ _ => takes_statements_nil
  obtain ⟨_, end_, hfound, ⟨s, _, rfl, hs, rfl⟩, hend⟩ := one behind hbehind
  refine ⟨⟨p.version, front ++ [s]⟩, end_, ?_, ⟨rfl, ?_⟩, hend⟩
  · rw [hprogram, hfound]
    rfl
  · rw [List.map_append, hfront, List.map_singleton, hs]

/-- A statement behind a program that cannot be read is the error of the whole. -/
theorem refuses_program_concat (h : program rule ts = .ok (p, rest)) {t : Token}
    (ht : t ≠ .keyword .openqasm ∧ t ≠ .keyword .includeFile) {E : ImportError → Prop}
    (hkind : (statementKind (p.statements.foldl Scope.declare .empty)).Refuses (t :: us) E) :
    (program rule).Refuses (ts.map Located.token ++ t :: us) E := by
  intro located hlocated
  obtain ⟨front, behind, bound, -, hbehind, hbound, hprogram⟩ :=
    exists_program_behind h hlocated (by rintro _ ⟨⟩; exact ht.1)
  obtain ⟨q, behind, rfl, -⟩ := exists_of_map_eq_cons hbehind
  obtain ⟨b, bound, rfl, -⟩ := exists_cons_of_succ_le hbound
  obtain ⟨e, he, hE⟩ := hkind _ hbehind
  refine ⟨e, ?_, hE⟩
  rw [hprogram, statements_of_ne ht.2]
  have hstatement : statement (p.statements.foldl Scope.declare .empty) (⟨t, q⟩ :: behind) =
      .error e := bind_eq_error.2 (.inl he)
  rw [hstatement]
  rfl

end Programs

end Grammar

/-! ## Source texts -/

namespace Program

open FlatQasm.Grammar

variable {source : String} {rule : HeaderRule} {p : Program} {line : String} {t : Token}
  {us : List Token}

theorem exists_tokens_line {ts : List Located} (hts : FlatQasm.tokens source = .ok ts)
    (hline : Lexes line.toList us) :
    ∃ located, FlatQasm.tokens (source ++ "\n" ++ line) = .ok located ∧
      located.map Located.token = ts.map Located.token ++ us := by
  refine Lexes.exists_tokens ?_
  rw [String.toList_append, String.toList_append, List.append_assoc]
  exact lexes_line hts hline

theorem parse_eq_ok : parse source rule = .ok p ↔
    ∃ ts, FlatQasm.tokens source = .ok ts ∧ ∃ rest, Grammar.program rule ts = .ok (p, rest) := by
  simp [parse, bind_eq_ok, pure, Except.pure]

/-- **A statement on a line of its own is one more statement.** -/
theorem exists_parse_line (h : parse source rule = .ok p) (hline : Lexes line.toList (t :: us))
    (ht : t ≠ .keyword .openqasm ∧ t ≠ .keyword .includeFile) {kind : StatementKind}
    (hkind : (statementKind (p.statements.foldl Scope.declare .empty)).Takes (t :: us)
      (· = kind) []) :
    ∃ p', parse (source ++ "\n" ++ line) rule = .ok p' ∧ p'.version = p.version ∧
      p'.statements.map Statement.kind = p.statements.map Statement.kind ++ [kind] := by
  obtain ⟨ts, hts, rest, hprogram⟩ := parse_eq_ok.1 h
  obtain ⟨located, htokens, hlocated⟩ := exists_tokens_line hts hline
  obtain ⟨p', rest', hprogram', hp', -⟩ :=
    takes_program_concat hprogram ht hkind located hlocated
  exact ⟨p', parse_eq_ok.2 ⟨located, htokens, rest', hprogram'⟩, hp'⟩

/-- **A statement on a line of its own that cannot be read is the error of the whole.** -/
theorem refuses_parse_line (h : parse source rule = .ok p) (hline : Lexes line.toList (t :: us))
    (ht : t ≠ .keyword .openqasm ∧ t ≠ .keyword .includeFile) {E : ImportError → Prop}
    (hkind : (statementKind (p.statements.foldl Scope.declare .empty)).Refuses (t :: us) E) :
    ∃ e, parse (source ++ "\n" ++ line) rule = .error e ∧ E e := by
  obtain ⟨ts, hts, rest, hprogram⟩ := parse_eq_ok.1 h
  obtain ⟨located, htokens, hlocated⟩ := exists_tokens_line hts hline
  obtain ⟨e, he, hE⟩ := refuses_program_concat hprogram ht hkind located hlocated
  exact ⟨e, bind_eq_error.2 (.inr ⟨located, htokens, bind_eq_error.2 (.inl he)⟩), hE⟩

/-- A statement alone is a program. -/
theorem exists_parse_statement (hline : Lexes line.toList (t :: us))
    (ht : t ≠ .keyword .openqasm ∧ t ≠ .keyword .includeFile) {kind : StatementKind}
    (hkind : (statementKind .empty).Takes (t :: us) (· = kind) []) :
    ∃ position, parse line .optional = .ok ⟨none, [⟨kind, position⟩]⟩ := by
  have hempty : Grammar.program .optional [] = .ok (⟨none, []⟩, []) := rfl
  obtain ⟨located, htokens, hlocated⟩ := hline.exists_tokens
  obtain ⟨⟨version, list⟩, rest, hprogram, ⟨hversion, hkinds⟩, -⟩ :=
    takes_program_concat hempty ht hkind located hlocated
  obtain ⟨⟨_, position⟩, rfl, rfl⟩ := List.map_eq_singleton_iff.1 hkinds
  obtain rfl : version = none := hversion
  exact ⟨position, parse_eq_ok.2 ⟨located, htokens, rest, hprogram⟩⟩

theorem refuses_parse_statement (hline : Lexes line.toList (t :: us))
    (ht : t ≠ .keyword .openqasm ∧ t ≠ .keyword .includeFile) {E : ImportError → Prop}
    (hkind : (statementKind .empty).Refuses (t :: us) E) :
    ∃ e, parse line .optional = .error e ∧ E e := by
  have hempty : Grammar.program .optional [] = .ok (⟨none, []⟩, []) := rfl
  obtain ⟨located, htokens, hlocated⟩ := hline.exists_tokens
  obtain ⟨e, he, hE⟩ := refuses_program_concat hempty ht hkind located hlocated
  exact ⟨e, bind_eq_error.2 (.inr ⟨located, htokens, bind_eq_error.2 (.inl he)⟩), hE⟩

/-- A statement that declares no register adds its instructions to the circuit. -/
theorem toCircuit_concat {rs : Registers} (hrs : Registers.ofStatements p.statements = .ok rs)
    {c : Circuit} (hc : p.toCircuit = .ok c) {s : Statement} (hs : s.declaresRegister = false)
    (version : Option String) :
    (Program.mk version (p.statements ++ [s])).toCircuit =
      ((⟨rs, p.definitions.reverse⟩ : Lowering).statement s).map fun found =>
        { c with instructions := c.instructions ++ found.2 } := by
  obtain ⟨_, hrs', front, hfront, rfl⟩ := toCircuit_eq_ok.1 hc
  cases hrs.symm.trans hrs'
  have hbehind : (⟨rs, []⟩ : Lowering).definitionsBehind p.statements = p.definitions.reverse :=
    List.append_nil _
  rw [toCircuit]
  dsimp only
  rw [Registers.ofStatements_concat, hrs, ok_bind, Registers.declare_of_declaresRegister hs,
    ok_bind, Lowering.statements_append_eq_bind, hfront, ok_bind, hbehind,
    Lowering.statements_singleton]
  cases (⟨rs, p.definitions.reverse⟩ : Lowering).statement s <;> rfl

end Program

/-- **What a statement on a line of its own adds to a circuit**, up to the position of an error. -/
theorem Circuit.ofSource_line {source : String} {rule : HeaderRule} {p : Program}
    (h : Program.parse source rule = .ok p) {rs : Registers}
    (hrs : Registers.ofStatements p.statements = .ok rs) {c : Circuit} (hc : p.toCircuit = .ok c)
    {line : String} {t : Token} {us : List Token} (hline : Lexes line.toList (t :: us))
    (ht : t ≠ .keyword .openqasm ∧ t ≠ .keyword .includeFile) {s : Statement}
    (hs : s.declaresRegister = false)
    (hkind : (Grammar.statementKind (p.statements.foldl Scope.declare .empty)).Takes (t :: us)
      (· = s.kind) []) :
    (ofSource (source ++ "\n" ++ line) rule).mapError ImportError.unplaced =
      (((⟨rs, p.definitions.reverse⟩ : Lowering).statement s).map fun found =>
        { c with instructions := c.instructions ++ found.2 }).mapError ImportError.unplaced := by
  obtain ⟨p', hparse, -, hkinds⟩ := Program.exists_parse_line h hline ht hkind
  have hsource : ofSource (source ++ "\n" ++ line) rule = p'.toCircuit := by
    rw [ofSource, hparse]
    rfl
  have same : Grammar.SameKinds (p.statements ++ [s]) p'.statements := by
    rw [Grammar.SameKinds, hkinds, List.map_append, List.map_singleton]
  have agree : Agree (fun _ _ => True) Eq (Program.mk none (p.statements ++ [s])).toCircuit
      p'.toCircuit := agree_toCircuit (agrees_of_sameKinds same)
  rw [hsource, ← Program.toCircuit_concat hrs hc hs none]
  exact (agree.mapError_eq fun _ _ _ => rfl).symm

end FlatQasm
