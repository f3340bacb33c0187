import FlatQasm.Proofs.Circuit.Spelling
import FlatQasm.Proofs.Program.Agreement
import FlatQasm.Proofs.Source.Filler

/-!
# With and without a header

The rule for headers only matters where there is none.  Then a text is refused, or it is read as it
would be with a header in a line of its own in front of it.  The new line moves everything behind it
by a line and leaves it as it is otherwise.

## Main definitions

* `Position.nextLine`, `Located.nextLine` — a line further down.
* `tokensFrom` — the tokens of a text that starts anywhere.

## Main statements

* `tokensFrom_nextLine` — the tokens of a text that starts a line further down.
* `tokens_version` — the tokens of a text with a header in front of it.
* `header_rules` — what the rule for headers decides.
-/

namespace FlatQasm

/-- The same place a line further down. -/
def Position.nextLine (p : Position) : Position := ⟨p.line + 1, p.column⟩

theorem Position.after_nextLine (p : Position) (text : List Char) :
    p.nextLine.after text = (p.after text).nextLine := by
  induction text generalizing p with
  | nil => rfl
  | cons c text ih =>
    have hnext : p.nextLine.next c = (p.next c).nextLine := by
      simp only [next, nextLine]
      split <;> rfl
    rw [after, List.foldl_cons, hnext]
    exact ih (p.next c)

/-- The same token a line further down. -/
def Located.nextLine (t : Located) : Located := ⟨t.token, t.position.nextLine⟩

/-! ## Texts that start anywhere -/

/-- The tokens of a text that starts at `p`. -/
def tokensFrom (p : Position) (text : List Char) : Except ImportError (List Located) :=
  Lexeme.tokens (Lexeme.locate p (lexemes text))

theorem Lexeme.tokens_locate_nextLine (p : Position) (list : List Lexeme) :
    Lexeme.tokens (Lexeme.locate p.nextLine list) =
      ((Lexeme.tokens (Lexeme.locate p list)).map (List.map Located.nextLine)).mapError
        (·.mapPosition Position.nextLine) := by
  induction list generalizing p with
  | nil => rfl
  | cons lexeme rest ih =>
    have hrest := ih (p.after lexeme.text)
    rw [Lexeme.locate, Lexeme.locate, Lexeme.tokens, Lexeme.tokens, Position.after_nextLine]
    cases lexeme.kind with
    | skip => exact hrest
    | token t =>
      dsimp only
      rw [hrest]
      cases Lexeme.tokens (Lexeme.locate (p.after lexeme.text) rest) <;> rfl
    | invalid => rfl

/-- **The tokens of a text that starts a line further down.** -/
theorem tokensFrom_nextLine (p : Position) (text : List Char) :
    tokensFrom p.nextLine text =
      ((tokensFrom p text).map (List.map Located.nextLine)).mapError
        (·.mapPosition Position.nextLine) :=
  Lexeme.tokens_locate_nextLine p (lexemes text)

theorem Scans.tokensFrom_token {t : Token} {l z : List Char} (h : Scans (.token t) l z)
    (p : Position) : tokensFrom p (l ++ z) = (tokensFrom (p.after l) z).map (⟨t, p⟩ :: ·) := by
  rw [tokensFrom, h.lexemes_eq]
  rfl

theorem Scans.tokensFrom_skip {l z : List Char} (h : Scans .skip l z) (p : Position) :
    tokensFrom p (l ++ z) = tokensFrom (p.after l) z := by
  rw [tokensFrom, h.lexemes_eq]
  rfl

/-- Blanks up to the next text make one lexeme. -/
theorem scans_blanks {c : Char} (hc : isSpace c = true) {a z : List Char}
    (htake : (a ++ z).takeWhile isSpace = a) : Scans .skip (c :: a) z :=
  .intro (by rw [scan_of_isSpace hc, htake])

/-- **A blank only moves what is behind it.** -/
theorem tokensFrom_blank {c : Char} (hc : isSpace c = true) (p : Position) (text : List Char) :
    tokensFrom p (c :: text) = tokensFrom (p.next c) text := by
  obtain ⟨a, z, rfl, htake, ha, -⟩ := exists_takeWhile isSpace text
  have hwhole := (scans_blanks hc htake).tokensFrom_skip p
  rw [List.cons_append] at hwhole
  rw [hwhole]
  cases a with
  | nil => rfl
  | cons d a =>
    obtain ⟨hd, -⟩ := List.forall_mem_cons.1 ha
    rw [List.cons_append, List.takeWhile_cons_of_pos hd, List.cons.injEq] at htake
    exact ((scans_blanks hd htake.2).tokensFrom_skip (p.next c)).symm

/-! ## A header in front of a text -/

/-- A header in a line of its own. -/
def headerLine : String := "OPENQASM 2.0;\n"

theorem spelledAs_versionFloat : (Token.float versionFloat).SpelledAs ['2', '.', '0'] := by
  refine ⟨.inl (.inl (Pattern.mem_pointFloat.2 ⟨['2'], ['0'], [], rfl, ?_, ?_, .inr rfl⟩)), ?_⟩
  · exact ⟨by simp, by simp [Char.isDigit]⟩
  · simp [Char.isDigit]
  · have htext : ['2', '.', '0'] = Decimal.Layout.source.unsigned ⟨2, 0⟩ := by cbv
    have hbits : Decimal.Scientific.toBits ⟨2, 0⟩ = 0x4000000000000000 := by decide +kernel
    rw [htext, Decimal.read_unsigned .source (by cbv), hbits, versionFloat]

/-- The tokens of a header with their positions. -/
def headerTokens : List Located :=
  [⟨.keyword .openqasm, ⟨1, 1⟩⟩, ⟨.float versionFloat, ⟨1, 10⟩⟩, ⟨.punct .semicolon, ⟨1, 13⟩⟩]

/-- **The tokens of a text with a header in front of it**: the text starts a line further down. -/
theorem tokens_headerLine {source : String} {ts : List Located} (h : tokens source = .ok ts) :
    tokens (headerLine ++ source) = .ok (headerTokens ++ ts.map Located.nextLine) := by
  have hword : Scans (.token (.keyword .openqasm)) Keyword.openqasm.text.toList
      (' ' :: (['2', '.', '0'] ++ ([';'] ++ '\n' :: source.toList))) :=
    Token.SpelledAs.scans (t := .keyword .openqasm) rfl (by rintro _ ⟨⟩; decide)
  have hversion : Scans (.token (.float versionFloat)) ['2', '.', '0']
      ([';'] ++ '\n' :: source.toList) :=
    spelledAs_versionFloat.scans (by rintro _ ⟨⟩; decide)
  have hsemicolon : Scans (.token (.punct .semicolon)) [';'] ('\n' :: source.toList) := .intro rfl
  have htext : (headerLine ++ source).toList = Keyword.openqasm.text.toList ++
      (' ' :: (['2', '.', '0'] ++ ([';'] ++ '\n' :: source.toList))) := by
    rw [String.toList_append]
    rfl
  have htokens : tokensFrom .start source.toList = .ok ts := h
  have hrest := tokensFrom_nextLine .start source.toList
  rw [htokens] at hrest
  have hwhole : tokensFrom .start (headerLine ++ source).toList =
      .ok (headerTokens ++ ts.map Located.nextLine) := by
    rw [htext, hword.tokensFrom_token, tokensFrom_blank rfl, hversion.tokensFrom_token,
      hsemicolon.tokensFrom_token, tokensFrom_blank rfl]
    have hline : ((((Position.start.after Keyword.openqasm.text.toList).next ' ').after
        ['2', '.', '0']).after [';']).next '\n' = Position.start.nextLine := rfl
    rw [hline, hrest]
    rfl
  exact hwhole

/-! ## What the rule decides -/

namespace Grammar

variable {ts : List Located}

/-- The rule makes no difference where there is a header. -/
theorem program_congr (h : ts.head?.map Located.token = some (.keyword .openqasm))
    (rule rule' : HeaderRule) : program rule ts = program rule' ts := by
  obtain ⟨⟨t, p⟩, ht, rfl⟩ := Option.map_eq_some_iff.1 h
  obtain ⟨rest, rfl⟩ := List.head?_eq_some_iff.1 ht
  rw [program_eq_bind, program_eq_bind]
  rfl

theorem header_headerTokens (rule : HeaderRule) :
    header rule (headerTokens ++ ts) = .ok (some "2.0", ts) := by
  have htwo : (versionFloat == 2.0) = true := rfl
  have hversion : version (⟨.float versionFloat, ⟨1, 10⟩⟩ :: ⟨.punct .semicolon, ⟨1, 13⟩⟩ :: ts) =
      .ok ("2.0", ts) := by
    rw [version, if_pos htwo]
    rfl
  have hheader : header rule (headerTokens ++ ts) =
      version (⟨.float versionFloat, ⟨1, 10⟩⟩ :: ⟨.punct .semicolon, ⟨1, 13⟩⟩ :: ts) >>=
        fun found => .ok (some found.1, found.2) := rfl
  rw [hheader, hversion, ok_bind]

/-- Behind the header, what it says does not matter. -/
theorem ofTokens_of_header {rule : HeaderRule} {found : Option String} {us : List Located}
    (h : header rule ts = .ok (found, us)) : Circuit.ofTokens rule ts =
      statements us .empty us >>= fun list => (Program.mk found list.1).toCircuit := by
  rw [Circuit.ofTokens, program_eq_bind, h, ok_bind]
  cases statements us .empty us <;> rfl

/-- **A header in front of a text without one** moves its errors, and does nothing else. -/
theorem ofTokens_headerTokens (h : ∀ t ∈ ts.head?, t.token ≠ .keyword .openqasm) :
    Circuit.ofTokens .required (headerTokens ++ ts.map Located.nextLine) =
      (Circuit.ofTokens .optional ts).mapError (·.mapPosition Position.nextLine) := by
  rw [ofTokens_of_header (header_headerTokens .required),
    ofTokens_of_header (header_of_ne .optional h)]
  have hts : List.Forall₂ (fun t t' => t' = t.nextLine) ts (ts.map Located.nextLine) := by
    rw [List.forall₂_map_right_iff]
    exact List.forall₂_same.2 fun _ _ => rfl
  have hstatements := agrees_statements (r := fun t t' => t' = t.nextLine)
    (by rintro t t' rfl; rfl) hts .empty ts _ hts
  have hagree : Agree (fun t t' => t' = t.nextLine) Eq
      (statements ts .empty ts >>= fun list => (Program.mk none list.1).toCircuit)
      (statements (ts.map Located.nextLine) .empty (ts.map Located.nextLine) >>=
        fun list => (Program.mk (some "2.0") list.1).toCircuit) :=
    hstatements.bind fun _ _ hlist => agree_toCircuit hlist.1
  exact hagree.eq_mapError (by rintro t t' rfl; rfl)

/-- A text without a header is refused at its first token. -/
theorem program_missingHeader (h : ∀ t ∈ ts.head?, t.token ≠ .keyword .openqasm) :
    program .required ts = .error (.missingHeader ((ts.head?.map Located.position).getD ⟨1, 1⟩)
      (ts.head?.map Located.token)) := by
  have hheader := header_of_ne .required h
  have hposition : nextPosition .start ts = (ts.head?.map Located.position).getD ⟨1, 1⟩ := by
    cases ts <;> rfl
  rw [hposition] at hheader
  exact bind_eq_error.2 (.inl hheader)

end Grammar

/-- **What the rule for headers decides.**  An error of the scanner comes first.  With a header in
front, the rule makes no difference.  Without one, a text is refused at its first token when there
has to be a header; and when there has not to be one, it stands for the circuit that it stands for
with a header in a line of its own in front of it, or it fails with the same error a line further
up. -/
theorem header_rules (source : String) :
    (∀ e, tokens source = .error e → (∃ p text, e = .invalidLexeme p text) ∧
      ∀ rule, Program.parse source rule = .error e ∧ Circuit.ofSource source rule = .error e) ∧
    ∀ ts, tokens source = .ok ts →
      (ts.head?.map Located.token = some (.keyword .openqasm) →
        Program.parse source .required = Program.parse source .optional) ∧
      (ts.head?.map Located.token ≠ some (.keyword .openqasm) →
        Program.parse source .required =
          .error (.missingHeader ((ts.head?.map Located.position).getD ⟨1, 1⟩)
            (ts.head?.map Located.token)) ∧
        Circuit.ofSource (headerLine ++ source) .required =
          (Circuit.ofSource source .optional).mapError (·.mapPosition Position.nextLine)) := by
  refine ⟨fun e he => ⟨?_, fun rule => ?_⟩, fun ts hts => ⟨fun hheader => ?_, fun hheader => ?_⟩⟩
  · rw [tokens_eq_mapM_items] at he
    obtain ⟨i, -, hi⟩ := exists_of_mapM_eq_error he
    exact ⟨i.position, i.text, (Item.located_eq_error.1 hi).2⟩
  · have hparse : Program.parse source rule = .error e := bind_eq_error.2 (.inl he)
    exact ⟨hparse, bind_eq_error.2 (.inl hparse)⟩
  · have hprogram := Grammar.program_congr hheader .required .optional
    have hread : ∀ rule, Program.parse source rule =
        Grammar.program rule ts >>= fun found => pure found.1 := by
      intro rule
      rw [Program.parse, hts]
      rfl
    rw [hread, hread, hprogram]
  · have hfirst : ∀ t ∈ ts.head?, t.token ≠ .keyword .openqasm := by
      intro t ht htoken
      rw [Option.mem_def.1 ht, Option.map_some, htoken] at hheader
      exact hheader rfl
    constructor
    · have hmissing := Grammar.program_missingHeader hfirst
      exact bind_eq_error.2 (.inr ⟨ts, hts, bind_eq_error.2 (.inl hmissing)⟩)
    · rw [Circuit.ofSource_eq_bind, Circuit.ofSource_eq_bind, hts, tokens_headerLine hts]
      exact Grammar.ofTokens_headerTokens hfirst

end FlatQasm
