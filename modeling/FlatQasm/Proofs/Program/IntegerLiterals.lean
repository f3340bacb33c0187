import FlatQasm.Proofs.Circuit.Building
import FlatQasm.Proofs.Program.Lines
import FlatQasm.Proofs.Program.Numbering
import FlatQasm.Proofs.Program.Spelling

/-!
# Integer literals as sizes and indices

An integer literal may have any number of digits.  On its way to the size of a register, or to a
bit of the circuit, its value is kept in words of 64 and then of 32 bits.  Nothing is cut off on
that way: a value that a word has no room for is refused, with the digits or with the value.

## Main definitions

* `ReadsSize` — what a register whose size is written with given digits comes to.
* `ReadsIndex` — what an element whose index is written with given digits comes to.

## Main statements

* `readsSize_qreg` — a program that declares a single register.
* `readsIndex_reset`, `readsIndex_measure` — a line behind a program, with an element in it.
* `readsIndex_operand` — any operand, in any statement.
* `integerLiterals_exact` — the four together.
-/

namespace FlatQasm

open Decimal (digitsValue)

variable {α : Type}

/-! ## Outcomes -/

/-- A register whose size is written with some digits has as many elements as these say.  There is
no such register when that is none, or more than 32-bit numbers can count. -/
structure ReadsSize (run : Except ImportError Circuit) (name : String) (digits : List Char) :
    Prop where
  declared : (∃ c, run = .ok c ∧ c.qubitCount.toNat = digitsValue digits) ↔
    1 ≤ digitsValue digits ∧ digitsValue digits < UInt32.size
  invalid : (∃ p, run = .error (.invalidRegisterSize p name (digitsValue digits))) ↔
    digitsValue digits = 0 ∨ UInt32.size ≤ digitsValue digits ∧ digitsValue digits < UInt64.size
  tooLarge : (∃ p, run = .error (.integerTooLarge p digits)) ↔
    UInt64.size ≤ digitsValue digits

/-- An element whose index is written with some digits is the bit of that number in the register.
There is no such element when the register has not as many. -/
structure ReadsIndex (run : Except ImportError α) (r : Register) (name : String)
    (digits : List Char) (found : ℕ → α) : Prop where
  element : run = .ok (found (r.offset + digitsValue digits)) ↔ digitsValue digits < r.size
  /-- The number of the bit is a 32-bit number. -/
  exact : digitsValue digits < r.size →
    (r.offset + digitsValue digits).toUInt32.toNat = r.offset + digitsValue digits
  outOfRange : (∃ p, run = .error (.indexOutOfRange p name (digitsValue digits) r.size)) ↔
    r.size ≤ digitsValue digits ∧ digitsValue digits < UInt64.size
  tooLarge : (∃ p, run = .error (.integerTooLarge p digits)) ↔
    UInt64.size ≤ digitsValue digits

/-- What the size of a register comes to, at any place. -/
def sizeOutcome (name : String) (digits : List Char) : Except ImportError Circuit :=
  let n := digitsValue digits
  if n < UInt64.size then
    if n = 0 ∨ UInt32.size ≤ n then .error (.invalidRegisterSize .start name n)
    else .ok (.ofSize n.toUInt32 0)
  else .error (.integerTooLarge .start digits)

/-- What an index comes to, at any place. -/
def indexOutcome (r : Register) (name : String) (digits : List Char) (found : ℕ → α) :
    Except ImportError α :=
  let n := digitsValue digits
  if n < UInt64.size then
    if n < r.size then .ok (found (r.offset + n))
    else .error (.indexOutOfRange .start name n r.size)
  else .error (.integerTooLarge .start digits)

section Outcomes

variable {run : Except ImportError α} {name : String} {digits : List Char}

theorem exists_integerTooLarge_iff : (∃ p, run = .error (.integerTooLarge p digits)) ↔
    run.mapError ImportError.unplaced = .error (.integerTooLarge .start digits) := by
  cases run with
  | ok a => simp [Except.mapError]
  | error e => cases e <;> simp [Except.mapError, ImportError.unplaced, ImportError.mapPosition]

theorem exists_invalidRegisterSize_iff {n : ℕ} :
    (∃ p, run = .error (.invalidRegisterSize p name n)) ↔
      run.mapError ImportError.unplaced = .error (.invalidRegisterSize .start name n) := by
  cases run with
  | ok a => simp [Except.mapError]
  | error e => cases e <;> simp [Except.mapError, ImportError.unplaced, ImportError.mapPosition]

theorem exists_indexOutOfRange_iff {n size : ℕ} :
    (∃ p, run = .error (.indexOutOfRange p name n size)) ↔
      run.mapError ImportError.unplaced = .error (.indexOutOfRange .start name n size) := by
  cases run with
  | ok a => simp [Except.mapError]
  | error e => cases e <;> simp [Except.mapError, ImportError.unplaced, ImportError.mapPosition]

theorem readsSize_of_unplaced {run : Except ImportError Circuit}
    (h : run.mapError ImportError.unplaced = sizeOutcome name digits) :
    ReadsSize run name digits := by
  have hlt : UInt32.size < UInt64.size := by decide
  have hok (c : Circuit) : run = .ok c ↔ sizeOutcome name digits = .ok c := by
    rw [← h, mapError_eq_ok]
  refine ⟨?_, ?_, ?_⟩
  · simp only [hok, sizeOutcome]
    split
    · split
      · simp
        omega
      · next hsmall hsize =>
        have hlow : digitsValue digits < UInt32.size := by omega
        simp [Circuit.ofSize, toNat_toUInt32 hlow]
        omega
    · simp
      omega
  · rw [exists_invalidRegisterSize_iff, h]
    simp only [sizeOutcome]
    split
    · split <;> simp <;> omega
    · simp
      omega
  · rw [exists_integerTooLarge_iff, h]
    simp only [sizeOutcome]
    split
    · split <;> simp <;> omega
    · simp
      omega

theorem readsIndex_of_unplaced {r : Register} {found : ℕ → α}
    (hr : r.offset + r.size < UInt32.size)
    (h : run.mapError ImportError.unplaced = indexOutcome r name digits found) :
    ReadsIndex run r name digits found := by
  have hlt : UInt32.size < UInt64.size := by decide
  have hok (a : α) : run = .ok a ↔ indexOutcome r name digits found = .ok a := by
    rw [← h, mapError_eq_ok]
  refine ⟨?_, fun hindex => toNat_toUInt32 (by omega), ?_, ?_⟩
  · rw [hok]
    simp only [indexOutcome]
    split
    · split <;> simp <;> omega
    · simp
      omega
  · rw [exists_indexOutOfRange_iff, h]
    simp only [indexOutcome]
    split
    · split <;> simp <;> omega
    · simp
      omega
  · rw [exists_integerTooLarge_iff, h]
    simp only [indexOutcome]
    split
    · split <;> simp <;> omega
    · simp
      omega

end Outcomes

/-! ## Texts and tokens -/

/-- The text of an element whose index is written with some digits. -/
def elementText (name : String) (digits : List Char) : String :=
  name ++ "[" ++ String.ofList digits ++ "]"

/-- The tokens of an element whose index is written with some digits. -/
def digitTokens (name : String) (digits : List Char) : List Token :=
  [.ident name, .punct .leftBracket, .int (.ofDigits digits), .punct .rightBracket]

section Elements

variable {name : String} {digits : List Char}

theorem spells_elementText (hname : IsIdentifier name) (hdigits : IsDigits digits) :
    Spells (elementText name digits) (digitTokens name digits) := by
  intro rest ts apart behind
  have close : Lexes (']' :: rest) (.punct .rightBracket :: ts) := .token rfl behind
  have number := Lexes.digits hdigits.ne_nil hdigits.isDigit (apart_cons rfl (by decide)) close
  have inside := (spells_identifier hname).lexes_cons (c := '[') ⟨rfl, by decide⟩
    (.token (t := .punct .leftBracket) rfl number)
  have htext : (elementText name digits).toList ++ rest =
      name.toList ++ '[' :: (digits ++ ']' :: rest) := by
    simp [elementText]
  rw [htext]
  exact inside

/-- A value that 64 bits have room for is the index that is written. -/
theorem digitTokens_of_lt (h : digitsValue digits < UInt64.size) :
    digitTokens name digits =
      (Operand.element name (UInt64.ofNat (digitsValue digits))).tokens := by
  have hliteral : IntLiteral.ofDigits digits = .word (UInt64.ofNat (digitsValue digits)) := if_pos h
  rw [digitTokens, hliteral, Operand.tokens]

/-- A value that they have no room for keeps its digits. -/
theorem digitTokens_of_le (h : UInt64.size ≤ digitsValue digits) :
    digitTokens name digits =
      [.ident name, .punct .leftBracket, .int (.wide digits), .punct .rightBracket] := by
  have hliteral : IntLiteral.ofDigits digits = .wide digits := if_neg (by omega)
  rw [digitTokens, hliteral]

end Elements

namespace Grammar

open FlatQasm.Grammar.Parser (Takes Refuses)

variable {name : String} {digits : List Char} {us : List Token}

theorem refuses_integer :
    integer.Refuses (.int (.wide digits) :: us) fun e => ∃ p, e = .integerTooLarge p digits := by
  intro located hts
  obtain ⟨p, rest, rfl, -⟩ := exists_of_map_eq_cons hts
  exact ⟨_, rfl, p, rfl⟩

/-- An index that 64 bits have no room for is refused before anything else is looked at. -/
theorem refuses_operand (h : UInt64.size ≤ digitsValue digits) :
    operand.Refuses (digitTokens name digits ++ us)
      fun e => ∃ p, e = .integerTooLarge p digits := by
  rw [digitTokens_of_le h]
  exact takes_identifier.refuses fun _ _ => takes_accept.step_refuses refuses_integer.bind

theorem refuses_registerDeclaration {scope : Scope} {make : String → UInt32 → StatementKind}
    (h : UInt64.size ≤ digitsValue digits) :
    (registerDeclaration scope make).Refuses (digitTokens name digits ++ us)
      fun e => ∃ p, e = .integerTooLarge p digits := by
  rw [digitTokens_of_le h]
  exact takes_identifier.refuses fun _ _ => takes_expect.refuses fun _ _ => refuses_integer.bind

/-- A size of zero, and one that 32 bits have no room for, are refused with the value. -/
theorem refuses_registerDeclaration_of_size {scope : Scope}
    {make : String → UInt32 → StatementKind} {size : UInt64}
    (h : size.toNat = 0 ∨ UInt32.size ≤ size.toNat) :
    (registerDeclaration scope make).Refuses
      ((Operand.element name size).tokens ++ .punct .semicolon :: us)
      fun e => ∃ p, e = .invalidRegisterSize p name size.toNat := by
  refine takes_identifier.refuses fun ⟨found, p⟩ hfound => takes_expect.refuses fun _ _ =>
    takes_integer.refuses fun found' hfound' => takes_expect.refuses fun _ _ =>
    takes_expect.refuses fun _ _ => ?_
  obtain rfl : found = name := hfound
  subst hfound'
  rw [if_pos h]
  exact fun located _ => ⟨_, rfl, p, rfl⟩

end Grammar

/-! ## A register alone -/

section Sizes

variable {name : String} {digits : List Char}

theorem toCircuit_single_qreg {size : UInt32} (hsize : size ≠ 0) (position : Position)
    (version : Option String) :
    (Program.mk version [⟨.qreg name size, position⟩]).toCircuit = .ok (.ofSize size 0) := by
  have hpos : size.toNat ≠ 0 := fun h => hsize (UInt32.toNat.inj h)
  have hlt : size.toNat < UInt32.size := size.toNat_lt
  have hcheck : Registers.empty.check position name size 0 = .ok () :=
    Registers.check_eq_ok.2 ⟨rfl, by omega, by omega⟩
  have hrs : Registers.ofStatements [⟨.qreg name size, position⟩] =
      .ok ⟨[(name, ⟨0, size.toNat⟩)], [], 0 + size.toNat, 0⟩ := by
    rw [Registers.ofStatements, List.foldlM_cons]
    exact bind_eq_ok.2 ⟨_, bind_eq_ok.2 ⟨(), hcheck, rfl⟩, rfl⟩
  refine Program.toCircuit_eq_ok.2 ⟨_, hrs, [], rfl, ?_⟩
  have hcount : (0 + size.toNat).toUInt32 = size := by
    rw [Nat.zero_add, Nat.toUInt32_eq, UInt32.ofNat_toNat]
  rw [hcount]
  rfl

section Alone

variable (hname : IsIdentifier name) (hdigits : IsDigits digits)
include hname hdigits

theorem lexes_qreg : Lexes ("qreg " ++ elementText name digits ++ ";").toList
    (.keyword .qreg :: (digitTokens name digits ++ [.punct .semicolon])) := by
  have close : Lexes [';'] [.punct .semicolon] := .token rfl .nil
  have element := (spells_elementText hname hdigits).lexes_cons ⟨rfl, by decide⟩ close
  have all := Lexes.keyword .qreg (apart_cons rfl (by decide)) (.space (c := ' ') rfl element)
  simpa [Keyword.text] using all

/-- A size that is written with too many digits, or that no register can have. -/
theorem refuses_qreg {E : ImportError → Prop}
    (h : (Grammar.registerDeclaration .empty .qreg).Refuses
      (digitTokens name digits ++ [.punct .semicolon]) E) :
    ∃ e, Circuit.ofSource ("qreg " ++ elementText name digits ++ ";") .optional = .error e ∧
      E e := by
  have hkind : (Grammar.statementKind .empty).Refuses
      (.keyword .qreg :: (digitTokens name digits ++ [.punct .semicolon])) E := by
    intro located hts
    obtain ⟨p, rest, rfl, hrest⟩ := Grammar.exists_of_map_eq_cons hts
    exact h rest hrest
  obtain ⟨e, he, hE⟩ :=
    Program.refuses_parse_statement (lexes_qreg hname hdigits) ⟨by simp, by simp⟩ hkind
  exact ⟨e, bind_eq_error.2 (.inl he), hE⟩

theorem ofSource_qreg (hpos : digitsValue digits ≠ 0) (hlt : digitsValue digits < UInt32.size) :
    Circuit.ofSource ("qreg " ++ elementText name digits ++ ";") .optional =
      .ok (.ofSize (digitsValue digits).toUInt32 0) := by
  have hword : digitsValue digits < UInt64.size := Nat.lt_trans hlt (by decide)
  have htoNat := toNat_toUInt32 hlt
  have hne : (digitsValue digits).toUInt32 ≠ 0 := by
    intro h
    rw [h] at htoNat
    exact hpos htoNat.symm
  have hkind : (Grammar.statementKind .empty).Takes
      (.keyword .qreg :: (digitTokens name digits ++ [.punct .semicolon]))
      (· = .qreg name (digitsValue digits).toUInt32) [] := by
    intro located hts
    obtain ⟨p, rest, rfl, hrest⟩ := Grammar.exists_of_map_eq_cons hts
    have declared : (Grammar.registerDeclaration .empty .qreg).Takes
        (elementTokens name (digitsValue digits).toUInt32 ++ [.punct .semicolon])
        (· = .qreg name (digitsValue digits).toUInt32) [] :=
      Grammar.takes_registerDeclaration hne List.not_mem_nil
    refine declared rest ?_
    rw [hrest, digitTokens_of_lt hword, elementTokens, htoNat, Operand.tokens]
  obtain ⟨position, hparse⟩ :=
    Program.exists_parse_statement (lexes_qreg hname hdigits) ⟨by simp, by simp⟩ hkind
  rw [Circuit.ofSource, hparse]
  exact toCircuit_single_qreg hne position none

/-- **A program that declares a single register.** -/
theorem readsSize_qreg :
    ReadsSize (Circuit.ofSource ("qreg " ++ elementText name digits ++ ";") .optional) name
      digits := by
  apply readsSize_of_unplaced
  simp only [sizeOutcome]
  split
  · next hword =>
    split
    · next hsize =>
      have hvalue := UInt64.toNat_ofNat_of_lt' hword
      have h : (Grammar.registerDeclaration .empty .qreg).Refuses
          (digitTokens name digits ++ [.punct .semicolon])
          fun e => ∃ p, e = .invalidRegisterSize p name (digitsValue digits) := by
        rw [← hvalue] at hsize ⊢
        rw [digitTokens_of_lt hword]
        exact Grammar.refuses_registerDeclaration_of_size hsize
      obtain ⟨_, he, p, rfl⟩ := refuses_qreg hname hdigits h
      rw [he]
      rfl
    · next hsize =>
      rw [ofSource_qreg hname hdigits (by omega) (by omega)]
      rfl
  · next hwide =>
    obtain ⟨_, he, p, rfl⟩ :=
      refuses_qreg hname hdigits (Grammar.refuses_registerDeclaration (by omega))
    rw [he]
    rfl

end Alone

end Sizes

/-! ## Elements of registers -/

/-- What an operand at the front of some tokens stands for among registers. -/
def readOperand (registers : List (String × Register)) (p : Position) (located : List Located) :
    Except ImportError Resolved := do
  let (operand, _) ← Grammar.operand located
  Registers.resolve registers p operand

section Operands

variable {name : String} {digits : List Char} {registers : List (String × Register)} {r : Register}
  {used : ℕ}

/-- The index that 64 bits have room for is compared with the size of the register. -/
theorem resolve_digits (hlookup : registers.lookup name = some r)
    (hword : digitsValue digits < UInt64.size) (p : Position) :
    (Registers.resolve registers p
      (.element name (UInt64.ofNat (digitsValue digits)))).mapError ImportError.unplaced =
        indexOutcome r name digits .bit := by
  have hvalue := UInt64.toNat_ofNat_of_lt' hword
  simp only [Registers.resolve, Operand.name, hlookup, indexOutcome]
  rw [if_pos hword, hvalue]
  split <;> rfl

/-- **Any operand**, wherever it stands. -/
theorem readsIndex_operand (hlookup : registers.lookup name = some r)
    (hend : r.offset + r.size < UInt32.size) (p : Position) {located : List Located}
    {us : List Token} (hlocated : located.map Located.token = digitTokens name digits ++ us) :
    ReadsIndex (readOperand registers p located) r name digits .bit := by
  apply readsIndex_of_unplaced hend
  by_cases hword : digitsValue digits < UInt64.size
  · have taken : Grammar.operand.Takes (digitTokens name digits ++ us)
        (· = .element name (UInt64.ofNat (digitsValue digits))) us := by
      rw [digitTokens_of_lt hword]
      exact Grammar.takes_identifier.bind fun _ hfound => Grammar.takes_accept.step
        (Grammar.takes_integer.step (Grammar.takes_expect.step (.pure (by rw [hfound]))))
    obtain ⟨_, rest, hoperand, rfl, -⟩ := taken located hlocated
    rw [← resolve_digits hlookup hword p, readOperand, hoperand]
    rfl
  · obtain ⟨_, he, p', rfl⟩ := Grammar.refuses_operand (by omega) located hlocated
    rw [readOperand, he, indexOutcome, if_neg hword]
    rfl

end Operands

/-! ## Lines with an element -/

section Lines

variable {source : String} {rule : HeaderRule} {p : Program} {rs : Registers} {c : Circuit}
  {name : String} {digits : List Char} {r : Register}

theorem map_indexOutcome {β : Type} (g : α → β) (found : ℕ → α) :
    (indexOutcome r name digits found).map g =
      indexOutcome r name digits fun bit => g (found bit) := by
  simp only [indexOutcome]
  split
  · split <;> rfl
  · rfl

/-- A line is read like the index in it, where its instructions are what the index decides. -/
theorem readsIndex_line (hparse : Program.parse source rule = .ok p)
    (hrs : Registers.ofStatements p.statements = .ok rs) (hc : p.toCircuit = .ok c)
    (hend : r.offset + r.size < UInt32.size) {line : String} {t : Token} {us : List Token}
    (hline : Lexes line.toList (t :: us))
    (ht : t ≠ .keyword .openqasm ∧ t ≠ .keyword .includeFile) {added : ℕ → List Instruction}
    (kind : StatementKind)
    (hdeclares : (⟨kind, .start⟩ : Statement).declaresRegister = false)
    (htakes : digitsValue digits < UInt64.size →
      (Grammar.statementKind (p.statements.foldl Scope.declare .empty)).Takes (t :: us)
        (· = kind) [])
    (hstatement : digitsValue digits < UInt64.size →
      (((⟨rs, p.definitions.reverse⟩ : Lowering).statement ⟨kind, .start⟩).map
        Prod.snd).mapError ImportError.unplaced = indexOutcome r name digits added)
    (hrefuses : UInt64.size ≤ digitsValue digits →
      (Grammar.statementKind (p.statements.foldl Scope.declare .empty)).Refuses (t :: us)
        fun e => ∃ p, e = .integerTooLarge p digits) :
    ReadsIndex (Circuit.ofSource (source ++ "\n" ++ line) rule) r name digits
      fun bit => { c with instructions := c.instructions ++ added bit } := by
  apply readsIndex_of_unplaced hend
  by_cases hword : digitsValue digits < UInt64.size
  · refine Eq.trans ?_ (map_indexOutcome
      (fun here => { c with instructions := c.instructions ++ here }) added)
    rw [Circuit.ofSource_line hparse hrs hc hline ht hdeclares (htakes hword), ← hstatement hword]
    cases (⟨rs, p.definitions.reverse⟩ : Lowering).statement ⟨kind, .start⟩ <;> rfl
  · obtain ⟨_, he, p', rfl⟩ :=
      Program.refuses_parse_line hparse hline ht (hrefuses (Nat.le_of_not_lt hword))
    rw [Circuit.ofSource, he, indexOutcome, if_neg hword]
    rfl

/-- The index decides what is done with the bit. -/
theorem bind_resolve_digits {registers : List (String × Register)}
    (hlookup : registers.lookup name = some r) (hword : digitsValue digits < UInt64.size)
    {f : Resolved → Except ImportError α} {found : ℕ → α}
    (hf : digitsValue digits < r.size →
      f (.bit (r.offset + digitsValue digits)) = .ok (found (r.offset + digitsValue digits))) :
    (Registers.resolve registers .start
      (.element name (UInt64.ofNat (digitsValue digits))) >>= f).mapError ImportError.unplaced =
        indexOutcome r name digits found := by
  have hresolve := resolve_digits hlookup hword .start
  rw [mapError_bind, hresolve, indexOutcome, indexOutcome, if_pos hword, if_pos hword]
  split
  · next hindex =>
    rw [ok_bind, hf hindex, ok_mapError]
  · rfl

/-- What a statement gives, where it leaves the gates alone. -/
@[simp] theorem map_snd_map (l : Lowering) (x : Except ImportError (List Instruction)) :
    (x.map ((l, ·))).map Prod.snd = x := by
  cases x <;> rfl

theorem Instruction.fits_reset {qubits clbits : UInt32} {q : Qubit} (hq : q.index < qubits) :
    (Instruction.reset q).Fits qubits clbits :=
  Instruction.fits_iff.2 ⟨⟨rfl, rfl⟩, List.nodup_singleton q, List.forall_mem_singleton.2 hq,
    List.forall_mem_nil _⟩

variable (hname : IsIdentifier name) (hdigits : IsDigits digits)
  (hparse : Program.parse source rule = .ok p)
  (hrs : Registers.ofStatements p.statements = .ok rs) (hc : p.toCircuit = .ok c)
include hname hdigits hparse hrs hc

/-- **A reset of an element**, on a line behind a program. -/
theorem readsIndex_reset (hlookup : rs.quantum.lookup name = some r) :
    ReadsIndex
      (Circuit.ofSource (source ++ "\n" ++ ("reset " ++ elementText name digits ++ ";")) rule)
      r name digits
      fun bit => { c with instructions := c.instructions ++ [.reset ⟨bit.toUInt32⟩] } := by
  have lays := Registers.lays_of_ofStatements hrs
  obtain ⟨-, hend⟩ := Registers.le_of_lookup_eq_some lays.qubits hlookup
  have close : Lexes [';'] [.punct .semicolon] := .token rfl .nil
  have element := (spells_elementText hname hdigits).lexes_cons ⟨rfl, by decide⟩ close
  have all := Lexes.keyword .reset (apart_cons rfl (by decide)) (.space (c := ' ') rfl element)
  have hline : Lexes ("reset " ++ elementText name digits ++ ";").toList
      (.keyword .reset :: (digitTokens name digits ++ [.punct .semicolon])) := by
    simpa [Keyword.text] using all
  refine readsIndex_line hparse hrs hc (Nat.lt_of_le_of_lt hend lays.qubitCount_lt) hline
    ⟨by simp, by simp⟩ (.reset (.element name (UInt64.ofNat (digitsValue digits)))) rfl
    (fun hword located hlocated => ?_) (fun hword => ?_) fun hwide located hlocated => ?_
  · obtain ⟨q, rest, rfl, hrest⟩ := Grammar.exists_of_map_eq_cons hlocated
    rw [digitTokens_of_lt hword] at hrest
    exact Grammar.takes_reset _ rest hrest
  · rw [Lowering.statement_reset, map_snd_map]
    refine bind_resolve_digits hlookup hword (f := fun resolved => forEachIndex (fun i =>
      (⟨rs, p.definitions.reverse⟩ : Lowering).emit (.reset ⟨(resolved.bitAt i).toUInt32⟩))
      (resolved.size?.getD 1) 0) fun hindex => ?_
    have hlt : r.offset + digitsValue digits < rs.qubitCount := by omega
    have fits : (Instruction.reset ⟨(r.offset + digitsValue digits).toUInt32⟩).Fits
        rs.qubitCount.toUInt32 rs.clbitCount.toUInt32 :=
      Instruction.fits_reset (toUInt32_lt hlt lays.qubitCount_lt)
    exact bind_eq_ok.2 ⟨_, Lowering.emit_of_fits fits, rfl⟩
  · obtain ⟨q, rest, rfl, hrest⟩ := Grammar.exists_of_map_eq_cons hlocated
    exact (Grammar.refuses_operand hwide).bind rest hrest

/-- **A measurement into an element**, on a line behind a program. -/
theorem readsIndex_measure (hlookup : rs.classical.lookup name = some r) {qubit : Operand}
    (hqubit : IsIdentifier qubit.name) {source' : ℕ}
    (hsource : rs.qubits .start qubit = .ok (.bit source')) :
    ReadsIndex
      (Circuit.ofSource (source ++ "\n" ++
        ("measure " ++ qubit.text ++ " -> " ++ elementText name digits ++ ";")) rule)
      r name digits fun bit => { c with
        instructions := c.instructions ++ [.measure ⟨source'.toUInt32⟩ ⟨bit.toUInt32⟩] } := by
  have lays := Registers.lays_of_ofStatements hrs
  obtain ⟨-, hend⟩ := Registers.le_of_lookup_eq_some lays.clbits hlookup
  have close : Lexes [';'] [.punct .semicolon] := .token rfl .nil
  have element := (spells_elementText hname hdigits).lexes_cons ⟨rfl, by decide⟩ close
  have arrow : Lexes ('-' :: '>' :: ' ' :: _) (.punct .arrow :: _) :=
    .token rfl (.space rfl element)
  have operand := (Operand.spells hqubit).lexes_cons (c := ' ') ⟨rfl, by decide⟩ (.space rfl arrow)
  have all := Lexes.keyword .measure (apart_cons rfl (by decide)) (.space (c := ' ') rfl operand)
  have hline : Lexes ("measure " ++ qubit.text ++ " -> " ++ elementText name digits ++ ";").toList
      (.keyword .measure ::
        (qubit.tokens ++ .punct .arrow :: (digitTokens name digits ++ [.punct .semicolon]))) := by
    simpa [Keyword.text] using all
  refine readsIndex_line hparse hrs hc (Nat.lt_of_le_of_lt hend lays.clbitCount_lt) hline
    ⟨by simp, by simp⟩ (.measure qubit (.element name (UInt64.ofNat (digitsValue digits)))) rfl
    (fun hword located hlocated => ?_) (fun hword => ?_) fun hwide located hlocated => ?_
  · obtain ⟨q, rest, rfl, hrest⟩ := Grammar.exists_of_map_eq_cons hlocated
    rw [digitTokens_of_lt hword] at hrest
    exact Grammar.takes_measurement qubit _ rest hrest
  · rw [Lowering.statement_measure, map_snd_map, Lowering.measure, hsource, ok_bind]
    refine bind_resolve_digits hlookup hword fun hindex => ?_
    have hlt : r.offset + digitsValue digits < rs.clbitCount := by omega
    have hlt' : source' < rs.qubitCount :=
      Registers.bitAt_lt lays.qubits hsource (i := 0) (by simp [Resolved.size?])
    exact Lowering.emit_of_fits (Instruction.fits_measure (toUInt32_lt hlt' lays.qubitCount_lt)
      (toUInt32_lt hlt lays.clbitCount_lt))
  · obtain ⟨q, rest, rfl, hrest⟩ := Grammar.exists_of_map_eq_cons hlocated
    have source : Grammar.operand.Takes
        (qubit.tokens ++ .punct .arrow :: (digitTokens name digits ++ [.punct .semicolon]))
        (· = qubit) (.punct .arrow :: (digitTokens name digits ++ [.punct .semicolon])) :=
      Grammar.takes_operand qubit (by simp)
    exact (source.refuses fun _ _ => Grammar.takes_expect.step_refuses
      (Grammar.refuses_operand hwide).bind) rest hrest

end Lines

/-! ## Sizes and indices -/

/-- **Integer literals are exact as sizes and as indices.**  Whatever digits a size or an index is
written with, leading zeros among them, its value decides: a register has as many elements as it
says, or is refused with the value; an element is the bit of that number in its register, behind the
bits of the registers declared before, or is refused with the value.  A value that 64 bits have no
room for is refused with its digits. -/
theorem integerLiterals_exact {name : String} (hname : IsIdentifier name) {digits : List Char}
    (hdigits : IsDigits digits) :
    ReadsSize (Circuit.ofSource ("qreg " ++ elementText name digits ++ ";") .optional) name
      digits ∧
    (∀ source rule p rs c, Program.parse source rule = .ok p →
      Registers.ofStatements p.statements = .ok rs → p.toCircuit = .ok c →
      (∀ before size after, quantumSizes p.statements = before ++ (name, size) :: after →
        ReadsIndex
          (Circuit.ofSource (source ++ "\n" ++ ("reset " ++ elementText name digits ++ ";")) rule)
          ⟨(before.map Prod.snd).sum, size⟩ name digits
          fun bit => { c with instructions := c.instructions ++ [.reset ⟨bit.toUInt32⟩] }) ∧
      ∀ before size after, classicalSizes p.statements = before ++ (name, size) :: after →
        ∀ qubit number, IsIdentifier qubit.name → rs.qubits .start qubit = .ok (.bit number) →
          ReadsIndex
            (Circuit.ofSource (source ++ "\n" ++
              ("measure " ++ qubit.text ++ " -> " ++ elementText name digits ++ ";")) rule)
            ⟨(before.map Prod.snd).sum, size⟩ name digits fun bit => { c with
              instructions := c.instructions ++
                [.measure ⟨number.toUInt32⟩ ⟨bit.toUInt32⟩] }) ∧
    ∀ statements rs, Registers.ofStatements statements = .ok rs → ∀ position located us,
      located.map Located.token = digitTokens name digits ++ us →
      (∀ before size after, quantumSizes statements = before ++ (name, size) :: after →
        ReadsIndex (readOperand rs.quantum position located) ⟨(before.map Prod.snd).sum, size⟩
          name digits .bit) ∧
      ∀ before size after, classicalSizes statements = before ++ (name, size) :: after →
        ReadsIndex (readOperand rs.classical position located) ⟨(before.map Prod.snd).sum, size⟩
          name digits .bit := by
  refine ⟨readsSize_qreg hname hdigits, ?_, ?_⟩
  · intro source rule p rs c hparse hrs hc
    obtain ⟨quantum, classical⟩ := (Registers.lays_of_ofStatements hrs).numbered
    refine ⟨fun before size after hsizes => ?_, fun before size after hsizes => ?_⟩
    · exact readsIndex_reset hname hdigits hparse hrs hc (quantum.range _ _ _ _ hsizes)
    · intro qubit number hqubit hnumber
      exact readsIndex_measure hname hdigits hparse hrs hc (classical.range _ _ _ _ hsizes)
        hqubit hnumber
  · intro statements rs hrs position located us hlocated
    have lays := Registers.lays_of_ofStatements hrs
    obtain ⟨quantum, classical⟩ := lays.numbered
    refine ⟨fun before size after hsizes => ?_, fun before size after hsizes => ?_⟩
    · have hlookup := quantum.range _ _ _ _ hsizes
      obtain ⟨-, hend⟩ := Registers.le_of_lookup_eq_some lays.qubits hlookup
      exact readsIndex_operand hlookup (Nat.lt_of_le_of_lt hend lays.qubitCount_lt) position
        hlocated
    · have hlookup := classical.range _ _ _ _ hsizes
      obtain ⟨-, hend⟩ := Registers.le_of_lookup_eq_some lays.clbits hlookup
      exact readsIndex_operand hlookup (Nat.lt_of_le_of_lt hend lays.clbitCount_lt) position
        hlocated

/-- Two registers, the second of which has seven elements. -/
def twoRegistersText : String := "qreg q[2];\nqreg r[7];"

def twoRegisters : Program := ⟨none, [⟨.qreg "q" 2, ⟨1, 1⟩⟩, ⟨.qreg "r" 7, ⟨2, 1⟩⟩]⟩

theorem integerLiterals_exact_twoRegisters :
    (∃ c, Circuit.ofSource ("qreg " ++ elementText "r" ['0', '0', '6'] ++ ";") .optional = .ok c ∧
      c.qubitCount.toNat = 6) ∧
    Circuit.ofSource (twoRegistersText ++ "\n" ++
      ("reset " ++ elementText "r" ['0', '0', '6'] ++ ";")) .optional =
        .ok ⟨9, 0, [.reset ⟨8⟩]⟩ ∧
    ∃ p, Circuit.ofSource (twoRegistersText ++ "\n" ++
      ("reset " ++ elementText "r" (Nat.toDigits 10 (2 ^ 64 + 6)) ++ ";")) .optional =
        .error (.integerTooLarge p (Nat.toDigits 10 (2 ^ 64 + 6))) := by
  have hparse : Program.parse twoRegistersText .optional = .ok twoRegisters := by cbv
  obtain ⟨rs, hrs⟩ : ∃ rs, Registers.ofStatements twoRegisters.statements = .ok rs := ⟨_, rfl⟩
  have hc : twoRegisters.toCircuit = .ok ⟨9, 0, []⟩ := rfl
  have hsizes : quantumSizes twoRegisters.statements = [("q", 2)] ++ ("r", 7) :: [] := rfl
  have hname : IsIdentifier "r" := by decide
  have hsix : IsDigits ['0', '0', '6'] := ⟨by simp, by simp [Char.isDigit]⟩
  obtain ⟨size, lines, -⟩ := integerLiterals_exact hname hsix
  obtain ⟨-, wide, -⟩ := integerLiterals_exact hname
    ⟨Nat.toDigits_ne_nil, fun c hc => Decimal.isDigit_of_mem_toDigits hc⟩
  have index := (lines _ _ _ _ _ hparse hrs hc).1 _ _ _ hsizes
  have index' := (wide _ _ _ _ _ hparse hrs hc).1 _ _ _ hsizes
  refine ⟨size.declared.2 (by decide), index.element.2 (by decide), index'.tooLarge.2 ?_⟩
  rw [Decimal.digitsValue_toDigits]
  decide

end FlatQasm
