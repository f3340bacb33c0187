import FlatQasm.Proofs.Circuit.Spelling
import FlatQasm.Proofs.Grammar.Reading

/-!
# Reading the tokens of an exported circuit

The tokens of an exported circuit are read as a program: a declaration for each register that is
not empty, and a statement for each instruction, in order.  Behind the header and the `include`
they are the tokens of statements that the parser accepts, so that what is known of printed
statements is enough.

## Main definitions

* `StatementKind.Writes` — a statement writes an instruction down.
* `Circuit.WrittenBy` — a program writes a circuit down.
* `Statement.ReadsAs` — a statement for an instruction that can be read wherever it stands.

## Main statements

* `exists_readsAs` — an instruction has such a statement.
* `takes_circuit` — the tokens of a circuit.
* `Circuit.exists_parse_eq_ok` — the text of a circuit.
-/

namespace FlatQasm

/-! ## Statements for instructions -/

/-- A qubit as an element of the register `q`. -/
def Qubit.operand (q : Qubit) : Operand := .element "q" (UInt64.ofNat q.index.toNat)

/-- A classical bit as an element of the register `c`. -/
def Clbit.operand (c : Clbit) : Operand := .element "c" (UInt64.ofNat c.index.toNat)

/-- A statement writes an instruction down. -/
inductive StatementKind.Writes : StatementKind → Instruction → Prop where
  | gate (g : Gate) (qubits : List Qubit) :
      Writes (.call ⟨g.mnemonic, g.base.angle?.toList, qubits.map Qubit.operand⟩) (.gate g qubits)
  | measure (q : Qubit) (c : Clbit) : Writes (.measure q.operand c.operand) (.measure q c)
  | reset (q : Qubit) : Writes (.reset q.operand) (.reset q)
  | barrier (qubits : List Qubit) :
      Writes (.barrier (qubits.map Qubit.operand)) (.barrier qubits)

/-- The statements that declare a register, if it is not empty. -/
def declarations (make : String → UInt32 → StatementKind) (name : String) (size : UInt32) :
    List StatementKind :=
  if size = 0 then [] else [make name size]

/-- A program writes a circuit down: it declares the registers that are not empty, and has a
statement for each instruction. -/
def Circuit.WrittenBy (c : Circuit) (p : Program) : Prop :=
  ∃ quantum classical body, p.statements = quantum ++ (classical ++ body) ∧
    quantum.map Statement.kind = declarations .qreg "q" c.qubitCount ∧
    classical.map Statement.kind = declarations .creg "c" c.clbitCount ∧
    List.Forall₂ (fun i s => s.kind.Writes i) c.instructions body

/-- A statement writes an instruction down, and can be read wherever it stands. -/
structure Statement.ReadsAs (s : Statement) (i : Instruction) : Prop where
  writes : s.kind.Writes i
  accepted : ∀ scope, s.Accepted scope
  printable : ∀ c ∈ s.calls, ∀ e ∈ c.params, e.Printable
  operands : ∀ c ∈ s.calls, c.operands ≠ []

/-- The declaration of a register, if it is not empty, as statements at some position. -/
def declared (make : String → UInt32 → StatementKind) (name : String) (size : UInt32) :
    List Statement :=
  (declarations make name size).map fun kind => ⟨kind, .start⟩

/-- The statements that declare the registers of a circuit, in front of others. -/
def Circuit.declaring (c : Circuit) (body : List Statement) : List Statement :=
  declared .qreg "q" c.qubitCount ++ (declared .creg "c" c.clbitCount ++ body)

/-- What an instruction is that has the operands it needs. -/
inductive Instruction.Shape : Instruction → Prop where
  | gate (g : Gate) (qubits : List Qubit) (hqubits : qubits.length = g.qubitCount) :
      Shape (.gate g qubits)
  | measure (q : Qubit) (c : Clbit) : Shape (.measure q c)
  | reset (q : Qubit) : Shape (.reset q)
  | barrier (qubits : List Qubit) (hqubits : qubits ≠ []) : Shape (.barrier qubits)

theorem Instruction.Fits.shape {qubits clbits : UInt32} {i : Instruction}
    (h : i.Fits qubits clbits) : i.Shape := by
  obtain ⟨operation, qs, cs⟩ := i
  have hqubits := h.qubits_counted
  have hclbits := h.clbits_counted
  cases operation with
  | gate g =>
    obtain rfl := List.length_eq_zero_iff.1 hclbits
    exact .gate g qs hqubits
  | measure =>
    obtain ⟨q, rfl⟩ := List.length_eq_one_iff.1 hqubits
    obtain ⟨c, rfl⟩ := List.length_eq_one_iff.1 hclbits
    exact .measure q c
  | reset =>
    obtain ⟨q, rfl⟩ := List.length_eq_one_iff.1 hqubits
    obtain rfl := List.length_eq_zero_iff.1 hclbits
    exact .reset q
  | barrier =>
    obtain rfl := List.length_eq_zero_iff.1 hclbits
    exact .barrier qs hqubits

/-- A gate has as many angles as its mnemonic takes. -/
theorem Gate.length_angle (g : Gate) : g.base.angle?.toList.length = g.signature.paramCount := by
  obtain ⟨base, controls⟩ := g
  cases base <;> rfl

namespace Grammar

open FlatQasm.Grammar.Parser (Takes)

variable {us : List Token}

/-! ## Instructions -/

/-- A number is read back, whatever its sign. -/
theorem printable_const {v : Float} (hv : v.isFinite = true) : (Angle.const v).Printable :=
  ⟨rfl, (by decide : 1 ≤ printableDepth), .intro, hv⟩

/-- The tokens of an instruction are those of the statement that writes it down. -/
theorem tokens_eq_of_writes {kind : StatementKind} {i : Instruction} (h : kind.Writes i)
    (hnumeric : i.Numeric) : i.tokens = kind.tokens := by
  have list (qubits : List Qubit) :
      qubitTokens qubits = listTokens ((qubits.map Qubit.operand).map Operand.tokens) := by
    rw [List.map_map]
    rfl
  cases h with
  | gate g qubits =>
    have argument : g.base.argumentTokens =
        parenthesizedTokens (g.base.angle?.toList.map Angle.tokens) := by
      obtain ⟨base, controls⟩ := g
      cases base with
      | fixed gate => rfl
      | rotation axis angle =>
        obtain ⟨v, rfl, -⟩ := hnumeric angle rfl
        simp [BaseGate.argumentTokens, BaseGate.angle?, parenthesizedTokens, listTokens,
          Angle.tokens]
    simp only [Instruction.tokens, Instruction.gate, StatementKind.tokens, GateCall.tokens,
      argument, list]
  | measure q c => simp [Instruction.tokens, Instruction.measure, measureTokens,
      StatementKind.tokens, Qubit.operand, Clbit.operand, Qubit.tokens, Clbit.tokens, elementTokens,
      Operand.tokens]
  | reset q => simp [Instruction.tokens, Instruction.reset, list, listTokens, StatementKind.tokens]
  | barrier qubits =>
    simp only [Instruction.tokens, Instruction.barrier, StatementKind.tokens, list]

/-- **An instruction with a number for its angle can be written down.** -/
theorem exists_readsAs {i : Instruction} (hnumeric : i.Numeric) (hshape : i.Shape) :
    ∃ s : Statement, s.ReadsAs i := by
  cases hshape with
  | gate g qubits hqubits =>
    refine ⟨⟨_, .start⟩, .gate g qubits, fun scope => ?_, ?_, ?_⟩
    · refine ⟨⟨g.signature.paramCount, g.signature.qubitCount⟩, ?_, g.length_angle, ?_⟩
      · rw [Scope.arity?, Gate.mnemonic, signature?_mnemonic]
      · rw [List.length_map]
        exact hqubits
    · refine List.forall_mem_singleton.2 fun e he => ?_
      obtain ⟨v, rfl, hv⟩ := hnumeric e (Option.mem_toList.1 he)
      exact printable_const hv
    · refine List.forall_mem_singleton.2 ?_
      rw [ne_eq, List.map_eq_nil_iff]
      rintro rfl
      cases hqubits
  | measure q c =>
    exact ⟨⟨_, .start⟩, .measure q c, fun _ => .intro, List.forall_mem_nil _, List.forall_mem_nil _⟩
  | reset q =>
    exact ⟨⟨_, .start⟩, .reset q, fun _ => .intro, List.forall_mem_nil _, List.forall_mem_nil _⟩
  | barrier qubits hqubits =>
    refine ⟨⟨_, .start⟩, .barrier qubits, fun scope => ?_, List.forall_mem_nil _,
      List.forall_mem_nil _⟩
    show qubits.map Qubit.operand ≠ []
    rwa [ne_eq, List.map_eq_nil_iff]

/-! ## Programs -/

section Statements

variable {b : Located} {bound : List Located} {scope : Scope} {vs : List Token}
  {Q : List Statement → Prop} {instructions : List Instruction} {list : List Statement}

/-- An `include` in front of statements. -/
theorem takes_statements_include {name : String} (hrest : (statements bound scope).Takes us Q vs) :
    (statements (b :: bound) scope).Takes
      (.keyword .includeFile :: .string name :: .punct .semicolon :: us) Q vs := by
  intro located hts
  obtain ⟨p, rest, rfl, hname⟩ := exists_of_map_eq_cons hts
  obtain ⟨p', rest, rfl, hsemicolon⟩ := exists_of_map_eq_cons hname
  obtain ⟨⟨⟩, behind, hexpect, -, hus⟩ := takes_expect rest hsemicolon
  obtain ⟨list, end_, hlist, hQ, hvs⟩ := hrest behind hus
  refine ⟨list, end_, ?_, hQ, hvs⟩
  rw [statements_include]
  exact bind_eq_ok.2 ⟨_, hexpect, hlist⟩

/-- The tokens of instructions are those of the statements that write them down. -/
theorem tokens_eq_of_readsAs (hnumeric : ∀ i ∈ instructions, i.Numeric)
    (h : List.Forall₂ (fun i s => Statement.ReadsAs s i) instructions list) :
    instructions.flatMap Instruction.tokens = list.flatMap fun s => s.kind.tokens := by
  induction h with
  | nil => rfl
  | cons hs _ ih =>
    rw [List.forall_mem_cons] at hnumeric
    rw [List.flatMap_cons, List.flatMap_cons, tokens_eq_of_writes hs.writes hnumeric.1,
      ih hnumeric.2]

/-- Statements that can be read wherever they stand are accepted one after another. -/
theorem acceptedFrom_of_readsAs
    (h : List.Forall₂ (fun i s => Statement.ReadsAs s i) instructions list) (scope : Scope) :
    AcceptedFrom scope list := by
  induction h generalizing scope with
  | nil => exact .intro
  | cons hs _ ih => exact ⟨hs.accepted scope, ih _⟩

end Statements

theorem map_kind_declared (make : String → UInt32 → StatementKind) (name : String)
    (size : UInt32) :
    (declared make name size).map Statement.kind = declarations make name size := by
  rw [declared, List.map_map]
  exact List.map_id _

/-- The tokens of a register are those of the statements that declare it. -/
theorem tokens_declared {word : Keyword} {make : String → UInt32 → StatementKind}
    (hword : word = .qreg ∧ make = .qreg ∨ word = .creg ∧ make = .creg) (name : String)
    (size : UInt32) :
    registerTokens word name size =
      (declared make name size).flatMap fun s => s.kind.tokens := by
  simp only [registerTokens, declared, declarations]
  split
  · rfl
  · rcases hword with ⟨rfl, rfl⟩ | ⟨rfl, rfl⟩ <;> exact (List.append_nil _).symm

section Declared

variable {make : String → UInt32 → StatementKind} (hmake : make = .qreg ∨ make = .creg)
include hmake

/-- A declaration calls no gates. -/
theorem calls_of_mem_declared {name : String} {size : UInt32} {s : Statement}
    (hs : s ∈ declared make name size) : s.calls = [] := by
  obtain ⟨kind, hkind, rfl⟩ := List.mem_map.1 hs
  simp only [declarations] at hkind
  split at hkind
  · cases hkind
  · obtain rfl := List.mem_singleton.1 hkind
    rcases hmake with rfl | rfl <;> rfl

/-- A declaration of a new name in front of statements that are accepted behind it. -/
theorem acceptedFrom_declared {scope : Scope} {name : String} {size : UInt32}
    {list : List Statement} (hname : name ∉ scope.registers)
    (hlist : ∀ scope' : Scope, scope'.registers ⊆ name :: scope.registers →
      AcceptedFrom scope' list) : AcceptedFrom scope (declared make name size ++ list) := by
  simp only [declared, declarations]
  split
  · exact hlist scope (List.subset_cons_self _ _)
  · next hsize =>
    have hpos : 0 < size.toNat := Nat.pos_of_ne_zero fun h => hsize (UInt32.toNat.inj h)
    rcases hmake with rfl | rfl
    · exact ⟨⟨hname, hpos⟩, hlist _ (List.Subset.refl _)⟩
    · exact ⟨⟨hname, hpos⟩, hlist _ (List.Subset.refl _)⟩

end Declared

section Declaring

variable {c : Circuit} {body : List Statement}

theorem acceptedFrom_declaring (hbody : ∀ scope, AcceptedFrom scope body) :
    AcceptedFrom .empty (c.declaring body) := by
  refine acceptedFrom_declared (.inl rfl) List.not_mem_nil fun scope hscope => ?_
  have hclassical : "c" ∉ scope.registers := fun hc => absurd (hscope hc) (by decide)
  exact acceptedFrom_declared (.inr rfl) hclassical fun scope _ => hbody scope

/-- Only the statements behind the declarations call gates. -/
theorem mem_of_mem_declaring {s : Statement} (hs : s ∈ c.declaring body) {call : GateCall}
    (hcall : call ∈ s.calls) : s ∈ body := by
  have undeclared {make : String → UInt32 → StatementKind} (hmake : make = .qreg ∨ make = .creg)
      {name : String} {size : UInt32} : s ∉ declared make name size := by
    intro hs
    rw [calls_of_mem_declared hmake hs] at hcall
    cases hcall
  have hs := (List.mem_append.1 hs).resolve_left (undeclared (.inl rfl))
  exact (List.mem_append.1 hs).resolve_left (undeclared (.inr rfl))

/-- The positions of the statements that write a circuit down do not matter. -/
theorem writtenBy_of_map_kind {version : Option String} {found : List Statement}
    (hbody : List.Forall₂ (fun i s => s.kind.Writes i) c.instructions body)
    (hfound : found.map Statement.kind = (c.declaring body).map Statement.kind) :
    c.WrittenBy ⟨version, found⟩ := by
  rw [Circuit.declaring, List.map_append, List.map_append] at hfound
  obtain ⟨quantum, others, rfl, hquantum, hothers⟩ := List.map_eq_append_iff.1 hfound
  obtain ⟨classical, rest, rfl, hclassical, hrest⟩ := List.map_eq_append_iff.1 hothers
  refine ⟨quantum, classical, rest, rfl, ?_, ?_, ?_⟩
  · rw [hquantum, map_kind_declared]
  · rw [hclassical, map_kind_declared]
  · have written : List.Forall₂ (fun i kind => StatementKind.Writes kind i) c.instructions
        (body.map Statement.kind) := List.forall₂_map_right_iff.2 hbody
    rw [← hrest] at written
    exact List.forall₂_map_right_iff.1 written

end Declaring

/-- **The tokens of a circuit are read as a program that writes it down.** -/
theorem takes_circuit {c : Circuit} (hnumeric : c.Numeric) (wf : c.WellFormed) :
    (program .required).Takes c.tokens c.WrittenBy [] := by
  obtain ⟨body, hbody⟩ :
      ∃ body, List.Forall₂ (fun i s => Statement.ReadsAs s i) c.instructions body :=
    exists_forall₂ fun i hi => exists_readsAs (hnumeric i hi) (wf.fits hi).shape
  have htokens : registerTokens .qreg "q" c.qubitCount ++ (registerTokens .creg "c" c.clbitCount ++
      c.instructions.flatMap Instruction.tokens) =
        (c.declaring body).flatMap fun s => s.kind.tokens := by
    rw [Circuit.declaring, List.flatMap_append, List.flatMap_append,
      tokens_eq_of_readsAs hnumeric hbody, tokens_declared (.inl ⟨rfl, rfl⟩),
      tokens_declared (.inr ⟨rfl, rfl⟩)]
  have readable {s : Statement} (hs : s ∈ c.declaring body) {call : GateCall}
      (hcall : call ∈ s.calls) : (∀ e ∈ call.params, e.Printable) ∧ call.operands ≠ [] := by
    obtain ⟨i, -, h⟩ := exists_mem_of_forall₂ hbody (mem_of_mem_declaring hs hcall)
    exact ⟨h.printable call hcall, h.operands call hcall⟩
  simp only [Circuit.tokens, List.cons_append, List.nil_append, htokens]
  refine (takes_header .required).bind fun version _ => Takes.get.bind fun bound hbound => ?_
  obtain ⟨p, bound, rfl, hbehind⟩ := exists_of_map_eq_cons hbound
  have hlength : (c.declaring body).length ≤ bound.length := by
    have htail := congrArg List.length hbehind
    rw [List.length_map, List.length_cons, List.length_cons] at htail
    have := length_le_statementTokens (c.declaring body)
    omega
  have taken := takes_statements (acceptedFrom_declaring (acceptedFrom_of_readsAs hbody))
    (fun s hs call hcall => (readable hs hcall).1) (fun s hs call hcall => (readable hs hcall).2)
    hlength
  refine (takes_statements_include taken).bind fun found hfound => .pure ?_
  exact writtenBy_of_map_kind (hbody.imp fun _ _ h => h.writes) hfound

end Grammar

/-- **The text of a circuit whose angles are numbers is read as a program that writes it down.** -/
theorem Circuit.exists_parse_eq_ok {c : Circuit} (hnumeric : c.Numeric) (wf : c.WellFormed)
    {text : String} (h : c.exportText ∅ false = .ok text) :
    ∃ p, Program.parse text .required = .ok p ∧ c.WrittenBy p := by
  obtain ⟨located, htokens, hlocated⟩ := (c.lexes_exportText hnumeric h).exists_tokens
  obtain ⟨p, rest, hp, hwritten, -⟩ := Grammar.takes_circuit hnumeric wf located hlocated
  exact ⟨p, bind_eq_ok.2 ⟨located, htokens, bind_eq_ok.2 ⟨_, hp, rfl⟩⟩, hwritten⟩

end FlatQasm
