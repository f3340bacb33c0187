import FlatQasm.Program.ToCircuit
import FlatQasm.Proofs.Program.Layout

/-!
# The numbering of bits

A circuit has no registers: its qubits are numbered through, and so are its classical bits.  The
registers of one kind take the numbers in the order of their declarations, each right behind the one
before it, wherever else the declarations stand in the program.  So every number belongs to one
element of one register, and all of them are 32-bit numbers; no sum of an offset and an index wraps
around.

## Main definitions

* `Register.Holds` — the numbers of a register.
* `Numbered` — how the registers of one kind are numbered through.
* `SizesFit` — sizes that can be numbered.
* `Program.declarationsFirst` — a program with its registers declared in front.

## Main statements

* `Registers.Lays.numbered` — what the first pass lays out is numbered through.
* `Registers.ofStatements_of_names` — which declarations are accepted.
* `Program.toCircuit_declarationsFirst` — it does not matter where registers are declared.
* `Program.registers_numbered` — the three together.
-/

namespace FlatQasm

/-! ## Ranges without gaps -/

/-- The numbers of a register. -/
def Register.Holds (r : Register) (bit : Nat) : Prop := r.offset ≤ bit ∧ bit < r.offset + r.size

section Contiguous

variable {registers : List (String × Register)} {used bit : Nat}

theorem Contiguous.eq_sum (h : Contiguous registers used) :
    used = (registers.map fun r => r.2.size).sum := by
  induction registers generalizing used with
  | nil => exact h
  | cons first rest ih =>
    obtain ⟨-, hend, hrest⟩ := h
    rw [List.map_cons, List.sum_cons, ← ih hrest, Nat.add_comm]
    exact hend.symm

/-- The registers before some register fill the bits below its offset. -/
theorem Contiguous.of_append {behind before : List (String × Register)} {name : String}
    {r : Register} (h : Contiguous (behind ++ (name, r) :: before) used) :
    Contiguous before r.offset := by
  induction behind generalizing used with
  | nil => exact h.2.2
  | cons last behind ih => exact ih h.2.2

/-- There is no gap between registers. -/
theorem Contiguous.exists_holds (h : Contiguous registers used) (hbit : bit < used) :
    ∃ pair ∈ registers, pair.2.Holds bit := by
  induction registers generalizing used with
  | nil =>
    rw [show used = 0 from h] at hbit
    exact absurd hbit (Nat.not_lt_zero bit)
  | cons first rest ih =>
    obtain ⟨-, hend, hrest⟩ := h
    by_cases hoffset : first.2.offset ≤ bit
    · exact ⟨first, List.mem_cons_self, hoffset, by omega⟩
    · obtain ⟨pair, hmem, hholds⟩ := ih hrest (Nat.lt_of_not_le hoffset)
      exact ⟨pair, List.mem_cons_of_mem first hmem, hholds⟩

/-- Registers do not overlap. -/
theorem Contiguous.eq_of_holds (h : Contiguous registers used) {x y : String × Register}
    (hx : x ∈ registers) (hy : y ∈ registers) (hxbit : x.2.Holds bit) (hybit : y.2.Holds bit) :
    x = y := by
  induction registers generalizing used with
  | nil => cases hx
  | cons first rest ih =>
    obtain ⟨-, -, hrest⟩ := h
    have below {z : String × Register} (hz : z ∈ rest) (hzbit : z.2.Holds bit) :
        ¬ first.2.Holds bit := by
      intro hfirst
      have hle := (hrest.le hz).2
      have hlow := hfirst.1
      have hhigh := hzbit.2
      omega
    rcases List.mem_cons.1 hx with hxfirst | hxrest
    · rcases List.mem_cons.1 hy with hyfirst | hyrest
      · rw [hxfirst, hyfirst]
      · exact absurd (hxfirst ▸ hxbit) (below hyrest hybit)
    · rcases List.mem_cons.1 hy with hyfirst | hyrest
      · exact absurd (hyfirst ▸ hybit) (below hxrest hxbit)
      · exact ih hrest hxrest hyrest

end Contiguous

/-! ## The registers of one kind -/

/-- How the registers of one kind are numbered through.  They are declared with the given sizes, in
this order, and take the numbers below a count. -/
structure Numbered (registers : List (String × Register)) (sizes : List (String × Nat))
    (count : Nat) : Prop where
  /-- There are as many numbers as the registers have elements together. -/
  count_eq : count = (sizes.map Prod.snd).sum
  count_lt : count < UInt32.size
  declared (name : String) : (registers.lookup name).isSome = true ↔ name ∈ sizes.map Prod.fst
  /-- A register begins where those that are declared before it end. -/
  range (before : List (String × Nat)) (name : String) (size : Nat)
    (after : List (String × Nat)) : sizes = before ++ (name, size) :: after →
    registers.lookup name = some ⟨(before.map Prod.snd).sum, size⟩
  /-- Every number below the count belongs to one register, and no other number to any. -/
  partition (bit : Nat) : bit < count →
    ∃! name, ∃ r, registers.lookup name = some r ∧ r.Holds bit
  inside (name : String) (r : Register) (bit : Nat) : registers.lookup name = some r →
    r.Holds bit → bit < count
  /-- An element has the number of its index behind the offset, if the register has so many. -/
  element (name : String) (r : Register) (p : Position) (i : UInt64) :
    registers.lookup name = some r →
    Registers.resolve registers p (.element name i) =
      if i.toNat < r.size then .ok (.bit (r.offset + i.toNat))
      else .error (.indexOutOfRange p name i.toNat r.size)
  /-- Different elements have different numbers, as 32-bit numbers too. -/
  distinct (p p' : Position) (name name' : String) (i i' : UInt64) (bit bit' : Nat) :
    Registers.resolve registers p (.element name i) = .ok (.bit bit) →
    Registers.resolve registers p' (.element name' i') = .ok (.bit bit') →
    bit.toUInt32 = bit'.toUInt32 → name = name' ∧ i = i'
  /-- The sum of 32-bit numbers that gives the end of a register, or the number of an element, does
  not wrap around. -/
  exact_sum (name : String) (r : Register) (i : Nat) : registers.lookup name = some r →
    i ≤ r.size → (r.offset.toUInt32 + i.toUInt32).toNat = r.offset + i

section Numbered

variable {registers : List (String × Register)} {sizes : List (String × Nat)} {count : Nat}

theorem sum_of_sizes (hsizes : registers.map (fun r => (r.1, r.2.size)) = sizes.reverse) :
    (registers.map fun r => r.2.size).sum = (sizes.map Prod.snd).sum := by
  have hmap : registers.map (fun r => r.2.size) = (sizes.map Prod.snd).reverse := by
    rw [← List.map_reverse, ← hsizes, List.map_map]
    rfl
  rw [hmap, List.sum_reverse]

theorem nodup_of_sizes (nodup : (sizes.map Prod.fst).Nodup)
    (hsizes : registers.map (fun r => (r.1, r.2.size)) = sizes.reverse) :
    (registers.map Prod.fst).Nodup := by
  rw [map_fst_of_sizes hsizes]
  exact List.nodup_reverse.2 nodup

/-- The offset of a register is the sum of the sizes before it. -/
theorem lookup_eq_of_contiguous (nodup : (sizes.map Prod.fst).Nodup)
    (hsizes : registers.map (fun r => (r.1, r.2.size)) = sizes.reverse)
    (h : Contiguous registers count) {before after : List (String × Nat)} {name : String}
    {size : Nat} (hsplit : sizes = before ++ (name, size) :: after) :
    registers.lookup name = some ⟨(before.map Prod.snd).sum, size⟩ := by
  have names := nodup_of_sizes nodup hsizes
  rw [hsplit, List.reverse_append, List.reverse_cons, List.append_assoc,
    List.map_eq_append_iff] at hsizes
  obtain ⟨behind, rest, rfl, -, hrest⟩ := hsizes
  obtain ⟨⟨_, r⟩, front, rfl, heq, hfront⟩ := List.map_eq_cons_iff.1 hrest
  cases heq
  rw [lookup_eq_some_of_mem names (List.mem_append_right _ List.mem_cons_self),
    ← sum_of_sizes hfront, ← h.of_append.eq_sum]

theorem exists_of_resolve_element {p : Position} {name : String} {i : UInt64} {bit : Nat}
    (h : Registers.resolve registers p (.element name i) = .ok (.bit bit)) :
    ∃ r, registers.lookup name = some r ∧ i.toNat < r.size ∧ bit = r.offset + i.toNat := by
  rcases Registers.resolve_eq_ok.1 h with ⟨_, _, hregister, -⟩ | ⟨_, _, r, he, hr, hlt, hbit⟩
  · cases hregister
  · cases he
    cases hbit
    exact ⟨r, hr, hlt, rfl⟩

/-- Elements with the same number are the same. -/
theorem element_inj (h : Contiguous registers count) {p p' : Position} {name name' : String}
    {i i' : UInt64} {bit : Nat}
    (hbit : Registers.resolve registers p (.element name i) = .ok (.bit bit))
    (hbit' : Registers.resolve registers p' (.element name' i') = .ok (.bit bit)) :
    name = name' ∧ i = i' := by
  obtain ⟨r, hr, hlt, rfl⟩ := exists_of_resolve_element hbit
  obtain ⟨r', hr', hlt', hsum⟩ := exists_of_resolve_element hbit'
  have hholds : r.Holds (r.offset + i.toNat) := ⟨by omega, by omega⟩
  have hholds' : r'.Holds (r.offset + i.toNat) := ⟨by omega, by omega⟩
  have hsame := h.eq_of_holds (mem_of_lookup_eq_some hr) (mem_of_lookup_eq_some hr') hholds hholds'
  cases hsame
  exact ⟨rfl, UInt64.toNat_inj.1 (Nat.add_left_cancel hsum)⟩

/-- **Registers without gaps are numbered through.** -/
theorem numbered_of_contiguous
    (hsizes : registers.map (fun r => (r.1, r.2.size)) = sizes.reverse)
    (nodup : (sizes.map Prod.fst).Nodup) (h : Contiguous registers count)
    (hcount : count < UInt32.size) : Numbered registers sizes count where
  count_eq := by rw [h.eq_sum, sum_of_sizes hsizes]
  count_lt := hcount
  declared name := by
    rw [Option.isSome_iff_ne_none, ne_eq, lookup_eq_none_iff_notMem, not_not,
      map_fst_of_sizes hsizes, List.mem_reverse]
  range before name size after := lookup_eq_of_contiguous nodup hsizes h
  partition bit hbit := by
    obtain ⟨⟨name, r⟩, hmem, hholds⟩ := h.exists_holds hbit
    have hr := lookup_eq_some_of_mem (nodup_of_sizes nodup hsizes) hmem
    refine ⟨name, ⟨r, hr, hholds⟩, ?_⟩
    rintro name' ⟨r', hr', hholds'⟩
    have hsame := h.eq_of_holds (mem_of_lookup_eq_some hr') hmem hholds' hholds
    exact congrArg Prod.fst hsame
  inside name r bit hr hholds :=
    Nat.lt_of_lt_of_le hholds.2 (Registers.le_of_lookup_eq_some h hr).2
  element name r p i hr := by simp only [Registers.resolve, Operand.name, hr]
  distinct p p' name name' i i' bit bit' hbit hbit' heq := by
    have hlt : bit < count := Registers.bitAt_lt h hbit (i := 0) (by simp [Resolved.size?])
    have hlt' : bit' < count := Registers.bitAt_lt h hbit' (i := 0) (by simp [Resolved.size?])
    obtain rfl := toUInt32_inj (Nat.lt_trans hlt hcount) (Nat.lt_trans hlt' hcount) heq
    exact element_inj h hbit hbit'
  exact_sum name r i hr hi := by
    have hle := (Registers.le_of_lookup_eq_some h hr).2
    have hsum : r.offset + i < UInt32.size := by omega
    rw [UInt32.toNat_add, toNat_toUInt32 (by omega), toNat_toUInt32 (by omega)]
    exact Nat.mod_eq_of_lt hsum

theorem Registers.Lays.numbered {rs : Registers} {statements : List Statement}
    (lays : rs.Lays statements) :
    Numbered rs.quantum (quantumSizes statements) rs.qubitCount ∧
      Numbered rs.classical (classicalSizes statements) rs.clbitCount := by
  have names := lays.names
  rw [List.map_append] at names
  exact ⟨numbered_of_contiguous lays.quantum names.of_append_left lays.qubits lays.qubitCount_lt,
    numbered_of_contiguous lays.classical names.of_append_right lays.clbits lays.clbitCount_lt⟩

end Numbered

/-! ## Declarations that are accepted -/

/-- The sizes of the declared registers can be numbered: none is zero, and those of each kind have
32-bit numbers together. -/
structure SizesFit (statements : List Statement) : Prop where
  pos : ∀ register ∈ quantumSizes statements ++ classicalSizes statements, 0 < register.2
  quantum : ((quantumSizes statements).map Prod.snd).sum < UInt32.size
  classical : ((classicalSizes statements).map Prod.snd).sum < UInt32.size

namespace Registers

variable {rs : Registers} {statements before after : List Statement} {s : Statement}

theorem Lays.sizesFit (lays : rs.Lays statements) : SizesFit statements := by
  refine ⟨fun register hregister => ?_, ?_, ?_⟩
  · have pos {registers : List (String × Register)} {sizes : List (String × Nat)} {count : Nat}
        (hsizes : registers.map (fun r => (r.1, r.2.size)) = sizes.reverse)
        (h : Contiguous registers count) (hmem : register ∈ sizes) : 0 < register.2 := by
      rw [← List.mem_reverse, ← hsizes] at hmem
      obtain ⟨⟨name, r⟩, hr, rfl⟩ := List.mem_map.1 hmem
      exact (h.le hr).1
    rcases List.mem_append.1 hregister with hquantum | hclassical
    · exact pos lays.quantum lays.qubits hquantum
    · exact pos lays.classical lays.clbits hclassical
  · rw [← lays.qubitCount]
    exact lays.qubitCount_lt
  · rw [← lays.clbitCount]
    exact lays.clbitCount_lt

/-- A register with a new name is only refused for its size, and then the sizes do not fit. -/
theorem Lays.check_refused (lays : rs.Lays before) {p : Position} {name : String} {size : UInt32}
    {used : Nat} (hnew : name ∉ (quantumSizes before ++ classicalSizes before).map Prod.fst)
    (hfit : SizesFit statements → 0 < size.toNat ∧ used + size.toNat < UInt32.size)
    {e : ImportError} (h : rs.check p name size used = .error e) :
    ¬ SizesFit statements ∧ ∃ position name size, e = .invalidRegisterSize position name size := by
  rcases check_eq_error h with hcontains | ⟨hsize, rfl⟩
  · exact absurd ((lays.contains_eq name).1 hcontains) hnew
  · refine ⟨fun fit => ?_, p, name, size.toNat, rfl⟩
    obtain ⟨hpos, hlt⟩ := hfit fit
    omega

/-- A register among others, and the room up to its end. -/
theorem mem_and_le_of_split {sizes before after : List (String × Nat)} {register : String × Nat}
    (h : sizes = before ++ register :: after) :
    register ∈ sizes ∧ (before.map Prod.snd).sum + register.2 ≤ (sizes.map Prod.snd).sum := by
  subst h
  refine ⟨List.mem_append_right _ List.mem_cons_self, ?_⟩
  rw [List.map_append, List.sum_append, List.map_cons, List.sum_cons]
  omega

/-- A declaration is only refused for a size when names are distinct. -/
theorem Lays.declare_refused (lays : rs.Lays before) (hsplit : statements = before ++ s :: after)
    (names : ((quantumSizes statements ++ classicalSizes statements).map Prod.fst).Nodup)
    {e : ImportError} (h : rs.declare s = .error e) :
    ¬ SizesFit statements ∧ ∃ position name size, e = .invalidRegisterSize position name size := by
  have quantum := quantumSizes_split before after s
  have classical := classicalSizes_split before after s
  rw [← hsplit] at quantum classical
  rw [quantum, classical] at names
  obtain ⟨kind, position⟩ := s
  cases kind with
  | qreg name size =>
    rcases bind_eq_error.1 h with h | ⟨_, -, h⟩
    swap
    · cases h
    simp only [Statement.quantumRegister?, Statement.classicalRegister?, Option.toList_some,
      Option.toList_none, List.cons_append, List.nil_append] at names quantum
    obtain ⟨hmem, hle⟩ := mem_and_le_of_split quantum
    refine lays.check_refused (fun hold => ?_) (fun fit => ?_) h
    · simp only [List.map_append, List.map_cons] at names hold
      grind
    · rw [lays.qubitCount]
      exact ⟨fit.pos _ (List.mem_append_left _ hmem), Nat.lt_of_le_of_lt hle fit.quantum⟩
  | creg name size =>
    rcases bind_eq_error.1 h with h | ⟨_, -, h⟩
    swap
    · cases h
    simp only [Statement.quantumRegister?, Statement.classicalRegister?, Option.toList_some,
      Option.toList_none, List.cons_append, List.nil_append] at names classical
    obtain ⟨hmem, hle⟩ := mem_and_le_of_split classical
    refine lays.check_refused (fun hold => ?_) (fun fit => ?_) h
    · simp only [List.map_append, List.map_cons] at names hold
      grind
    · rw [lays.clbitCount]
      exact ⟨fit.pos _ (List.mem_append_right _ hmem), Nat.lt_of_le_of_lt hle fit.classical⟩
  | _ => cases h

/-- **Registers with distinct names are laid out when their sizes fit, and otherwise refused for a
size.** -/
theorem ofStatements_of_names
    (names : ((quantumSizes statements ++ classicalSizes statements).map Prod.fst).Nodup) :
    SizesFit statements ∧ (∃ rs, ofStatements statements = .ok rs) ∨
      ¬ SizesFit statements ∧ ∃ position name size,
        ofStatements statements = .error (.invalidRegisterSize position name size) := by
  cases h : ofStatements statements with
  | ok rs => exact .inl ⟨(lays_of_ofStatements h).sizesFit, rs, rfl⟩
  | error e =>
    obtain ⟨before, s, after, rs, hsplit, hbefore, hs⟩ := exists_of_ofStatements_eq_error h
    obtain ⟨hfit, position, name, size, rfl⟩ :=
      (lays_of_ofStatements hbefore).declare_refused hsplit names hs
    exact .inr ⟨hfit, position, name, size, rfl⟩

end Registers

/-! ## Declarations in front -/

/-- Whether a statement declares a register. -/
def Statement.declaresRegister (s : Statement) : Bool := s.kind matches .qreg _ _ | .creg _ _

/-- The first pass leaves the other statements out. -/
theorem Registers.declare_of_declaresRegister {s : Statement} (h : s.declaresRegister = false)
    (rs : Registers) : rs.declare s = .ok rs := by
  obtain ⟨kind, position⟩ := s
  cases kind with
  | qreg | creg => cases h
  | _ => rfl

/-- The second pass leaves declarations out. -/
theorem Lowering.statement_of_declaresRegister {s : Statement} (h : s.declaresRegister = true)
    (l : Lowering) : l.statement s = .ok (l, []) := by
  obtain ⟨kind, position⟩ := s
  cases kind with
  | qreg | creg => simp
  | _ => cases h

/-- The program with its declarations of registers in front of the other statements. -/
def Program.declarationsFirst (p : Program) : Program where
  version := p.version
  statements := p.statements.filter Statement.declaresRegister ++
    p.statements.filter fun s => !s.declaresRegister

/-- The first pass looks at declarations only. -/
theorem foldlM_declare_filter (statements : List Statement) (rs : Registers) :
    (statements.filter Statement.declaresRegister).foldlM Registers.declare rs =
      statements.foldlM Registers.declare rs := by
  induction statements generalizing rs with
  | nil => rfl
  | cons s rest ih =>
    cases hs : s.declaresRegister with
    | true =>
      rw [List.filter_cons_of_pos hs, List.foldlM_cons, List.foldlM_cons]
      exact bind_congr fun rs => ih rs
    | false =>
      rw [List.filter_cons_of_neg (by simp [hs]), List.foldlM_cons,
        Registers.declare_of_declaresRegister hs, ok_bind]
      exact ih rs

/-- The second pass does not look at declarations. -/
theorem Lowering.statements_filter (statements : List Statement) (l : Lowering) :
    l.statements (statements.filter fun s => !s.declaresRegister) = l.statements statements := by
  induction statements generalizing l with
  | nil => rfl
  | cons s rest ih =>
    cases hs : s.declaresRegister with
    | true =>
      rw [List.filter_cons_of_neg (by simp [hs]), ih,
        statements_of_ok_nil (statement_of_declaresRegister hs l)]
    | false =>
      rw [List.filter_cons_of_pos (by simp [hs]), statements_cons, statements_cons]
      exact bind_congr fun ⟨l', here⟩ => by simp only [ih]

/-- **It does not matter where registers are declared**, as long as their order is kept. -/
theorem Program.toCircuit_declarationsFirst (p : Program) :
    p.declarationsFirst.toCircuit = p.toCircuit := by
  have first : Registers.ofStatements p.declarationsFirst.statements =
      Registers.ofStatements p.statements := by
    rw [Registers.ofStatements, ← foldlM_declare_filter, declarationsFirst, List.filter_append,
      List.filter_filter, List.filter_filter]
    simp only [Bool.and_self, Bool.and_not_self, List.filter_false, List.append_nil]
    exact foldlM_declare_filter p.statements .empty
  have second (l : Lowering) :
      l.statements p.declarationsFirst.statements = l.statements p.statements := by
    rw [← Lowering.statements_filter, declarationsFirst, List.filter_append,
      List.filter_filter, List.filter_filter]
    simp only [Bool.not_and_self, Bool.and_self, List.filter_false, List.nil_append]
    exact Lowering.statements_filter p.statements l
  simp only [toCircuit, first, second]

/-! ## The whole layout -/

namespace Program

theorem toCircuit_of_ofStatements_eq_error {p : Program} {e : ImportError}
    (h : Registers.ofStatements p.statements = .error e) : p.toCircuit = .error e := by
  rw [toCircuit, h]
  rfl

/-- The circuit has as many bits as the registers have elements. -/
theorem counts_of_toCircuit_eq_ok {p : Program} {rs : Registers} {c : Circuit}
    (hrs : Registers.ofStatements p.statements = .ok rs) (h : p.toCircuit = .ok c) :
    c.qubitCount.toNat = rs.qubitCount ∧ c.clbitCount.toNat = rs.clbitCount := by
  have lays := Registers.lays_of_ofStatements hrs
  obtain ⟨rs', hrs', h⟩ := bind_eq_ok.1 h
  rw [hrs] at hrs'
  cases hrs'
  obtain ⟨instructions, -, h⟩ := bind_eq_ok.1 h
  cases h
  exact ⟨toNat_toUInt32 lays.qubitCount_lt, toNat_toUInt32 lays.clbitCount_lt⟩

/-- **The registers of a program are numbered through.**  Where the declarations are accepted, the
registers of each kind take the numbers of the circuit's bits, in order and without gaps.  With
distinct names they are accepted exactly when the sizes fit, and otherwise the program is refused
for a size.  Where the declarations stand among the other statements does not matter, neither for
the circuit nor for the error. -/
theorem registers_numbered (p : Program) :
    (∀ rs, Registers.ofStatements p.statements = .ok rs →
      Numbered rs.quantum (quantumSizes p.statements) rs.qubitCount ∧
      Numbered rs.classical (classicalSizes p.statements) rs.clbitCount ∧
      ∀ c, p.toCircuit = .ok c →
        c.qubitCount.toNat = rs.qubitCount ∧ c.clbitCount.toNat = rs.clbitCount) ∧
    (((quantumSizes p.statements ++ classicalSizes p.statements).map Prod.fst).Nodup →
      ((∃ rs, Registers.ofStatements p.statements = .ok rs) ↔ SizesFit p.statements) ∧
      ((∃ position name size, Registers.ofStatements p.statements =
        .error (.invalidRegisterSize position name size)) ↔ ¬ SizesFit p.statements) ∧
      (¬ SizesFit p.statements → ∃ position name size,
        p.toCircuit = .error (.invalidRegisterSize position name size))) ∧
    p.declarationsFirst.toCircuit = p.toCircuit := by
  refine ⟨fun rs hrs => ?_, fun names => ?_, p.toCircuit_declarationsFirst⟩
  · obtain ⟨quantum, classical⟩ := (Registers.lays_of_ofStatements hrs).numbered
    exact ⟨quantum, classical, fun c hc => counts_of_toCircuit_eq_ok hrs hc⟩
  · rcases Registers.ofStatements_of_names names with
      ⟨fit, rs, hrs⟩ | ⟨unfit, position, name, size, herror⟩
    · simp [hrs, fit]
    · have hcircuit := toCircuit_of_ofStatements_eq_error herror
      simp [herror, unfit, hcircuit]

/-- A classical register and a statement stand between the quantum registers, the last of which is
used before it is declared. -/
def interleaved : Program where
  version := none
  statements := [⟨.qreg "q" 2, ⟨1, 1⟩⟩, ⟨.creg "c" 1, ⟨2, 1⟩⟩, ⟨.reset (.element "r" 0), ⟨3, 1⟩⟩,
    ⟨.qreg "r" 3, ⟨4, 1⟩⟩]

theorem registers_numbered_interleaved :
    interleaved.toCircuit = .ok ⟨5, 1, [.reset ⟨2⟩]⟩ ∧
      Numbered [("r", ⟨2, 3⟩), ("q", ⟨0, 2⟩)] [("q", 2), ("r", 3)] 5 ∧
      interleaved.declarationsFirst.toCircuit = .ok ⟨5, 1, [.reset ⟨2⟩]⟩ := by
  have hrs : Registers.ofStatements interleaved.statements =
      .ok ⟨[("r", ⟨2, 3⟩), ("q", ⟨0, 2⟩)], [("c", ⟨0, 1⟩)], 5, 1⟩ := rfl
  obtain ⟨laid, -, moved⟩ := registers_numbered interleaved
  exact ⟨rfl, (laid _ hrs).1, moved⟩

end Program

end FlatQasm
