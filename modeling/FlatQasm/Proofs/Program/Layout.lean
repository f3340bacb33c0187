import FlatQasm.Program.Registers
import FlatQasm.Proofs.Lookup
import FlatQasm.Proofs.Outcome

/-!
# The layout of registers

The first pass goes through the declarations in order.  What it knows behind some statements is
said with the declarations themselves: which registers there are and of which sizes, that each
stands right behind the one before it, and that their names are distinct.

## Main definitions

* `quantumSizes`, `classicalSizes` — the declared registers of each kind, with their sizes.
* `Contiguous` — registers without gaps between them.
* `Registers.Lays` — what the first pass knows behind some statements.

## Main statements

* `Registers.lays_of_ofStatements` — the first pass lays out what is declared.
* `Registers.exists_of_ofStatements_eq_error` — the declaration that cannot be laid out.
* `Registers.bitAt_lt`, `Registers.bits_lt` — every bit that an operand stands for has an index
  below the count.
-/

namespace FlatQasm

/-- The quantum register that a statement declares, with its size. -/
def Statement.quantumRegister? (s : Statement) : Option (String × Nat) :=
  match s.kind with
  | .qreg name size => some (name, size.toNat)
  | _ => none

/-- The classical register that a statement declares, with its size. -/
def Statement.classicalRegister? (s : Statement) : Option (String × Nat) :=
  match s.kind with
  | .creg name size => some (name, size.toNat)
  | _ => none

/-- The declared quantum registers with their sizes, in order. -/
def quantumSizes (statements : List Statement) : List (String × Nat) :=
  statements.filterMap Statement.quantumRegister?

/-- The declared classical registers with their sizes, in order. -/
def classicalSizes (statements : List Statement) : List (String × Nat) :=
  statements.filterMap Statement.classicalRegister?

/-- Registers from the last to the first that fill the bits below `used` without gaps. -/
def Contiguous : List (String × Register) → (used : Nat) → Prop
  | [], used => used = 0
  | (_, r) :: rest, used => 0 < r.size ∧ r.offset + r.size = used ∧ Contiguous rest r.offset

theorem Contiguous.le {registers : List (String × Register)} {used : Nat}
    (h : Contiguous registers used) {name : String} {r : Register} (hr : (name, r) ∈ registers) :
    0 < r.size ∧ r.offset + r.size ≤ used := by
  induction registers generalizing used with
  | nil => cases hr
  | cons first rest ih =>
    obtain ⟨hpos, hend, hrest⟩ := h
    rcases List.mem_cons.1 hr with rfl | hr
    · exact ⟨hpos, Nat.le_of_eq hend⟩
    · obtain ⟨hpos', hle⟩ := ih hrest hr
      exact ⟨hpos', by omega⟩

theorem map_fst_of_sizes {registers : List (String × Register)} {sizes : List (String × Nat)}
    (hsizes : registers.map (fun r => (r.1, r.2.size)) = sizes.reverse) :
    registers.map Prod.fst = (sizes.map Prod.fst).reverse := by
  rw [← List.map_reverse, ← hsizes, List.map_map]
  rfl

namespace Registers

/-- What the first pass knows behind some statements. -/
structure Lays (rs : Registers) (statements : List Statement) : Prop where
  quantum : rs.quantum.map (fun r => (r.1, r.2.size)) = (quantumSizes statements).reverse
  classical : rs.classical.map (fun r => (r.1, r.2.size)) = (classicalSizes statements).reverse
  names : ((quantumSizes statements ++ classicalSizes statements).map Prod.fst).Nodup
  qubits : Contiguous rs.quantum rs.qubitCount
  clbits : Contiguous rs.classical rs.clbitCount
  qubitCount : rs.qubitCount = ((quantumSizes statements).map Prod.snd).sum
  clbitCount : rs.clbitCount = ((classicalSizes statements).map Prod.snd).sum
  qubitCount_lt : rs.qubitCount < UInt32.size
  clbitCount_lt : rs.clbitCount < UInt32.size

theorem lays_empty : empty.Lays [] where
  quantum := rfl
  classical := rfl
  names := .nil
  qubits := rfl
  clbits := rfl
  qubitCount := rfl
  clbitCount := rfl
  qubitCount_lt := by decide
  clbitCount_lt := by decide

theorem check_eq_ok {rs : Registers} {p : Position} {name : String} {size : UInt32} {used : Nat} :
    rs.check p name size used = .ok () ↔
      rs.contains name = false ∧ 0 < size.toNat ∧ used + size.toNat < UInt32.size := by
  simp only [check]
  split
  · simp_all
  · split <;> simp_all <;> omega

theorem check_eq_error {rs : Registers} {p : Position} {name : String} {size : UInt32} {used : Nat}
    {e : ImportError} (h : rs.check p name size used = .error e) :
    rs.contains name = true ∨
      (size.toNat = 0 ∨ UInt32.size ≤ used + size.toNat) ∧
        e = .invalidRegisterSize p name size.toNat := by
  simp only [check] at h
  split at h
  · next hcontains => exact .inl hcontains
  · split at h
    · next hsize =>
      cases h
      exact .inr ⟨hsize, rfl⟩
    · cases h

/-- The names that are taken are those of declared registers. -/
theorem Lays.contains_eq {rs : Registers} {statements : List Statement} (h : rs.Lays statements)
    (name : String) : rs.contains name = true ↔
      name ∈ (quantumSizes statements ++ classicalSizes statements).map Prod.fst := by
  have found (registers : List (String × Register)) :
      (registers.lookup name).isSome = true ↔ name ∈ registers.map Prod.fst := by
    rw [Option.isSome_iff_ne_none, ne_eq, lookup_eq_none_iff_notMem, not_not]
  rw [contains, Bool.or_eq_true, found, found, map_fst_of_sizes h.quantum,
    map_fst_of_sizes h.classical, List.map_append, List.mem_append, List.mem_reverse,
    List.mem_reverse]

theorem ofStatements_concat (statements : List Statement) (s : Statement) :
    ofStatements (statements ++ [s]) = ofStatements statements >>= fun rs => rs.declare s := by
  simp [ofStatements, List.foldlM_append]

theorem quantumSizes_split (before after : List Statement) (s : Statement) :
    quantumSizes (before ++ s :: after) =
      quantumSizes before ++ (s.quantumRegister?.toList ++ quantumSizes after) := by
  rw [quantumSizes, List.filterMap_append, List.filterMap_cons]
  cases s.quantumRegister? <;> rfl

theorem classicalSizes_split (before after : List Statement) (s : Statement) :
    classicalSizes (before ++ s :: after) =
      classicalSizes before ++ (s.classicalRegister?.toList ++ classicalSizes after) := by
  rw [classicalSizes, List.filterMap_append, List.filterMap_cons]
  cases s.classicalRegister? <;> rfl

theorem quantumSizes_concat (statements : List Statement) (s : Statement) :
    quantumSizes (statements ++ [s]) =
      quantumSizes statements ++ s.quantumRegister?.toList := by
  rw [quantumSizes_split]
  exact congrArg (quantumSizes statements ++ ·) (List.append_nil _)

theorem classicalSizes_concat (statements : List Statement) (s : Statement) :
    classicalSizes (statements ++ [s]) =
      classicalSizes statements ++ s.classicalRegister?.toList := by
  rw [classicalSizes_split]
  exact congrArg (classicalSizes statements ++ ·) (List.append_nil _)

/-- A quantum register that passes its check is laid out behind the others. -/
theorem Lays.concat_qreg {rs : Registers} {statements : List Statement} (h : rs.Lays statements)
    {s : Statement} {name : String} {size : UInt32} (hkind : s.kind = .qreg name size)
    (hcheck : rs.check s.position name size rs.qubitCount = .ok ()) :
    Lays { rs with
      quantum := (name, ⟨rs.qubitCount, size.toNat⟩) :: rs.quantum
      qubitCount := rs.qubitCount + size.toNat } (statements ++ [s]) := by
  obtain ⟨hnew, hpos, hlt⟩ := check_eq_ok.1 hcheck
  rw [← Bool.not_eq_true, h.contains_eq] at hnew
  have hq : quantumSizes (statements ++ [s]) = quantumSizes statements ++ [(name, size.toNat)] := by
    rw [quantumSizes_concat, Statement.quantumRegister?, hkind]
    rfl
  have hc : classicalSizes (statements ++ [s]) = classicalSizes statements := by
    rw [classicalSizes_concat, Statement.classicalRegister?, hkind]
    exact List.append_nil _
  refine ⟨?_, ?_, ?_, ⟨hpos, rfl, h.qubits⟩, h.clbits, ?_, ?_, hlt, h.clbitCount_lt⟩
  · rw [hq, List.reverse_concat, List.map_cons, h.quantum]
  · rw [hc, h.classical]
  · rw [hq, hc, List.append_assoc, List.singleton_append, List.map_append, List.map_cons,
      List.nodup_middle, ← List.map_append]
    exact List.nodup_cons.2 ⟨hnew, h.names⟩
  · rw [hq, List.map_append, List.sum_append, ← h.qubitCount]
    simp
  · rw [hc, h.clbitCount]

/-- A classical register that passes its check is laid out behind the others. -/
theorem Lays.concat_creg {rs : Registers} {statements : List Statement} (h : rs.Lays statements)
    {s : Statement} {name : String} {size : UInt32} (hkind : s.kind = .creg name size)
    (hcheck : rs.check s.position name size rs.clbitCount = .ok ()) :
    Lays { rs with
      classical := (name, ⟨rs.clbitCount, size.toNat⟩) :: rs.classical
      clbitCount := rs.clbitCount + size.toNat } (statements ++ [s]) := by
  obtain ⟨hnew, hpos, hlt⟩ := check_eq_ok.1 hcheck
  rw [← Bool.not_eq_true, h.contains_eq] at hnew
  have hq : quantumSizes (statements ++ [s]) = quantumSizes statements := by
    rw [quantumSizes_concat, Statement.quantumRegister?, hkind]
    exact List.append_nil _
  have hc : classicalSizes (statements ++ [s]) =
      classicalSizes statements ++ [(name, size.toNat)] := by
    rw [classicalSizes_concat, Statement.classicalRegister?, hkind]
    rfl
  refine ⟨?_, ?_, ?_, h.qubits, ⟨hpos, rfl, h.clbits⟩, ?_, ?_, h.qubitCount_lt, hlt⟩
  · rw [hq, h.quantum]
  · rw [hc, List.reverse_concat, List.map_cons, h.classical]
  · rw [hq, hc, ← List.append_assoc, List.map_append, List.map_singleton, List.nodup_append_comm]
    exact List.nodup_cons.2 ⟨hnew, h.names⟩
  · rw [hq, h.qubitCount]
  · rw [hc, List.map_append, List.sum_append, ← h.clbitCount]
    simp

/-- A statement that declares no register leaves the others where they are. -/
theorem Lays.concat_other {rs : Registers} {statements : List Statement} (h : rs.Lays statements)
    {s : Statement} (hquantum : s.quantumRegister? = none)
    (hclassical : s.classicalRegister? = none) : rs.Lays (statements ++ [s]) := by
  have hq : quantumSizes (statements ++ [s]) = quantumSizes statements := by
    rw [quantumSizes_concat, hquantum]
    exact List.append_nil _
  have hc : classicalSizes (statements ++ [s]) = classicalSizes statements := by
    rw [classicalSizes_concat, hclassical]
    exact List.append_nil _
  refine ⟨?_, ?_, ?_, h.qubits, h.clbits, ?_, ?_, h.qubitCount_lt, h.clbitCount_lt⟩
  · rw [hq, h.quantum]
  · rw [hc, h.classical]
  · rw [hq, hc]
    exact h.names
  · rw [hq, h.qubitCount]
  · rw [hc, h.clbitCount]

/-- A declaration that is accepted keeps the registers laid out. -/
theorem Lays.declare {rs rs' : Registers} {statements : List Statement} (h : rs.Lays statements)
    {s : Statement} (hs : rs.declare s = .ok rs') : rs'.Lays (statements ++ [s]) := by
  simp only [Registers.declare] at hs
  split at hs
  · next name size hkind =>
    obtain ⟨⟨⟩, hcheck, hs⟩ := bind_eq_ok.1 hs
    cases hs
    exact h.concat_qreg hkind hcheck
  · next name size hkind =>
    obtain ⟨⟨⟩, hcheck, hs⟩ := bind_eq_ok.1 hs
    cases hs
    exact h.concat_creg hkind hcheck
  · next hqreg hcreg =>
    cases hs
    refine h.concat_other ?_ ?_
    · rw [Statement.quantumRegister?]
      split
      · next name size hkind => exact absurd hkind (hqreg name size)
      · rfl
    · rw [Statement.classicalRegister?]
      split
      · next name size hkind => exact absurd hkind (hcreg name size)
      · rfl

/-- The first pass lays out what is declared. -/
theorem lays_of_ofStatements {statements : List Statement} {rs : Registers}
    (h : ofStatements statements = .ok rs) : rs.Lays statements := by
  induction statements using List.reverseRecOn generalizing rs with
  | nil =>
    cases h
    exact lays_empty
  | append_singleton statements s ih =>
    rw [ofStatements_concat, bind_eq_ok] at h
    obtain ⟨before, hbefore, hs⟩ := h
    exact (ih hbefore).declare hs

/-- An error of the first pass is the error of one declaration, behind those before it. -/
theorem exists_of_ofStatements_eq_error {statements : List Statement} {e : ImportError}
    (h : ofStatements statements = .error e) :
    ∃ before s after rs, statements = before ++ s :: after ∧ ofStatements before = .ok rs ∧
      rs.declare s = .error e := by
  induction statements using List.reverseRecOn with
  | nil => cases h
  | append_singleton statements s ih =>
    rw [ofStatements_concat, bind_eq_error] at h
    rcases h with h | ⟨rs, hrs, h⟩
    · obtain ⟨before, s', after, rs, rfl, hrs, hs⟩ := ih h
      refine ⟨before, s', after ++ [s], rs, ?_, hrs, hs⟩
      rw [List.append_assoc, List.cons_append]
    · exact ⟨statements, s, [], rs, rfl, hrs, h⟩

/-! ## Indices -/

end Registers

theorem toNat_toUInt32 {a : Nat} (ha : a < UInt32.size) : a.toUInt32.toNat = a := by
  rw [Nat.toUInt32_eq, UInt32.toNat_ofNat', Nat.mod_eq_of_lt ha]

theorem toUInt32_lt {a b : Nat} (h : a < b) (hb : b < UInt32.size) : a.toUInt32 < b.toUInt32 := by
  rwa [UInt32.lt_iff_toNat_lt, toNat_toUInt32 hb, toNat_toUInt32 (Nat.lt_trans h hb)]

theorem toUInt32_inj {a b : Nat} (ha : a < UInt32.size) (hb : b < UInt32.size)
    (h : a.toUInt32 = b.toUInt32) : a = b := by
  have htoNat := congrArg UInt32.toNat h
  rwa [toNat_toUInt32 ha, toNat_toUInt32 hb] at htoNat

namespace Registers

/-! ## Operands -/

/-- A quantum register is found with the size that it was declared with. -/
theorem Lays.lookup_quantum {rs : Registers} {statements : List Statement}
    (h : rs.Lays statements) (name : String) :
    (quantumSizes statements).lookup name = (rs.quantum.lookup name).map Register.size := by
  have nodup : ((quantumSizes statements).map Prod.fst).Nodup := by
    have names := h.names
    rw [List.map_append] at names
    exact names.of_append_left
  rw [← lookup_reverse nodup, ← h.quantum, lookup_map_snd]

theorem resolve_eq_ok {registers : List (String × Register)} {p : Position} {operand : Operand}
    {resolved : Resolved} : resolve registers p operand = .ok resolved ↔
      (∃ name r, operand = .register name ∧ registers.lookup name = some r ∧
        resolved = .whole r) ∨
      ∃ name index r, operand = .element name index ∧ registers.lookup name = some r ∧
        index.toNat < r.size ∧ resolved = .bit (r.offset + index.toNat) := by
  simp only [resolve]
  cases operand with
  | register name =>
    cases hlookup : registers.lookup name <;> simp [Operand.name, hlookup, eq_comm (a := resolved)]
  | element name index =>
    cases hlookup : registers.lookup name with
    | none => simp [Operand.name, hlookup]
    | some r =>
      by_cases hindex : index.toNat < r.size <;>
        simp [Operand.name, hlookup, hindex, eq_comm (a := resolved)]

/-- A register that is laid out is declared with its size. -/
theorem mem_sizes_of_lookup {registers : List (String × Register)} {sizes : List (String × Nat)}
    (hsizes : registers.map (fun r => (r.1, r.2.size)) = sizes.reverse) {name : String}
    {r : Register} (h : registers.lookup name = some r) : (name, r.size) ∈ sizes := by
  rw [← List.mem_reverse, ← hsizes]
  exact List.mem_map.2 ⟨(name, r), mem_of_lookup_eq_some h, rfl⟩

/-- An operand stands for nothing when its register is not declared, or is too short. -/
theorem exists_of_resolve_eq_error {registers : List (String × Register)}
    {sizes : List (String × Nat)}
    (hsizes : registers.map (fun r => (r.1, r.2.size)) = sizes.reverse) {p : Position}
    {operand : Operand} {e : ImportError} (h : resolve registers p operand = .error e) :
    (operand.name ∉ sizes.map Prod.fst ∧ e = .unresolvedRegister p operand.name) ∨
      ∃ name index size, operand = .element name index ∧ (name, size) ∈ sizes ∧
        size ≤ index.toNat ∧ e = .indexOutOfRange p name index.toNat size := by
  simp only [resolve] at h
  split at h
  · next hnone =>
    cases h
    refine .inl ⟨?_, rfl⟩
    rw [lookup_eq_none_iff_notMem, map_fst_of_sizes hsizes, List.mem_reverse] at hnone
    exact hnone
  · next r hsome =>
    split at h
    · cases h
    · next name index =>
      split at h
      · cases h
      · next hindex =>
        cases h
        exact .inr ⟨name, index, r.size, rfl, mem_sizes_of_lookup hsizes hsome,
          Nat.le_of_not_lt hindex, rfl⟩

/-- An operand with a size is a register that is declared with this size. -/
theorem exists_of_size?_eq_some {registers : List (String × Register)}
    {sizes : List (String × Nat)}
    (hsizes : registers.map (fun r => (r.1, r.2.size)) = sizes.reverse) {p : Position}
    {operand : Operand} {resolved : Resolved} (h : resolve registers p operand = .ok resolved)
    {size : Nat} (hsize : resolved.size? = some size) :
    ∃ name, operand = .register name ∧ (name, size) ∈ sizes := by
  rcases resolve_eq_ok.1 h with ⟨name, r, rfl, hlookup, rfl⟩ | ⟨_, _, _, -, -, -, rfl⟩
  · cases hsize
    exact ⟨name, rfl, mem_sizes_of_lookup hsizes hlookup⟩
  · cases hsize

/-- A register that is laid out begins and ends within the count. -/
theorem le_of_lookup_eq_some {registers : List (String × Register)} {used : Nat}
    (h : Contiguous registers used) {name : String} {r : Register}
    (hr : registers.lookup name = some r) : 0 < r.size ∧ r.offset + r.size ≤ used :=
  h.le (mem_of_lookup_eq_some hr)

/-- Every bit that an operand stands for has an index below the count. -/
theorem bitAt_lt {registers : List (String × Register)} {used : Nat}
    (h : Contiguous registers used) {p : Position} {operand : Operand} {resolved : Resolved}
    (hr : resolve registers p operand = .ok resolved) {i : Nat}
    (hi : ∀ size, resolved.size? = some size → i < size) : resolved.bitAt i < used := by
  rcases resolve_eq_ok.1 hr with ⟨name, r, -, hlookup, rfl⟩ | ⟨name, index, r, -, hlookup, hlt, rfl⟩
  · obtain ⟨-, hle⟩ := le_of_lookup_eq_some h hlookup
    have hi : i < r.size := hi r.size rfl
    rw [Resolved.bitAt]
    omega
  · obtain ⟨-, hle⟩ := le_of_lookup_eq_some h hlookup
    rw [Resolved.bitAt]
    omega

/-- An operand stands for at least one bit, and each has an index below the count. -/
theorem bits_lt {registers : List (String × Register)} {used : Nat}
    (h : Contiguous registers used) {p : Position} {operand : Operand} {resolved : Resolved}
    (hr : resolve registers p operand = .ok resolved) :
    resolved.bits ≠ [] ∧ ∀ bit ∈ resolved.bits, bit < used := by
  rcases resolve_eq_ok.1 hr with ⟨name, r, -, hlookup, rfl⟩ | ⟨name, index, r, -, hlookup, hlt, rfl⟩
  · obtain ⟨hpos, hle⟩ := le_of_lookup_eq_some h hlookup
    refine ⟨?_, fun bit hbit => ?_⟩
    · rw [Resolved.bits, ne_eq, List.map_eq_nil_iff, List.range_eq_nil]
      omega
    · obtain ⟨i, hi, rfl⟩ := List.mem_map.1 hbit
      rw [List.mem_range] at hi
      omega
  · obtain ⟨-, hle⟩ := le_of_lookup_eq_some h hlookup
    refine ⟨List.cons_ne_nil _ _, fun bit hbit => ?_⟩
    rw [Resolved.bits, List.mem_singleton] at hbit
    omega

end Registers

end FlatQasm
