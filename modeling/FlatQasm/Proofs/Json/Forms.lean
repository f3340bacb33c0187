import FlatQasm.Command.Run
import FlatQasm.Proofs.Json.Derived
import FlatQasm.Proofs.Json.Text

/-!
# JSON as a format for exchanged data

The JSON that is read and written here is a lawful format, and its codecs are those that the
declarations of the types call for.  The reader of numbers is left open: it is the only thing that
rounding has to do with.

## Main definitions

* `Json.format` — JSON as a text format.
* `Json.forms` — the codecs of the exchanged types, with numbers read in a given way.
* `Json.nearestFloat?` — numbers read with correct rounding.

## Main statements

* `Json.lawful_format` — written text is read back.
* `Json.derived_forms` — the codecs are those that are derived from the declarations.
* `Json.keepsFloats_nearest` — correct rounding keeps finite numbers.
-/

namespace FlatQasm

open Json

namespace Json

/-! ## The format -/

/-- JSON as a text format. -/
abbrev format : TextFormat where
  Data := Json
  string := ofString
  array := .array
  object := record
  Written := Lexical
  print
    | .compact, value => value.compact
    | .pretty level, value => String.ofList (prettyChars level value)
  parse? := parse?
  limit := levels

theorem escapeChar_of_isAlpha {c : Char} (h : c.isAlpha = true) : escapeChar c = [c] := by
  have hne (sign : Char) (hsign : sign.isAlpha = false) : c ≠ sign := by
    rintro rfl
    rw [hsign] at h
    cases h
  have hprintable : ¬ c.toNat < 0x20 := by
    simp only [Char.isAlpha, Char.isUpper, Char.isLower, Bool.or_eq_true, Bool.and_eq_true,
      decide_eq_true_eq, ge_iff_le, UInt32.le_iff_toNat_le] at h
    have h41 : 0x41 ≤ c.val.toNat := by
      rcases h with h | h
      · exact h.1
      · exact le_trans (by decide) h.1
    exact Nat.not_lt.2 (le_trans (by decide) h41)
  simp [escapeChar, hne, hprintable]
theorem escape_of_all_isAlpha {text : List Char} (h : text.all Char.isAlpha = true) :
    escape text = text := by
  induction text with
  | nil => rfl
  | cons c rest ih =>
    rw [List.all_cons, Bool.and_eq_true] at h
    rw [escape, List.flatMap_cons, escapeChar_of_isAlpha h.1]
    exact congrArg (c :: ·) (ih h.2)

/-- **JSON is a lawful format.** -/
theorem lawful_format : format.Lawful where
  written_string := lexical_ofString
  written_array := fun h => .array h
  written_object := fun h => lexical_record h
  parse?_print := by
    intro layout value h
    cases layout with
    | compact => exact Lexical.parse?_compact h
    | pretty level => exact Lexical.parse?_prettyChars h level
  print_object := by
    intro members key value hkey
    obtain ⟨front, hfront⟩ := exists_prettyChars_concat
      (members.map fun m => (escape m.1.toList, m.2)) (key.toList, value)
    refine ⟨String.ofList front, String.toList_inj.1 ?_⟩
    have hobject : record (members ++ [(key, value)]) =
        .object ((members.map fun m => (escape m.1.toList, m.2)) ++ [(key.toList, value)]) := by
      simp [record, escape_of_all_isAlpha hkey]
    simp only [hobject, hfront, String.toList_ofList]
    simp [quoted]

/-! ## Strings and numbers -/

@[simp] theorem string?_ofString (text : String) : (ofString text).string? = some text := by
  simp [ofString, string?]

@[simp] theorem nat?_ofNat (bound n : ℕ) :
    (ofNat n).nat? bound = if n < bound then some n else none := by
  have hdigits : (Nat.toDigits 10 n).all Char.isDigit = true :=
    List.all_eq_true.2 (isDigits_toDigits n).isDigit
  simp [ofNat, nat?, hdigits, Decimal.digitsValue_toDigits]

@[simp] theorem word32?_ofWord (n : UInt32) : word32? (ofWord n) = some n := by
  rw [word32?, ofWord, nat?_ofNat, if_pos n.toNat_lt_size]
  simp

/-! ## Shapes -/

theorem record_eq (members : List (String × Json)) :
    record members = .object (members.map fun m => (escape m.1.toList, m.2)) :=
  rfl

/-- What is written under a key is found under it. -/
theorem atMostOnce?_record {members : List (String × Json)} (h : (members.map Prod.fst).Nodup)
    (name : String) :
    atMostOnce? name (members.map fun m => (escape m.1.toList, m.2)) =
      some (members.lookup name) := by
  induction members with
  | nil => rfl
  | cons member rest ih =>
    obtain ⟨key, value⟩ := member
    rw [List.map_cons, List.nodup_cons] at h
    obtain ⟨hkey, hrest⟩ := h
    have ih := ih hrest
    unfold atMostOnce? at ih ⊢
    by_cases hname : name = key
    · subst hname
      rw [List.map_cons, List.filter_cons_of_pos (by simp), List.filter_eq_nil_iff.2,
        List.lookup_cons_self]
      -- No other member has the same key.
      intro m hm
      obtain ⟨other, hother, rfl⟩ := List.mem_map.1 hm
      simp only [unescape?_escape, beq_iff_eq, Option.some.injEq, String.toList_inj]
      rintro rfl
      exact hkey (List.mem_map.2 ⟨_, hother, rfl⟩)
    · have hwritten : key.toList ≠ name.toList := fun h => hname (String.toList_inj.1 h).symm
      rw [List.map_cons, List.filter_cons_of_neg (by simpa using hwritten), ih,
        List.lookup_cons, beq_false_of_ne hname]

/-- The fields of a structure, with one level less inside. -/
theorem fields?_record (names : List String) {members : List (String × Json)}
    (h : (members.map Prod.fst).Nodup) (depth : ℕ) :
    fields? names (depth + 1) (record members) =
      some (depth, names.map fun name => members.lookup name) := by
  have hfields : (names.mapM fun name =>
      atMostOnce? name (members.map fun m => (escape m.1.toList, m.2))) =
      some (names.map fun name => members.lookup name) :=
    mapM_eq_some.2 (List.forall₂_map_right_iff.2
      (List.forall₂_same.2 fun name _ => atMostOnce?_record h name))
  rw [record_eq, fields?, if_pos (by simp), hfields, Option.map_some]

/-- The name of a case without content is read at any level. -/
@[simp] theorem case?_ofString (name : String) (depth : ℕ) :
    case? depth (ofString name) = some (name, none) := by
  simp [ofString, case?]

@[simp] theorem case?_caseOf_zero (name : String) (content : Json) :
    case? 0 (caseOf name content) = none :=
  rfl

@[simp] theorem case?_caseOf_succ (name : String) (content : Json) (depth : ℕ) :
    case? (depth + 1) (caseOf name content) = some (name, some (depth, content)) := by
  simp [caseOf, record, case?]

end Json

/-! ## Cases -/

namespace Angle

variable (number? : Json → Option Float)

/-- An operation is read from two levels, with its operands inside. -/
theorem read?_operation (op : ArithOp) (depth : ℕ) (a b : Json) :
    read? number? (depth + 2) (caseOf op.caseName (.array [a, b])) =
      (do some (binary op (← read? number? depth a) (← read? number? depth b))) := by
  conv_lhs => unfold read?
  cases op <;> simp [caseOf, record, ArithOp.caseName, ArithOp.ofCaseName?]

theorem read?_operation_one (op : ArithOp) (content : Json) :
    read? number? 1 (caseOf op.caseName content) = none := by
  unfold read?
  cases op <;> simp [caseOf, record, ArithOp.caseName, ArithOp.ofCaseName?]

end Angle

theorem GateKind.find?_label (kind : GateKind) :
    (GateKind.all.find? fun other => other.label == kind.label) = some kind := by
  rcases kind with gate | axis
  · cases gate <;> rfl
  · cases axis <;> rfl

theorem Controls.find?_caseName (controls : Controls) :
    (Controls.all.find? fun other => other.caseName == controls.caseName) = some controls := by
  cases controls <;> rfl

/-- The form of an angle is not `null`. -/
theorem nullable?_toJson {α : Type} (content : Json → Option α) (e : Angle) :
    nullable? content e.toJson = (content e.toJson).map some := by
  cases e <;> rfl


namespace Json

/-! ## The codecs -/

/-- The codecs of the exchanged types, with numbers read in a given way. -/
def forms (number? : Json → Option Float) : Forms format where
  word := ⟨ofWord, fun _ => word32?⟩
  text := ⟨ofString, fun _ => string?⟩
  float := ⟨ofFloat, fun _ => number?⟩
  list C := ⟨fun values => .array (values.map C.write), elements? C.read?⟩
  angle := ⟨Angle.toJson, Angle.read? number?⟩
  operands :=
    { write := fun m => .array [m.1.toJson, m.2.toJson]
      read? := fun
        | depth + 1, .array [a, b] => do
          some (← Angle.read? number? depth a, ← Angle.read? number? depth b)
        | _, _ => none }
  baseGate := ⟨BaseGate.toJson, BaseGate.read? number?⟩
  controls := ⟨fun controls => ofString controls.caseName, Controls.ofJson?⟩
  gate := ⟨Gate.toJson, Gate.read? number?⟩
  operation := ⟨Operation.toJson, Operation.read? number?⟩
  qubit := ⟨Qubit.toJson, fun _ => Qubit.ofJson?⟩
  clbit := ⟨Clbit.toJson, fun _ => Clbit.ofJson?⟩
  instruction := ⟨Instruction.toJson, Instruction.read? number?⟩
  circuit := ⟨Circuit.toJson, Circuit.read? number?⟩
  record := ⟨GateRecord.toJson, GateRecord.read? number?⟩
  count := ofNat
  report := CircuitReport.toJson

variable {α : Type} {C : Codec format α} {a : α}

/-- A list is read element by element. -/
theorem isArray_list (number? : Json → Option Float) (C : Codec format α) (values : List α) :
    ((forms number?).list C).IsArray values (values.map fun value => ⟨C, value⟩) where
  write := by
    rw [List.map_map]
    rfl
  read := by
    intro depth h
    refine mapM_eq_some.2 ?_
    rw [List.forall₂_map_left_iff, List.forall₂_same]
    intro value hvalue
    exact h ⟨C, value⟩ (List.mem_map_of_mem hvalue)
  refused := by
    intro depth h
    obtain ⟨part, hpart, hnone⟩ := h
    obtain ⟨value, hvalue, rfl⟩ := List.mem_map.1 hpart
    refine Option.eq_none_iff_forall_ne_some.2 fun results hsome => ?_
    have hall := mapM_eq_some.1 hsome
    rw [List.forall₂_map_left_iff] at hall
    obtain ⟨result, -, hresult⟩ := exists_mem_of_forall₂ hall.flip hvalue
    have hsome : C.read? depth (C.write value) = some result := hresult
    rw [hnone] at hsome
    cases hsome
  refused_zero := rfl

/-- A case with content. -/
theorem isObject_case {name : String} {content : Codec.Part format}
    (build : content.Value → α)
    (write : C.write a = caseOf name (content.codec.write content.value))
    (zero : C.read? 0 (caseOf name (content.codec.write content.value)) = none)
    (succ : ∀ depth, C.read? (depth + 1) (caseOf name (content.codec.write content.value)) =
      (content.codec.read? depth (content.codec.write content.value)).map build)
    (hbuild : build content.value = a) : C.IsObject a [(name, content)] where
  write := write
  read := by
    intro depth h
    rw [write, succ, h content (List.mem_singleton_self content), Option.map_some, hbuild]
  refused := by
    intro depth h
    obtain ⟨part, hpart, hnone⟩ := h
    cases List.mem_singleton.1 hpart
    rw [write, succ, hnone, Option.map_none]
  refused_zero := by rw [write, zero]

/-- A structure, read field by field. -/
theorem isObject_record {parts : List (String × Codec.Part format)} {names : List String}
    (fields : List (Option Json)) {inside : ℕ × List (Option Json) → Option α}
    (hread : ∀ depth form, C.read? depth form = fields? names depth form >>= inside)
    (write : C.write a = record (parts.map fun part => (part.1, part.2.codec.write part.2.value)))
    (nodup : (parts.map Prod.fst).Nodup)
    (hfields : (names.map fun name =>
      (parts.map fun part => (part.1, part.2.codec.write part.2.value)).lookup name) = fields)
    (read : ∀ depth, (∀ part ∈ parts.map Prod.snd,
      part.codec.read? depth (part.codec.write part.value) = some part.value) →
      inside (depth, fields) = some a)
    (refused : ∀ depth, (∃ part ∈ parts.map Prod.snd,
      part.codec.read? depth (part.codec.write part.value) = none) →
      inside (depth, fields) = none) : C.IsObject a parts := by
  have hinside (depth : ℕ) : C.read? (depth + 1) (C.write a) = inside (depth, fields) := by
    rw [hread, write, fields?_record names (by rwa [List.map_map]), hfields]
    rfl
  exact
    { write := write
      read := fun depth h => (hinside depth).trans (read depth h)
      refused := fun depth h => (hinside depth).trans (refused depth h)
      refused_zero := by rw [hread, write]; rfl }

section Declarations

variable (number? : Json → Option Float)

theorem isObject_binary (op : ArithOp) (x y : Angle) :
    (forms number?).angle.IsObject (.binary op x y)
      [(op.caseName, ⟨(forms number?).operands, (x, y)⟩)] := by
  refine isObject_case (fun m => .binary op m.1 m.2) rfl rfl (fun depth => ?_) rfl
  cases depth with
  | zero => exact Angle.read?_operation_one number? op _
  | succ depth =>
    refine (Angle.read?_operation number? op depth _ _).trans ?_
    simp only [forms]
    cases Angle.read? number? depth x.toJson with
    | none => rfl
    | some x => cases Angle.read? number? depth y.toJson <;> rfl

theorem isArray_operands (x y : Angle) :
    (forms number?).operands.IsArray (x, y)
      [⟨(forms number?).angle, x⟩, ⟨(forms number?).angle, y⟩] where
  write := rfl
  read := by
    intro depth h
    simp only [List.forall_mem_cons] at h
    simp only [forms] at h ⊢
    simp [h.1, h.2.1]
  refused := by
    intro depth h
    simp only [List.exists_mem_cons_iff] at h
    simp only [forms] at h ⊢
    rcases h with h | h | h
    · simp [h]
    · simp [h]
    · simp at h
  refused_zero := rfl

theorem isObject_rotation (axis : Axis) (e : Angle) :
    (forms number?).baseGate.IsObject (.rotation axis e)
      [((GateKind.rotation axis).label, ⟨(forms number?).angle, e⟩)] := by
  refine isObject_case (BaseGate.rotation axis) rfl ?_ (fun depth => ?_) rfl
  · simp [forms, BaseGate.read?]
  · simp only [forms, BaseGate.read?, case?_caseOf_succ]
    simp [GateKind.find?_label]

theorem isObject_gate (g : Gate) :
    (forms number?).gate.IsObject g [("kind", ⟨(forms number?).baseGate, g.base⟩),
      ("controls", ⟨(forms number?).controls, g.controls⟩)] := by
  refine isObject_record [some g.base.toJson, some (.ofString g.controls.caseName)]
    (fun _ _ => rfl) rfl (by simp) rfl (fun depth h => ?_) (fun depth h => ?_)
  · simp only [List.map_cons, List.forall_mem_cons, forms] at h
    simp [h.1, h.2.1]
  · simp only [List.map_cons, List.exists_mem_cons_iff, forms] at h
    rcases h with h | h | h
    · simp [h]
    · simp [h]
    · simp at h

theorem isObject_instruction (i : Instruction) :
    (forms number?).instruction.IsObject i [("kind", ⟨(forms number?).operation, i.operation⟩),
      ("qubits", ⟨(forms number?).list (forms number?).qubit, i.qubits⟩),
      ("clbits", ⟨(forms number?).list (forms number?).clbit, i.clbits⟩)] := by
  refine isObject_record [some i.operation.toJson, some (.array (i.qubits.map Qubit.toJson)),
    some (.array (i.clbits.map Clbit.toJson))] (fun _ _ => rfl) rfl (by simp) rfl
    (fun depth h => ?_) (fun depth h => ?_)
  · simp only [List.map_cons, List.forall_mem_cons, forms] at h
    simp [h.1, h.2.1, h.2.2.1]
  · simp only [List.map_cons, List.exists_mem_cons_iff, forms] at h
    rcases h with h | h | h | h
    · simp [h]
    · simp [h]
    · simp [h]
    · simp at h

theorem isObject_circuit (c : Circuit) :
    (forms number?).circuit.IsObject c [("num_qubits", ⟨(forms number?).word, c.qubitCount⟩),
      ("num_clbits", ⟨(forms number?).word, c.clbitCount⟩),
      ("instructions", ⟨(forms number?).list (forms number?).instruction, c.instructions⟩)] := by
  refine isObject_record [some (ofWord c.qubitCount), some (ofWord c.clbitCount),
    some (.array (c.instructions.map Instruction.toJson))] (fun _ _ => rfl) rfl (by simp) rfl
    (fun depth h => ?_) (fun depth h => ?_)
  · simp only [List.map_cons, List.forall_mem_cons, forms] at h
    simp [h.2.2.1]
  · simp only [List.map_cons, List.exists_mem_cons_iff, forms] at h
    -- The two numbers are always read.
    rcases h with h | h | h | h
    · simp at h
    · simp at h
    · simp [h]
    · simp at h

theorem isObject_gateRecord (r : GateRecord) :
    (forms number?).record.IsObject r ([("kind", ⟨(forms number?).text, r.tag⟩),
      ("operands", ⟨(forms number?).list (forms number?).word, r.operands⟩)] ++
      r.angle.toList.map fun e => ("parameter", ⟨(forms number?).angle, e⟩)) := by
  obtain ⟨tag, operands, angle⟩ := r
  cases angle with
  | none =>
    refine isObject_record [some (ofString tag), some (.array (operands.map ofWord)), none]
      (fun _ _ => rfl) rfl (by simp) rfl (fun depth h => ?_) (fun depth h => ?_)
    · simp only [Option.toList_none, List.map_cons, List.map_nil, List.append_nil,
        List.forall_mem_cons, forms] at h
      simp [h.2.1]
    · simp only [Option.toList_none, List.map_cons, List.map_nil, List.append_nil,
        List.exists_mem_cons_iff, forms] at h
      rcases h with h | h | h
      · simp at h
      · simp [h]
      · simp at h
  | some e =>
    refine isObject_record [some (ofString tag), some (.array (operands.map ofWord)),
      some e.toJson] (fun _ _ => rfl) rfl (by simp) rfl (fun depth h => ?_) (fun depth h => ?_)
    · simp only [Option.toList_some, List.map_cons, List.map_nil, List.cons_append,
        List.nil_append, List.forall_mem_cons, forms] at h
      simp [h.2.1, h.2.2.1, nullable?_toJson]
    · simp only [Option.toList_some, List.map_cons, List.map_nil, List.cons_append,
        List.nil_append, List.exists_mem_cons_iff, forms] at h
      rcases h with h | h | h | h
      · simp at h
      · simp [h, nullable?_toJson]
      · simp [h, nullable?_toJson]
      · simp at h

/-- **The codecs are those that are derived from the declarations.** -/
theorem derived_forms : (forms number?).Derived where
  word n := ⟨lexical_ofNat _, fun _ => word32?_ofWord n⟩
  text s := ⟨rfl, fun _ => string?_ofString s⟩
  list := isArray_list number?
  constant x := by
    refine isObject_case Angle.const rfl rfl (fun depth => ?_) rfl
    simp only [forms]
    unfold Angle.read?
    simp [caseOf, record]
  symbol name := by
    refine isObject_case Angle.var rfl rfl (fun depth => ?_) rfl
    simp only [forms]
    unfold Angle.read?
    simp [caseOf, record]
  pi := by
    refine ⟨rfl, fun depth => ?_⟩
    simp only [forms]
    unfold Angle.read?
    simp [Angle.toJson, ofString]
  neg e := by
    refine isObject_case Angle.neg rfl rfl (fun depth => ?_) rfl
    simp only [forms]
    conv_lhs => unfold Angle.read?
    simp [caseOf, record]
  binary := isObject_binary number?
  operands := isArray_operands number?
  fixed gate := by
    refine ⟨rfl, fun depth => ?_⟩
    simp only [forms, BaseGate.toJson, BaseGate.angle?, BaseGate.read?, case?_ofString]
    simp [GateKind.find?_label, BaseGate.kind, noContent]
  rotation := isObject_rotation number?
  controls controls := by
    refine ⟨rfl, fun depth => ?_⟩
    simp [forms, Controls.ofJson?, Controls.find?_caseName, noContent]
  gate := isObject_gate number?
  gateOperation g :=
    isObject_case Operation.gate rfl (by simp [forms, Operation.read?])
      (fun depth => by simp [forms, Operation.read?]) rfl
  measure := ⟨rfl, fun depth => by simp [forms, Operation.toJson, Operation.read?, noContent]⟩
  reset := ⟨rfl, fun depth => by simp [forms, Operation.toJson, Operation.read?, noContent]⟩
  barrier := ⟨rfl, fun depth => by simp [forms, Operation.toJson, Operation.read?, noContent]⟩
  qubit q := ⟨lexical_ofNat _, fun _ => by simp [forms, Qubit.ofJson?, Qubit.toJson]⟩
  clbit c := ⟨lexical_ofNat _, fun _ => by simp [forms, Clbit.ofJson?, Clbit.toJson]⟩
  instruction := isObject_instruction number?
  circuit := isObject_circuit number?
  record := isObject_gateRecord number?
  report _ := rfl

end Declarations

/-! ## Numbers -/

/-- The float nearest to a number, unless the number is too large. -/
def nearestFloat? : Json → Option Float
  | .number literal => (Decimal.read literal).toOption.filter Float.isFinite
  | _ => none

/-- **A reader that rounds correctly keeps finite numbers.** -/
theorem keepsFloats_nearest : (forms nearestFloat?).KeepsFloats := by
  intro x hx
  refine ⟨lexical_ofFloat x, fun _ => ?_⟩
  simp only [forms, ofFloat, if_pos hx, nearestFloat?, read_text Decimal.Layout.json hx,
    Except.toOption, Option.filter_some]

end Json

end FlatQasm
