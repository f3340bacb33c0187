import FlatQasm.Proofs.Outcome

/-!
# What is expected of a text format for data

Values are written as data and data as text.  Of the format this much is used: there are strings,
arrays and objects; a text that was written is read as the data that it was written for; and the
reader bounds how many arrays and objects may be inside one another.  How a value is written and
read is said part by part: a value made of parts is read when its parts are, and takes one level
for itself.

## Main definitions

* `TextFormat` — a format, with its reader's limit on nesting.
* `TextFormat.Lawful` — written text is read back.
* `Codec` — how values of a type are written and read.
* `Codec.IsScalar`, `Codec.IsName`, `Codec.IsArray`, `Codec.IsObject` — the forms of a value.
* `Codec.ReadsIf` — a value is read from some levels if a condition holds, and refused otherwise.

## Main statements

* `Codec.IsArray.readsIf`, `Codec.IsObject.readsIf` — a value made of parts is read if they are.
* `Codec.ReadsIf.ofText?_text` — what comes of reading the text of a value.
-/

namespace FlatQasm

/-- Whether a text has blanks between its parts. -/
inductive TextLayout where
  /-- No blanks. -/
  | compact
  /-- A line for each part, at a level of indentation. -/
  | pretty (level : ℕ)

/-- A text format for data. -/
structure TextFormat where
  Data : Type
  string : String → Data
  array : List Data → Data
  object : List (String × Data) → Data
  /-- Data that a writer gives. -/
  Written : Data → Prop
  print : TextLayout → Data → String
  parse? : String → Option Data
  /-- How many arrays and objects the reader allows inside one another. -/
  limit : ℕ

namespace TextFormat

/-- A format whose texts are read back. -/
structure Lawful (F : TextFormat) : Prop where
  written_string : ∀ s, F.Written (F.string s)
  written_array : ∀ {elements}, (∀ d ∈ elements, F.Written d) → F.Written (F.array elements)
  written_object : ∀ {members}, (∀ m ∈ members, F.Written m.2) → F.Written (F.object members)
  parse?_print : ∀ layout {d}, F.Written d → F.parse? (F.print layout d) = some d
  /-- The last member of an object stands on the lines before its closing brace. -/
  print_object : ∀ members (key : String) d, key.toList.all Char.isAlpha = true →
    ∃ front, F.print (.pretty 0) (F.object (members ++ [(key, d)])) =
      front ++ "\"" ++ key ++ "\": " ++ F.print (.pretty 1) d ++ "\n\x7d"

end TextFormat

/-- How values of a type are written as data, and read from data that may have a number of arrays
and objects inside one another. -/
structure Codec (F : TextFormat) (α : Type) where
  write : α → F.Data
  read? : (levels : ℕ) → F.Data → Option α

namespace Codec

variable {F : TextFormat} {α : Type}

/-- The text of a value. -/
def text (C : Codec F α) (layout : TextLayout) (a : α) : String := F.print layout (C.write a)

/-- The value of a text. -/
def ofText? (C : Codec F α) (text : String) : Option α := (F.parse? text).bind (C.read? F.limit)

/-- A part of a value, with how it is written and read. -/
structure Part (F : TextFormat) where
  {Value : Type}
  codec : Codec F Value
  value : Value

/-! ## Forms of values -/

/-- A value without parts, such as a number. -/
structure IsScalar (C : Codec F α) (a : α) : Prop where
  written : F.Written (C.write a)
  read : ∀ levels, C.read? levels (C.write a) = some a

/-- A value that is written as a string. -/
structure IsName (C : Codec F α) (a : α) (name : String) : Prop where
  write : C.write a = F.string name
  read : ∀ levels, C.read? levels (C.write a) = some a

/-- A value that takes a level for itself, and is read when its parts are. -/
structure Nests (C : Codec F α) (a : α) (parts : List (Part F)) : Prop where
  read : ∀ levels,
    (∀ part ∈ parts, part.codec.read? levels (part.codec.write part.value) = some part.value) →
    C.read? (levels + 1) (C.write a) = some a
  refused : ∀ levels,
    (∃ part ∈ parts, part.codec.read? levels (part.codec.write part.value) = none) →
    C.read? (levels + 1) (C.write a) = none
  refused_zero : C.read? 0 (C.write a) = none

/-- A value that is written as the array of its parts. -/
structure IsArray (C : Codec F α) (a : α) (parts : List (Part F)) : Prop extends
    Nests C a parts where
  write : C.write a = F.array (parts.map fun part => part.codec.write part.value)

/-- A value that is written as the object of its parts, by their names. -/
structure IsObject (C : Codec F α) (a : α) (fields : List (String × Part F)) : Prop extends
    Nests C a (fields.map Prod.snd) where
  write : C.write a =
    F.object (fields.map fun field => (field.1, field.2.codec.write field.2.value))

/-! ## Reading back -/

/-- A value is read back from some levels if a condition holds, and refused otherwise. -/
structure ReadsIf (C : Codec F α) (a : α) (levels : ℕ) (p : Prop) : Prop where
  written : F.Written (C.write a)
  read : p → C.read? levels (C.write a) = some a
  refused : ¬ p → C.read? levels (C.write a) = none

variable {C : Codec F α} {a : α} {n : ℕ} {p q : Prop}

theorem ReadsIf.congr (h : C.ReadsIf a n p) (hpq : p ↔ q) : C.ReadsIf a n q where
  written := h.written
  read := fun hq => h.read (hpq.2 hq)
  refused := fun hq => h.refused fun hp => hq (hpq.1 hp)

theorem IsScalar.readsIf (h : C.IsScalar a) : C.ReadsIf a n True where
  written := h.written
  read := fun _ => h.read n
  refused := fun hfalse => absurd trivial hfalse

theorem IsName.readsIf (lawful : F.Lawful) {name : String} (h : C.IsName a name) :
    C.ReadsIf a n True where
  written := h.write ▸ lawful.written_string name
  read := fun _ => h.read n
  refused := fun hfalse => absurd trivial hfalse

/-- Each part of a value is read back under a condition of its own. -/
abbrev PartsReadIf (n : ℕ) (parts : List (Part F)) (conditions : List Prop) : Prop :=
  List.Forall₂ (fun part p => part.codec.ReadsIf part.value n p) parts conditions

theorem PartsReadIf.written {parts : List (Part F)} {conditions : List Prop}
    (h : PartsReadIf n parts conditions) :
    ∀ part ∈ parts, F.Written (part.codec.write part.value) := by
  induction h with
  | nil => exact List.forall_mem_nil _
  | cons hpart _ ih => exact List.forall_mem_cons.2 ⟨hpart.written, ih⟩

theorem Nests.readsIf {parts : List (Part F)} {conditions : List Prop} (h : C.Nests a parts)
    (written : F.Written (C.write a)) (hparts : PartsReadIf n parts conditions) :
    C.ReadsIf a (n + 1) (conditions.Forall id) where
  written := written
  read := by
    intro hall
    rw [List.forall_iff_forall_mem] at hall
    refine h.read n fun part hpart => ?_
    obtain ⟨p, hp, hreads⟩ := exists_mem_of_forall₂ hparts.flip hpart
    exact hreads.read (hall p hp)
  refused := by
    intro hnot
    rw [List.forall_iff_forall_mem] at hnot
    push Not at hnot
    obtain ⟨p, hp, hfalse⟩ := hnot
    obtain ⟨part, hpart, hreads⟩ := exists_mem_of_forall₂ hparts hp
    exact h.refused n ⟨part, hpart, hreads.refused hfalse⟩

theorem Nests.readsIf_zero {parts : List (Part F)} (h : C.Nests a parts)
    (written : F.Written (C.write a)) : C.ReadsIf a 0 False where
  written := written
  read := False.elim
  refused := fun _ => h.refused_zero

section Parts

variable (lawful : F.Lawful) {parts : List (Part F)} {fields : List (String × Part F)}
  {conditions : List Prop}
include lawful

theorem IsArray.written (h : C.IsArray a parts)
    (hparts : ∀ part ∈ parts, F.Written (part.codec.write part.value)) :
    F.Written (C.write a) := by
  rw [h.write]
  exact lawful.written_array (List.forall_mem_map.2 hparts)

theorem IsObject.written (h : C.IsObject a fields)
    (hparts : ∀ part ∈ fields.map Prod.snd, F.Written (part.codec.write part.value)) :
    F.Written (C.write a) := by
  rw [h.write]
  rw [List.forall_mem_map] at hparts
  exact lawful.written_object (List.forall_mem_map.2 hparts)

/-- **An array is read from one level more than all of its parts.** -/
theorem IsArray.readsIf (h : C.IsArray a parts) (hparts : PartsReadIf n parts conditions) :
    C.ReadsIf a (n + 1) (conditions.Forall id) :=
  h.toNests.readsIf (h.written lawful hparts.written) hparts

/-- **An object is read from one level more than all of its parts.** -/
theorem IsObject.readsIf (h : C.IsObject a fields)
    (hparts : PartsReadIf n (fields.map Prod.snd) conditions) :
    C.ReadsIf a (n + 1) (conditions.Forall id) :=
  h.toNests.readsIf (h.written lawful hparts.written) hparts

theorem IsArray.readsIf_zero (h : C.IsArray a parts) (hparts : PartsReadIf n parts conditions) :
    C.ReadsIf a 0 False :=
  h.toNests.readsIf_zero (h.written lawful hparts.written)

theorem IsObject.readsIf_zero (h : C.IsObject a fields)
    (hparts : PartsReadIf n (fields.map Prod.snd) conditions) : C.ReadsIf a 0 False :=
  h.toNests.readsIf_zero (h.written lawful hparts.written)

/-- **What comes of reading the text of a value**, in any layout. -/
theorem ReadsIf.ofText?_text [Decidable p] (h : C.ReadsIf a F.limit p) (layout : TextLayout) :
    C.ofText? (C.text layout a) = if p then some a else none := by
  rw [ofText?, text, lawful.parse?_print layout h.written, Option.bind_some]
  split
  · next hp => exact h.read hp
  · next hp => exact h.refused hp

end Parts

end Codec

end FlatQasm
