import FlatQasm.Proofs.Json.Literals

/-!
# Written JSON text is read back

The text of a value, with or without lines of its own for the parts, is read as the value.  Blanks
may stand in front of every part, so both texts are of one kind: the parts of an array or an object
with commas between them, and blanks around them.

## Main definitions

* `Json.Reads` — a text is read as a value, whatever stands behind it.
* `Json.ReadsElements`, `Json.ReadsMembers` — a text behind an opening bracket or brace is read as
  the parts of an array or an object.
* `Json.Lexical` — a value whose numbers and strings are written as they should be.

## Main statements

* `Json.readsElements_intercalate`, `Json.readsMembers_intercalate` — texts of parts with commas
  between them.
* `Json.Lexical.parse?_compact`, `Json.Lexical.parse?_prettyChars` — the text of a value is read
  as the value.
-/

namespace FlatQasm.Json

/-! ## Blanks -/

/-- Nothing but blanks. -/
def Blank (text : List Char) : Prop := ∀ c ∈ text, isBlank c = true

theorem blank_nil : Blank [] := List.forall_mem_nil _

theorem blank_newLine (level : ℕ) : Blank (newLine level) := by
  intro c hc
  rcases List.mem_cons.1 hc with rfl | hc
  · rfl
  · rw [List.eq_of_mem_replicate hc]
    rfl

theorem blank_blank : Blank [' '] := by
  simp [Blank, isBlank]

theorem skipBlanks_append {front : List Char} (h : Blank front) (text : List Char) :
    skipBlanks (front ++ text) = skipBlanks text :=
  List.dropWhile_append_of_pos h

theorem skipBlanks_cons {c : Char} (hc : isBlank c = false) (text : List Char) :
    skipBlanks (c :: text) = c :: text := by
  simp [skipBlanks, hc]

@[simp] theorem skipBlanks_skipBlanks (text : List Char) :
    skipBlanks (skipBlanks text) = skipBlanks text :=
  List.dropWhile_idempotent isBlank text

theorem skipBlanks_append_of_eq_cons {text tail : List Char} {c : Char}
    (h : skipBlanks text = c :: tail) (rest : List Char) :
    skipBlanks (text ++ rest) = c :: (tail ++ rest) := by
  unfold skipBlanks at h ⊢
  rw [List.dropWhile_append, h]
  rfl

/-- A value may have blanks in front of it. -/
theorem valueFrom?_skipBlanks (bound : ℕ) (text : List Char) :
    valueFrom? bound (skipBlanks text) = valueFrom? bound text := by
  cases bound with
  | zero => rfl
  | succ bound => simp only [valueFrom?, skipBlanks_skipBlanks]

theorem valueFrom?_append {front : List Char} (h : Blank front) (bound : ℕ) (text : List Char) :
    valueFrom? bound (front ++ text) = valueFrom? bound text := by
  rw [← valueFrom?_skipBlanks, skipBlanks_append h, valueFrom?_skipBlanks]

theorem stops_cons {c : Char} (h : c.isDigit = false ∧ c ≠ '.' ∧ c ≠ 'e' ∧ c ≠ 'E')
    (rest : List Char) : Stops (c :: rest) := by
  rintro _ ⟨⟩
  exact h

/-- A number ends in front of a blank. -/
theorem stops_append {back rest : List Char} (h : Blank back) (stops : Stops rest) :
    Stops (back ++ rest) := by
  cases back with
  | nil => exact stops
  | cons c back =>
    refine stops_cons ?_ _
    have hc : isBlank c = true := h c List.mem_cons_self
    simp only [isBlank, Bool.or_eq_true, decide_eq_true_eq] at hc
    rcases hc with ((rfl | rfl) | rfl) | rfl <;> decide

/-! ## Reading a value -/

/-- A text is read as a value up to its end, wherever no number goes on. -/
structure Reads (text : List Char) (value : Json) : Prop where
  start : ∃ c rest, text = c :: rest ∧ isBlank c = false ∧ c ≠ ']'
  read : ∀ bound rest, 2 * text.length ≤ bound → Stops rest →
    valueFrom? bound (text ++ rest) = some (value, rest)

/-- A scalar. -/
theorem reads_scalar {c : Char} {text : List Char} {value : Json}
    (hc : isBlank c = false ∧ c ≠ '[' ∧ c ≠ ']' ∧ c ≠ '\x7b')
    (h : ∀ rest, Stops rest → scalarFrom? (c :: text ++ rest) = some (value, rest)) :
    Reads (c :: text) value where
  start := ⟨c, text, rfl, hc.1, hc.2.2.1⟩
  read := by
    intro bound rest hbound stops
    obtain ⟨hblank, hbracket, -, hbrace⟩ := hc
    obtain ⟨bound, rfl⟩ : ∃ n, bound = n + 1 := ⟨bound - 1, by simp at hbound; omega⟩
    rw [← h rest stops, List.cons_append]
    simp only [valueFrom?, skipBlanks_cons hblank]
    split
    · next heq => exact absurd (List.cons.inj heq).1 hbracket
    · next heq => exact absurd (List.cons.inj heq).1 hbrace
    · rfl

theorem reads_null : Reads ['n', 'u', 'l', 'l'] .null :=
  reads_scalar (by decide) fun _ _ => rfl

theorem reads_bool (value : Bool) : Reads (boolText value) (.bool value) := by
  cases value with
  | true => exact reads_scalar (by decide) fun _ _ => rfl
  | false => exact reads_scalar (by decide) fun _ _ => rfl

theorem reads_number {literal : List Char} (h : IsNumber literal) :
    Reads literal (.number literal) := by
  have hread (rest : List Char) (stops : Stops rest) := h.read stops
  have hstart : ∃ c digits, literal = c :: digits ∧ (c.isDigit = true ∨ c = '-') := by
    obtain ⟨unsigned, hunsigned, rfl | rfl⟩ := h
    · obtain ⟨c, digits, hcons, hc⟩ := hunsigned.exists_eq_cons
      exact ⟨c, digits, hcons, .inl hc⟩
    · exact ⟨'-', unsigned, rfl, .inr rfl⟩
  obtain ⟨c, digits, rfl, hc⟩ := hstart
  refine reads_scalar ?_ hread
  rcases hc with hc | rfl
  · have hne (sign : Char) (h : sign.isDigit = false) : c ≠ sign := by
      rintro rfl
      rw [h] at hc
      cases hc
    refine ⟨?_, hne '[' rfl, hne ']' rfl, hne '\x7b' rfl⟩
    simp [isBlank, hne ' ' rfl, hne '\n' rfl, hne '\t' rfl, hne '\r' rfl]
  · decide

theorem reads_string (text : List Char) :
    Reads (quoted (escape text)) (.string (escape text)) := by
  have hquoted : quoted (escape text) = '"' :: (escape text ++ ['"']) := rfl
  rw [hquoted]
  refine reads_scalar (by decide) fun rest _ => ?_
  rw [List.cons_append, List.append_assoc, List.singleton_append, scalarFrom?, stringFrom?_escape]
  rfl

/-! ## Arrays -/

/-- A text behind an opening bracket is read as elements, with the closing bracket behind it. -/
structure ReadsElements (text : List Char) (values : List Json) : Prop where
  start : ∃ c rest, skipBlanks text = c :: rest ∧ c ≠ ']'
  read : ∀ bound rest, 2 * text.length < bound →
    elementsFrom? bound (text ++ ']' :: rest) = some (values, rest)

/-- A text with blanks in front of it is read as a value. -/
def ReadsSpaced (text : List Char) (value : Json) : Prop :=
  ∃ front inside, text = front ++ inside ∧ Blank front ∧ Reads inside value

section Elements

variable {text back : List Char} {value : Json} {values : List Json}

/-- A value with blanks around it, in front of a comma or a bracket. -/
theorem ReadsSpaced.read (h : ReadsSpaced text value) (bound : ℕ)
    (hbound : 2 * text.length ≤ bound) {rest : List Char} (stops : Stops rest) :
    valueFrom? bound (text ++ rest) = some (value, rest) := by
  obtain ⟨front, inside, rfl, hfront, hinside⟩ := h
  rw [List.length_append] at hbound
  rw [List.append_assoc, valueFrom?_append hfront, hinside.read bound rest (by omega) stops]

theorem ReadsSpaced.start (h : ReadsSpaced text value) (rest : List Char) :
    ∃ c tail, skipBlanks (text ++ rest) = c :: tail ∧ c ≠ ']' := by
  obtain ⟨front, inside, rfl, hfront, hinside⟩ := h
  obtain ⟨c, tail, rfl, hblank, hc⟩ := hinside.start
  rw [List.append_assoc, skipBlanks_append hfront, List.cons_append, skipBlanks_cons hblank]
  exact ⟨c, tail ++ rest, rfl, hc⟩

/-- The last element, with blanks in front of the bracket. -/
theorem readsElements_last (h : ReadsSpaced text value) (hback : Blank back) :
    ReadsElements (text ++ back) [value] where
  start := h.start back
  read := by
    intro bound rest hbound
    obtain ⟨bound, rfl⟩ : ∃ n, bound = n + 1 := ⟨bound - 1, by omega⟩
    rw [List.length_append] at hbound
    have hread := h.read bound (by omega)
      (stops_append hback (stops_cons (c := ']') (by decide) rest))
    rw [List.append_assoc, elementsFrom?, hread]
    simp only [bind, Option.bind_some, skipBlanks_append hback,
      skipBlanks_cons (c := ']') (by decide)]

/-- An element in front of a comma and others. -/
theorem readsElements_cons (h : ReadsSpaced text value) {others : List Char}
    (hothers : ReadsElements others values) :
    ReadsElements (text ++ ',' :: others) (value :: values) where
  start := h.start _
  read := by
    intro bound rest hbound
    obtain ⟨bound, rfl⟩ : ∃ n, bound = n + 1 := ⟨bound - 1, by omega⟩
    rw [List.length_append, List.length_cons] at hbound
    have hread := h.read bound (by omega)
      (stops_cons (c := ',') (by decide) (others ++ ']' :: rest))
    rw [List.append_assoc, List.cons_append, elementsFrom?, hread]
    simp only [bind, Option.bind_some, skipBlanks_cons (c := ',') (by decide),
      hothers.read bound rest (by omega), Option.map_some]

/-- Elements with commas between them, and blanks in front of the bracket. -/
theorem readsElements_intercalate {texts : List (List Char)}
    (h : List.Forall₂ ReadsSpaced texts values) (hne : values ≠ []) (hback : Blank back) :
    ReadsElements ([','].intercalate texts ++ back) values := by
  induction h with
  | nil => exact absurd rfl hne
  | @cons text value texts values hfirst hrest ih =>
    cases hrest with
    | nil =>
      rw [List.intercalate_singleton]
      exact readsElements_last hfirst hback
    | cons hsecond hrest =>
      rw [List.intercalate_cons_cons, List.append_assoc, List.append_assoc, List.singleton_append]
      exact readsElements_cons hfirst (ih (List.cons_ne_nil _ _))

theorem elementsFrom?_skipBlanks (bound : ℕ) (text : List Char) :
    elementsFrom? bound (skipBlanks text) = elementsFrom? bound text := by
  cases bound with
  | zero => rfl
  | succ bound => rw [elementsFrom?, elementsFrom?, valueFrom?_skipBlanks]

/-- Elements between brackets. -/
theorem ReadsElements.reads (h : ReadsElements text values) :
    Reads ('[' :: (text ++ [']'])) (.array values) where
  start := ⟨'[', _, rfl, by decide⟩
  read := by
    intro bound rest hbound _
    simp only [List.length_cons, List.length_append, List.length_nil] at hbound
    obtain ⟨bound, rfl⟩ : ∃ n, bound = n + 1 := ⟨bound - 1, by omega⟩
    obtain ⟨c, tail, hskip, hc⟩ := h.start
    have hfront := skipBlanks_append_of_eq_cons hskip (']' :: rest)
    have hread := h.read bound rest (by omega)
    rw [← elementsFrom?_skipBlanks, hfront] at hread
    rw [List.cons_append, List.append_assoc, List.singleton_append]
    simp only [valueFrom?, skipBlanks_cons (c := '[') (by decide), hfront]
    split
    · next heq => exact absurd (List.cons.inj heq).1 hc
    · rw [hread]
      rfl

end Elements

/-! ## Objects -/

/-- A text behind an opening brace is read as members, with the closing brace behind it. -/
structure ReadsMembers (text : List Char) (members : List (List Char × Json)) : Prop where
  start : ∃ c rest, skipBlanks text = c :: rest ∧ c ≠ '\x7d'
  read : ∀ bound rest, 2 * text.length < bound →
    membersFrom? bound (text ++ '\x7d' :: rest) = some (members, rest)

/-- A text with blanks in front of it is read as a key, and then as a value. -/
def ReadsMember (text : List Char) (member : List Char × Json) : Prop :=
  ∃ front key inside, text = front ++ (quoted (escape key) ++ ':' :: inside) ∧ Blank front ∧
    member.1 = escape key ∧ ReadsSpaced inside member.2

section Members

variable {text back : List Char} {member : List Char × Json} {members : List (List Char × Json)}

theorem keyFrom?_append {front : List Char} (h : Blank front) (key rest : List Char) :
    keyFrom? (front ++ (quoted (escape key) ++ ':' :: rest)) = some (escape key, rest) := by
  have hquoted : quoted (escape key) = '"' :: (escape key ++ ['"']) := rfl
  rw [keyFrom?, skipBlanks_append h, hquoted, List.cons_append, List.append_assoc,
    List.singleton_append, skipBlanks_cons (by decide)]
  simp only [stringFrom?_escape, bind, Option.bind_some, skipBlanks_cons (c := ':') (by decide)]

/-- A member in front of a comma or a brace. -/
theorem ReadsMember.read (h : ReadsMember text member) (bound : ℕ)
    (hbound : 2 * text.length ≤ bound) {rest : List Char} (stops : Stops rest) :
    ∃ inside, keyFrom? (text ++ rest) = some (member.1, inside) ∧
      valueFrom? bound inside = some (member.2, rest) := by
  obtain ⟨front, key, inside, rfl, hfront, hkey, hinside⟩ := h
  simp only [List.length_append, List.length_cons] at hbound
  refine ⟨inside ++ rest, ?_, hinside.read bound (by omega) stops⟩
  rw [hkey, List.append_assoc, List.append_assoc, List.cons_append, keyFrom?_append hfront]

theorem ReadsMember.start (h : ReadsMember text member) (rest : List Char) :
    ∃ c tail, skipBlanks (text ++ rest) = c :: tail ∧ c ≠ '\x7d' := by
  obtain ⟨front, key, inside, rfl, hfront, -, -⟩ := h
  have hquoted : quoted (escape key) = '"' :: (escape key ++ ['"']) := rfl
  rw [List.append_assoc, skipBlanks_append hfront, hquoted, List.cons_append, List.cons_append,
    skipBlanks_cons (by decide)]
  exact ⟨'"', _, rfl, by decide⟩

/-- The last member, with blanks in front of the brace. -/
theorem readsMembers_last (h : ReadsMember text member) (hback : Blank back) :
    ReadsMembers (text ++ back) [member] where
  start := h.start back
  read := by
    intro bound rest hbound
    obtain ⟨bound, rfl⟩ : ∃ n, bound = n + 1 := ⟨bound - 1, by omega⟩
    rw [List.length_append] at hbound
    obtain ⟨inside, hkey, hvalue⟩ := h.read bound (by omega)
      (stops_append hback (stops_cons (c := '\x7d') (by decide) rest))
    rw [List.append_assoc, membersFrom?, hkey]
    simp only [bind, Option.bind_some, hvalue, skipBlanks_append hback,
      skipBlanks_cons (c := '\x7d') (by decide)]

/-- A member in front of a comma and others. -/
theorem readsMembers_cons (h : ReadsMember text member) {others : List Char}
    (hothers : ReadsMembers others members) :
    ReadsMembers (text ++ ',' :: others) (member :: members) where
  start := h.start _
  read := by
    intro bound rest hbound
    obtain ⟨bound, rfl⟩ : ∃ n, bound = n + 1 := ⟨bound - 1, by omega⟩
    rw [List.length_append, List.length_cons] at hbound
    obtain ⟨inside, hkey, hvalue⟩ := h.read bound (by omega)
      (stops_cons (c := ',') (by decide) (others ++ '\x7d' :: rest))
    rw [List.append_assoc, List.cons_append, membersFrom?, hkey]
    simp only [bind, Option.bind_some, hvalue, skipBlanks_cons (c := ',') (by decide),
      hothers.read bound rest (by omega), Option.map_some]

/-- Members with commas between them, and blanks in front of the brace. -/
theorem readsMembers_intercalate {texts : List (List Char)}
    (h : List.Forall₂ ReadsMember texts members) (hne : members ≠ []) (hback : Blank back) :
    ReadsMembers ([','].intercalate texts ++ back) members := by
  induction h with
  | nil => exact absurd rfl hne
  | @cons text member texts members hfirst hrest ih =>
    cases hrest with
    | nil =>
      rw [List.intercalate_singleton]
      exact readsMembers_last hfirst hback
    | cons hsecond hrest =>
      rw [List.intercalate_cons_cons, List.append_assoc, List.append_assoc, List.singleton_append]
      exact readsMembers_cons hfirst (ih (List.cons_ne_nil _ _))

theorem membersFrom?_skipBlanks (bound : ℕ) (text : List Char) :
    membersFrom? bound (skipBlanks text) = membersFrom? bound text := by
  cases bound with
  | zero => rfl
  | succ bound => simp only [membersFrom?, keyFrom?, skipBlanks_skipBlanks]

/-- Members between braces. -/
theorem ReadsMembers.reads (h : ReadsMembers text members) :
    Reads ('\x7b' :: (text ++ ['\x7d'])) (.object members) where
  start := ⟨'\x7b', _, rfl, by decide⟩
  read := by
    intro bound rest hbound _
    simp only [List.length_cons, List.length_append, List.length_nil] at hbound
    obtain ⟨bound, rfl⟩ : ∃ n, bound = n + 1 := ⟨bound - 1, by omega⟩
    obtain ⟨c, tail, hskip, hc⟩ := h.start
    have hfront := skipBlanks_append_of_eq_cons hskip ('\x7d' :: rest)
    have hread := h.read bound rest (by omega)
    rw [← membersFrom?_skipBlanks, hfront] at hread
    rw [List.cons_append, List.append_assoc, List.singleton_append]
    simp only [valueFrom?, skipBlanks_cons (c := '\x7b') (by decide), hfront]
    split
    · next heq => exact absurd (List.cons.inj heq).1 hc
    · rw [hread]
      rfl

end Members

/-! ## Texts of values -/

/-- A value whose numbers are numbers, and whose strings and keys are written as `Json.escape`
writes them. -/
inductive Lexical : Json → Prop
  | null : Lexical .null
  | bool (value : Bool) : Lexical (.bool value)
  | number {literal : List Char} (h : IsNumber literal) : Lexical (.number literal)
  | string (text : List Char) : Lexical (.string (escape text))
  | array {elements : List Json} (h : ∀ x ∈ elements, Lexical x) : Lexical (.array elements)
  | object {members : List (List Char × Json)} (keys : ∀ m ∈ members, ∃ text, m.1 = escape text)
      (h : ∀ m ∈ members, Lexical m.2) : Lexical (.object members)

theorem lexical_ofString (text : String) : (ofString text).Lexical := .string text.toList

theorem lexical_ofNat (n : ℕ) : (ofNat n).Lexical := .number (isNumber_toDigits n)

theorem lexical_ofFloat (x : Float) : (ofFloat x).Lexical := by
  unfold ofFloat
  split
  · next hx => exact .number (isNumber_text hx)
  · exact .null

theorem lexical_record {members : List (String × Json)} (h : ∀ m ∈ members, m.2.Lexical) :
    (record members).Lexical :=
  .object (List.forall_mem_map.2 fun m _ => ⟨m.1.toList, rfl⟩) (List.forall_mem_map.2 h)

theorem compactElements_eq : ∀ elements : List Json,
    compactElements elements = [','].intercalate (elements.map compactChars)
  | [] => by simp [compactElements]
  | [last] => by simp [compactElements]
  | first :: second :: rest => by
    rw [compactElements, compactElements_eq (second :: rest)]
    · simp
    · simp

theorem compactMembers_eq : ∀ members : List (List Char × Json),
    compactMembers members =
      [','].intercalate (members.map fun m => quoted m.1 ++ ':' :: compactChars m.2)
  | [] => by simp [compactMembers]
  | [last] => by simp [compactMembers]
  | first :: second :: rest => by
    rw [compactMembers, compactMembers_eq (second :: rest)]
    · simp
    · simp

theorem prettyElements_eq (level : ℕ) : ∀ elements : List Json,
    prettyElements level elements =
      [','].intercalate (elements.map fun x => newLine level ++ prettyChars level x)
  | [] => by simp [prettyElements]
  | [last] => by simp [prettyElements]
  | first :: second :: rest => by
    rw [prettyElements, prettyElements_eq level (second :: rest)]
    · simp
    · simp

theorem prettyMembers_eq (level : ℕ) : ∀ members : List (List Char × Json),
    prettyMembers level members = [','].intercalate (members.map fun m =>
      newLine level ++ (quoted m.1 ++ ':' :: ' ' :: prettyChars level m.2))
  | [] => by simp [prettyMembers]
  | [last] => by simp [prettyMembers]
  | first :: second :: rest => by
    rw [prettyMembers, prettyMembers_eq level (second :: rest)]
    · simp
    · simp

/-- The last member of an object stands in front of the brace. -/
theorem exists_prettyChars_concat (members : List (List Char × Json)) (last : List Char × Json) :
    ∃ front, prettyChars 0 (.object (members ++ [last])) =
      front ++ (quoted last.1 ++ ':' :: ' ' :: prettyChars 1 last.2) ++ ['\n', '\x7d'] := by
  have hmembers : ∃ front, prettyMembers 1 (members ++ [last]) =
      front ++ (quoted last.1 ++ ':' :: ' ' :: prettyChars 1 last.2) := by
    induction members with
    | nil => exact ⟨newLine 1, by simp [prettyMembers_eq]⟩
    | cons first rest ih =>
      obtain ⟨front, hfront⟩ := ih
      obtain ⟨second, others, hcons⟩ := List.exists_cons_of_ne_nil
        (List.append_ne_nil_of_right_ne_nil rest (List.cons_ne_nil last []))
      rw [hcons] at hfront
      rw [List.cons_append, hcons, prettyMembers, hfront]
      · exact ⟨newLine 1 ++ quoted first.1 ++ ':' :: ' ' :: prettyChars 1 first.2 ++ ',' :: front,
          by simp⟩
      · simp
  obtain ⟨front, hfront⟩ := hmembers
  obtain ⟨first, others, hcons⟩ := List.exists_cons_of_ne_nil
    (List.append_ne_nil_of_right_ne_nil members (List.cons_ne_nil last []))
  rw [hcons] at hfront ⊢
  rw [prettyChars, hfront]
  exact ⟨'\x7b' :: front, by simp [newLine]⟩

theorem reads_emptyArray : Reads ['[', ']'] (.array []) where
  start := ⟨'[', _, rfl, by decide⟩
  read := by
    intro bound rest hbound _
    obtain ⟨bound, rfl⟩ : ∃ n, bound = n + 1 := ⟨bound - 1, by simp at hbound; omega⟩
    simp only [List.cons_append, List.nil_append, valueFrom?,
      skipBlanks_cons (c := '[') (by decide), skipBlanks_cons (c := ']') (by decide)]

theorem reads_emptyObject : Reads ['\x7b', '\x7d'] (.object []) where
  start := ⟨'\x7b', _, rfl, by decide⟩
  read := by
    intro bound rest hbound _
    obtain ⟨bound, rfl⟩ : ∃ n, bound = n + 1 := ⟨bound - 1, by simp at hbound; omega⟩
    simp only [List.cons_append, List.nil_append, valueFrom?,
      skipBlanks_cons (c := '\x7b') (by decide), skipBlanks_cons (c := '\x7d') (by decide)]

theorem Reads.spaced {text : List Char} {value : Json} (h : Reads text value) {front : List Char}
    (hfront : Blank front) : ReadsSpaced (front ++ text) value :=
  ⟨front, text, rfl, hfront, h⟩

theorem Reads.spaced_nil {text : List Char} {value : Json} (h : Reads text value) :
    ReadsSpaced text value :=
  h.spaced blank_nil

/-- The text of a value without blanks is read as the value. -/
theorem Lexical.reads_compact {value : Json} (h : Lexical value) :
    Reads (compactChars value) value := by
  induction h with
  | null => simpa only [compactChars] using reads_null
  | bool value => simpa only [compactChars] using reads_bool value
  | number h => simpa only [compactChars] using reads_number h
  | string text => simpa only [compactChars] using reads_string text
  | @array elements _ ih =>
    rw [compactChars, compactElements_eq]
    cases elements with
    | nil => exact reads_emptyArray
    | cons first rest =>
      have helements : List.Forall₂ ReadsSpaced ((first :: rest).map compactChars)
          (first :: rest) :=
        List.forall₂_map_left_iff.2 (List.forall₂_same.2 fun x hx => (ih x hx).spaced_nil)
      have hread := readsElements_intercalate helements (List.cons_ne_nil _ _) blank_nil
      rw [List.append_nil] at hread
      exact hread.reads
  | @object members keys _ ih =>
    rw [compactChars, compactMembers_eq]
    cases members with
    | nil => exact reads_emptyObject
    | cons first rest =>
      have hmembers : List.Forall₂ ReadsMember
          ((first :: rest).map fun m => quoted m.1 ++ ':' :: compactChars m.2) (first :: rest) := by
        refine List.forall₂_map_left_iff.2 (List.forall₂_same.2 fun m hm => ?_)
        obtain ⟨key, hkey⟩ := keys m hm
        exact ⟨[], key, _, by rw [hkey]; rfl, blank_nil, hkey, (ih m hm).spaced_nil⟩
      have hread := readsMembers_intercalate hmembers (List.cons_ne_nil _ _) blank_nil
      rw [List.append_nil] at hread
      exact hread.reads

/-- The text of a value with lines of its own for the parts is read as the value, at any level of
indentation. -/
theorem Lexical.reads_pretty {value : Json} (h : Lexical value) (level : ℕ) :
    Reads (prettyChars level value) value := by
  induction h generalizing level with
  | null => simpa only [prettyChars] using reads_null
  | bool value => simpa only [prettyChars] using reads_bool value
  | number h => simpa only [prettyChars] using reads_number h
  | string text => simpa only [prettyChars] using reads_string text
  | @array elements _ ih =>
    cases elements with
    | nil => simpa only [prettyChars] using reads_emptyArray
    | cons first rest =>
      have helements : List.Forall₂ ReadsSpaced
          ((first :: rest).map fun x => newLine (level + 1) ++ prettyChars (level + 1) x)
          (first :: rest) :=
        List.forall₂_map_left_iff.2 (List.forall₂_same.2 fun x hx =>
          (ih x hx (level + 1)).spaced (blank_newLine _))
      have hread := readsElements_intercalate helements (List.cons_ne_nil _ _) (blank_newLine level)
      rw [prettyChars, prettyElements_eq]
      exact hread.reads
  | @object members keys _ ih =>
    cases members with
    | nil => simpa only [prettyChars] using reads_emptyObject
    | cons first rest =>
      have hmembers : List.Forall₂ ReadsMember
          ((first :: rest).map fun m => newLine (level + 1) ++
            (quoted m.1 ++ ':' :: ' ' :: prettyChars (level + 1) m.2)) (first :: rest) := by
        refine List.forall₂_map_left_iff.2 (List.forall₂_same.2 fun m hm => ?_)
        obtain ⟨key, hkey⟩ := keys m hm
        exact ⟨_, key, _, by rw [hkey]; rfl, blank_newLine _, hkey,
          (ih m hm (level + 1)).spaced blank_blank⟩
      have hread := readsMembers_intercalate hmembers (List.cons_ne_nil _ _) (blank_newLine level)
      rw [prettyChars, prettyMembers_eq]
      exact hread.reads

/-- A text that is read as a value is one value. -/
theorem Reads.parse?_ofList {text : List Char} {value : Json} (h : Reads text value) :
    parse? (String.ofList text) = some value := by
  have hread := h.read (2 * text.length + 1) [] (Nat.le_succ _) (by rintro _ ⟨⟩)
  rw [List.append_nil] at hread
  simp only [parse?, String.toList_ofList, hread, bind, Option.bind_some]
  rfl

/-- The text of a value without blanks is the text of the value. -/
theorem Lexical.parse?_compact {value : Json} (h : Lexical value) :
    parse? value.compact = some value :=
  h.reads_compact.parse?_ofList

/-- The text of a value with lines of its own for the parts is the text of the value. -/
theorem Lexical.parse?_prettyChars {value : Json} (h : Lexical value) (level : ℕ) :
    parse? (String.ofList (prettyChars level value)) = some value :=
  (h.reads_pretty level).parse?_ofList

end FlatQasm.Json
