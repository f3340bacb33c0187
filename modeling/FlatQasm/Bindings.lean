import FlatQasm.Names

/-!
# Values for free variables

Bindings give numbers to names.  They may hold names that nothing uses; only a missing name is an
error.  Entries are kept in the order of their names, each name once, so that two bindings with
the same values are the same.

## Main definitions

* `Bindings` — a finite map from names to floats.
* `Bindings.get?`, `Bindings.insert`, `Bindings.insertMany` — look up and change.
* `Bindings.firstMissing?` — the first of some names that has no value.
-/

namespace FlatQasm

/-- A finite map from names to floats. -/
structure Bindings where
  /-- Names with their values. -/
  entries : List (String × Float)
  /-- The names ascend. -/
  sorted : entries.Pairwise fun a b => a.1 < b.1

namespace Bindings

/-- No bindings. -/
def empty : Bindings := ⟨[], .nil⟩

instance : EmptyCollection Bindings := ⟨empty⟩
instance : Inhabited Bindings := ⟨empty⟩

/-- The value of a name. -/
def get? (b : Bindings) (name : String) : Option Float := b.entries.lookup name

/-- Whether a name has a value. -/
def contains (b : Bindings) (name : String) : Bool := (b.get? name).isSome

/-- The number of names with a value. -/
def size (b : Bindings) : Nat := b.entries.length

/-- An entry put into an ascending list; it replaces one of the same name. -/
def insertEntry (name : String) (value : Float) :
    List (String × Float) → List (String × Float)
  | [] => [(name, value)]
  | first :: rest =>
    if name = first.1 then (name, value) :: rest
    else if name < first.1 then (name, value) :: first :: rest
    else first :: insertEntry name value rest

theorem mem_insertEntry {name : String} {value : Float} {entries : List (String × Float)}
    {x : String × Float} (h : x ∈ insertEntry name value entries) :
    x = (name, value) ∨ x ∈ entries := by
  induction entries with
  | nil => simpa [insertEntry] using h
  | cons first rest ih => grind [insertEntry]

theorem pairwise_insertEntry {name : String} {value : Float} {entries : List (String × Float)}
    (h : entries.Pairwise fun a b => a.1 < b.1) :
    (insertEntry name value entries).Pairwise fun a b => a.1 < b.1 := by
  induction entries with
  | nil => simp [insertEntry]
  | cons first rest ih =>
    rw [List.pairwise_cons] at h
    simp only [insertEntry]
    split
    · next eq => exact List.pairwise_cons.2 ⟨fun x hx => eq ▸ h.1 x hx, h.2⟩
    · split
      · next lt =>
        refine List.pairwise_cons.2 ⟨fun x hx => ?_, List.pairwise_cons.2 h⟩
        rcases List.mem_cons.1 hx with rfl | hx
        · exact lt
        · exact String.lt_trans lt (h.1 x hx)
      · next ne nlt =>
        refine List.pairwise_cons.2 ⟨fun x hx => ?_, ih h.2⟩
        rcases mem_insertEntry hx with rfl | hx
        · exact Std.lt_of_le_of_ne (Std.not_lt.1 nlt) fun e => ne e.symm
        · exact h.1 x hx

/-- The bindings with one name given a value, in place of the one it had. -/
def insert (b : Bindings) (name : String) (value : Float) : Bindings where
  entries := insertEntry name value b.entries
  sorted := pairwise_insertEntry b.sorted

/-- The bindings with several names given values in turn; the last value of a name stays. -/
def insertMany (b : Bindings) (entries : List (String × Float)) : Bindings :=
  entries.foldl (fun b entry => b.insert entry.1 entry.2) b

/-- The bindings of some names with their values; the last value of a name stays. -/
def ofList (entries : List (String × Float)) : Bindings := empty.insertMany entries

/-- The first of the names that has no value. -/
def firstMissing? (b : Bindings) (names : List String) : Option String :=
  names.find? fun name => !b.contains name

end Bindings

end FlatQasm
