import FlatQasm.Command.Run
import FlatQasm.Proofs.Bindings
import FlatQasm.Proofs.Outcome

/-!
# What is expected of a library for JSON

The commands read bindings with a `JsonLibrary`.  What counts is that it reads the texts that are
objects of numbers, and no others; of a name that comes more than once it keeps the last number.
Which texts those are, and which number a literal stands for, is left to the library.

## Main definitions

* `JsonLibrary.Reads` — the objects of numbers are read.
* `Json.HasNumbers` — the texts that are objects of numbers, as JSON is read here.

## Main statements

* `Json.reads_library` — the library that comes with the commands reads them.
-/

namespace FlatQasm

/-- A library reads the texts that are objects of numbers, with the given members in order. -/
structure JsonLibrary.Reads (json : JsonLibrary)
    (HasNumbers : (text : String) → (members : List (String × Float)) → Prop) : Prop where
  /-- An object of numbers is read, and every name has its last number. -/
  read : ∀ {text members}, HasNumbers text members →
    ∃ entries, json.numbers? text = some entries ∧
      ∀ name, lastValue? name entries = lastValue? name members
  /-- Nothing else is read. -/
  exists_members : ∀ {text entries}, json.numbers? text = some entries →
    ∃ members, HasNumbers text members

namespace JsonLibrary.Reads

variable {json : JsonLibrary} {HasNumbers : String → List (String × Float) → Prop} {text : String}
  {members members' entries : List (String × Float)}

/-- What is read are the last numbers of the names. -/
theorem lastValue?_eq (reads : json.Reads HasNumbers) (h : HasNumbers text members)
    (hentries : json.numbers? text = some entries) (name : String) :
    lastValue? name entries = lastValue? name members := by
  obtain ⟨found, hfound, hlast⟩ := reads.read h
  rw [hfound] at hentries
  cases hentries
  exact hlast name

/-- A text has one last number for each name. -/
theorem lastValue?_unique (reads : json.Reads HasNumbers) (h : HasNumbers text members)
    (h' : HasNumbers text members') (name : String) :
    lastValue? name members = lastValue? name members' := by
  obtain ⟨entries, hentries, hlast⟩ := reads.read h
  rw [← hlast, reads.lastValue?_eq h' hentries]

end JsonLibrary.Reads

/-! ## The library of the commands -/

/-- A member of an object gives a number to a name, one that a float is read for. -/
structure NamesNumber (member : List Char × Json) (entry : String × Float) : Prop where
  name : Json.unescape? member.1 = some entry.1.toList
  value : member.2.float? = some entry.2

namespace Json

/-- A text is an object of numbers, with these names and values in order. -/
def HasNumbers (text : String) (entries : List (String × Float)) : Prop :=
  ∃ members, parse? text = some (.object members) ∧ List.Forall₂ NamesNumber members entries

theorem namesNumber_iff {member : List Char × Json} {entry : String × Float} :
    (do some (String.ofList (← unescape? member.1), ← member.2.float?)) = some entry ↔
      NamesNumber member entry := by
  obtain ⟨name, number⟩ := entry
  simp only [bind, Option.bind_eq_some_iff, Option.some.injEq, Prod.mk.injEq]
  constructor
  · intro h
    obtain ⟨chars, hchars, v, hv, hname, hnumber⟩ := h
    exact ⟨by rw [hchars, ← hname, String.toList_ofList], by rw [hv, hnumber]⟩
  · intro h
    exact ⟨name.toList, h.name, number, h.value, String.ofList_toList, rfl⟩

/-- A text gives bindings when it is an object of numbers. -/
theorem decode?_eq_some {text : String} {b : Bindings} :
    decode? Bindings.ofJson? text = some b ↔
      ∃ entries, HasNumbers text entries ∧ b = .ofList entries := by
  rw [decode?, Option.bind_eq_some_iff]
  constructor
  · intro h
    obtain ⟨form, hform, hb⟩ := h
    cases form with
    | object members =>
      simp only [levels, Bindings.ofJson?] at hb
      obtain ⟨entries, hentries, hb⟩ := Option.bind_eq_some_iff.1 hb
      cases hb
      exact ⟨entries,
        ⟨members, hform, (mapM_eq_some.1 hentries).imp fun _ _ => namesNumber_iff.1⟩, rfl⟩
    | _ => cases hb
  · intro h
    obtain ⟨entries, ⟨members, hmembers, hentries⟩, rfl⟩ := h
    refine ⟨.object members, hmembers, ?_⟩
    simp only [levels, Bindings.ofJson?]
    have hmapM := mapM_eq_some.2 (hentries.imp fun _ _ => namesNumber_iff.2)
    exact Option.bind_eq_some_iff.2 ⟨entries, hmapM, rfl⟩

/-- **The library of the commands reads objects of numbers.** -/
theorem reads_library : library.Reads HasNumbers where
  read := by
    intro text members hmembers
    refine ⟨(Bindings.ofList members).entries, ?_, fun name => ?_⟩
    · simp only [library, decode?_eq_some.2 ⟨members, hmembers, rfl⟩, Option.map_some]
    · rw [Bindings.lastValue?_entries, Bindings.get?_ofList]
  exists_members := by
    intro text entries hentries
    obtain ⟨b, hb, -⟩ := Option.map_eq_some_iff.1 hentries
    obtain ⟨members, hmembers, -⟩ := decode?_eq_some.1 hb
    exact ⟨members, hmembers⟩

end Json

end FlatQasm
