import FlatQasm.Bindings
import FlatQasm.Program.Expansion
import FlatQasm.Proofs.Lookup

/-!
# Looking up bindings

Bindings are the same when every name has the same value in both.  Values that are put in one after
another hide those that were there before, so that of several the last one counts.

## Main statements

* `Bindings.get?_insert` — a name that is given a value.
* `Bindings.get?_insertMany`, `Bindings.get?_ofList` — names that are given values in turn.
* `Bindings.ext_get?` — bindings with the same values.
-/

namespace FlatQasm

namespace Bindings

variable {b b' : Bindings}

theorem lookup_insertEntry (name : String) (value : Float) (entries : List (String × Float))
    (x : String) : (insertEntry name value entries).lookup x =
      if x = name then some value else entries.lookup x := by
  induction entries with
  | nil => simp [insertEntry, lookup_cons_eq_ite]
  | cons first rest ih =>
    obtain ⟨key, old⟩ := first
    by_cases hkey : name = key
    · by_cases h : x = key <;> simp [insertEntry, lookup_cons_eq_ite, hkey, h]
    · by_cases hlt : name < key
      · simp [insertEntry, lookup_cons_eq_ite, hkey, hlt]
      · by_cases h : x = key
        · have hne : key ≠ name := fun heq => hkey heq.symm
          simp [insertEntry, lookup_cons_eq_ite, hkey, hlt, h, hne]
        · simp [insertEntry, lookup_cons_eq_ite, hkey, hlt, h, ih]

/-- A name has the value that it is given; the other names keep theirs. -/
theorem get?_insert (b : Bindings) (name : String) (value : Float) (x : String) :
    (b.insert name value).get? x = if x = name then some value else b.get? x :=
  lookup_insertEntry name value b.entries x

/-- The last value of a name hides the one that it had. -/
@[simp] theorem get?_insertMany (b : Bindings) (pairs : List (String × Float)) (x : String) :
    (b.insertMany pairs).get? x = (lastValue? x pairs).or (b.get? x) := by
  induction pairs generalizing b with
  | nil => rfl
  | cons pair pairs ih =>
    obtain ⟨name, value⟩ := pair
    have hrest : (b.insertMany ((name, value) :: pairs)).get? x =
        (lastValue? x pairs).or ((b.insert name value).get? x) := ih (b.insert name value)
    have hlast : lastValue? x ((name, value) :: pairs) =
        (lastValue? x pairs).or (if x = name then some value else none) := by
      simp [lastValue?, List.lookup_append, lookup_cons_eq_ite]
    rw [hrest, hlast, get?_insert]
    by_cases h : x = name <;> simp [h]

@[simp] theorem get?_ofList (pairs : List (String × Float)) (x : String) :
    (ofList pairs).get? x = lastValue? x pairs := by
  rw [ofList, get?_insertMany]
  exact Option.or_none

/-- The names of entries are distinct. -/
theorem nodup_names (b : Bindings) : (b.entries.map Prod.fst).Nodup := by
  rw [List.Nodup, List.pairwise_map]
  refine b.sorted.imp ?_
  intro x y hlt heq
  rw [heq] at hlt
  exact String.lt_irrefl _ hlt

/-- The last value of a name among the entries is its only one. -/
theorem lastValue?_entries (b : Bindings) (x : String) : lastValue? x b.entries = b.get? x :=
  lookup_reverse b.nodup_names x

theorem mem_entries_iff {pair : String × Float} :
    pair ∈ b.entries ↔ b.get? pair.1 = some pair.2 :=
  ⟨lookup_eq_some_of_mem b.nodup_names, mem_of_lookup_eq_some⟩

/-- **Bindings are the same when every name has the same value in both.** -/
theorem ext_get? (h : ∀ x, b.get? x = b'.get? x) : b = b' := by
  have hmem : ∀ pair, pair ∈ b.entries ↔ pair ∈ b'.entries := by
    intro pair
    rw [mem_entries_iff, mem_entries_iff, h]
  have hperm : b.entries.Perm b'.entries :=
    (List.perm_ext_iff_of_nodup (b.nodup_names.of_map _) (b'.nodup_names.of_map _)).2 hmem
  have hentries : b.entries = b'.entries := by
    refine hperm.eq_of_pairwise ?_ b.sorted b'.sorted
    intro x y _ _ hxy hyx
    exact absurd (String.lt_trans hxy hyx) (String.lt_irrefl _)
  cases b
  cases b'
  cases hentries
  rfl

end Bindings

end FlatQasm
