import FlatQasm.Proofs.Lookup
import FlatQasm.Proofs.Storage.Lawful
import FlatQasm.Storage.Folder

/-!
# What access to a folder does

Reading leaves a folder as it is.  Writing puts a file at the place that the path leads to, whether
there was a file or not, and leaves every other file as it is; when the path leads to no such place
nothing is written.

## Main definitions

* `Folder.fileSystem` — the files of a folder, by their location.

## Main statements

* `Folder.get?_put` — the files of a folder behind a write.
* `Folder.get?_of_find` — what a path leads to is what the folder holds there.
* `Folder.lawful_storage` — access to a folder does what it should.
-/

namespace FlatQasm

namespace Folder

variable {folder : Folder} {path : String}

/-! ## Files -/

theorem lookup_filter_ne {location other : Location} (h : other ≠ location)
    (files : List (Location × ByteArray)) :
    (files.filter fun file => file.1 ≠ location).lookup other = files.lookup other := by
  induction files with
  | nil => rfl
  | cons file files ih =>
    rw [lookup_cons_eq_ite, ← ih, List.filter_cons]
    by_cases hfile : file.1 = location
    · simp [hfile, h]
    · simp [hfile, lookup_cons_eq_ite]

/-- A file that is put in a folder is there, and the other files are as they were. -/
theorem get?_put (folder : Folder) (location : Location) (content : ByteArray) (other : Location) :
    (folder.put location content).get? other =
      if other = location then some content else folder.get? other := by
  rw [get?, put, lookup_cons_eq_ite]
  by_cases h : other = location
  · simp [h]
  · rw [if_neg h, if_neg h, lookup_filter_ne h, get?]

/-! ## Paths -/

/-- The files of a folder, by their location. -/
def fileSystem : FileSystem Folder where
  Node := Location
  content? := get?
  Finds folder path location :=
    ∃ content, folder.find path false = .ok (.file location content)
  Leads folder path location :=
    (∃ content, folder.find path true = .ok (.file location content)) ∨
      folder.find path true = .ok (.vacant location)

theorem lookUp_eq_file {here location : Location} {name : String} {content : ByteArray}
    (h : folder.lookUp here name = .ok (.file location content)) :
    folder.get? location = some content := by
  simp only [lookUp] at h
  split at h
  · cases h
  · split at h
    · cases h
    · split at h
      · next hget =>
        cases h
        exact hget
      · cases h

/-- What a path leads to is what the folder holds there. -/
theorem get?_of_find {toWrite : Bool} {location : Location} {content : ByteArray}
    (h : folder.find path toWrite = .ok (.file location content)) :
    folder.get? location = some content := by
  simp only [find] at h
  split at h
  · cases h
  · split at h
    · cases h
    · split at h
      · split at h <;> cases h
      · next last _ =>
        obtain ⟨here, -, h⟩ := bind_eq_ok.1 h
        split at h
        · cases h
        · split at h
          · cases h
          · obtain ⟨place, hplace, h⟩ := bind_eq_ok.1 h
            split at h
            · next location' content' =>
              split at h
              · cases h
              · cases h
                exact lookUp_eq_file hplace
            · cases h
              exact lookUp_eq_file hplace

/-- There is a text at a path when the path leads to a file that holds it. -/
theorem readsText_iff {text : String} : fileSystem.ReadsText folder path text ↔
    ∃ location content, folder.find path false = .ok (.file location content) ∧
      String.fromUTF8? content = some text := by
  constructor
  · intro h
    obtain ⟨location, content, hfinds, hcontent, htext⟩ := h
    obtain ⟨content', hfind⟩ := hfinds
    have hget : folder.get? location = some content := hcontent
    rw [get?_of_find hfind] at hget
    cases hget
    exact ⟨location, content, hfind, htext⟩
  · intro h
    obtain ⟨location, content, hfind, htext⟩ := h
    exact ⟨location, content, ⟨content, hfind⟩, get?_of_find hfind, htext⟩

/-! ## Access -/

/-- Looking at what a path leads to leaves a folder as it is. -/
theorem look_apply {α : Type} (use : Folder → StateM Folder α) (folder : Folder) :
    (get >>= use : StateM Folder α) folder = use folder folder := rfl

theorem present_keeps (path : String) (folder : Folder) :
    ∃ found, storage.present path folder = (found, folder) := by
  simp only [storage, look_apply]
  cases folder.find path false with
  | error e => exact ⟨false, rfl⟩
  | ok place => cases place <;> exact ⟨_, rfl⟩

/-- There is something at a path at which there is a text. -/
theorem present_of_readsText {text : String} (h : fileSystem.ReadsText folder path text) :
    (storage.present path folder).1 = true := by
  obtain ⟨location, content, hfind, -⟩ := readsText_iff.1 h
  simp only [storage, look_apply, hfind]
  rfl

/-- What is read is what the path leads to, if that is a text. -/
theorem read_cases (path : String) (folder : Folder) :
    ∃ result, storage.read path folder = (result, folder) ∧
      ∀ text, result = .ok text ↔ fileSystem.ReadsText folder path text := by
  simp only [readsText_iff, storage, look_apply]
  cases hfind : folder.find path false with
  | error e => exact ⟨.error e, rfl, by simp⟩
  | ok place =>
    cases place with
    | directory => exact ⟨.error .isADirectory, rfl, by simp⟩
    | vacant location => exact ⟨.error .notFound, rfl, by simp⟩
    | file location content =>
      cases htext : String.fromUTF8? content with
      | none =>
        refine ⟨.error .notUtf8, ?_, by simp [htext]⟩
        simp only [htext]
        rfl
      | some text =>
        refine ⟨.ok text, ?_, by simp [htext]⟩
        simp only [htext]
        rfl

theorem write_of_leads {location : Location} (text : String)
    (h : fileSystem.Leads folder path location) :
    storage.write path text folder = (.ok (), folder.put location text.toUTF8) := by
  rcases h with ⟨content, hfind⟩ | hfind <;>
  · simp only [storage, look_apply, hfind]
    rfl

theorem write_of_not_leads (text : String)
    (h : ∀ location, ¬ fileSystem.Leads folder path location) :
    ∃ cause, storage.write path text folder = (.error cause, folder) := by
  simp only [storage, look_apply]
  cases hfind : folder.find path true with
  | error e => exact ⟨e, rfl⟩
  | ok place =>
    cases place with
    | directory => exact ⟨.isADirectory, rfl⟩
    | vacant location => exact absurd (.inr hfind) (h location)
    | file location content => exact absurd (.inl ⟨content, hfind⟩) (h location)

/-- **Access to a folder is lawful.** -/
theorem lawful_storage : storage.Lawful fileSystem where
  present_keeps := present_keeps
  present_of_readsText := present_of_readsText
  read_keeps := by
    intro path folder
    obtain ⟨result, hread, -⟩ := read_cases path folder
    exact ⟨result, hread⟩
  read_eq_ok := by
    intro path text folder
    obtain ⟨result, hread, hresult⟩ := read_cases path folder
    rw [hread, hresult]
  write_of_leads := by
    intro path folder location text hleads
    refine ⟨_, write_of_leads text hleads, ?_, ?_⟩
    · exact (folder.get?_put location _ location).trans (if_pos rfl)
    · intro other hother
      exact (folder.get?_put location _ other).trans (if_neg hother)
  write_of_not_leads := fun text h => write_of_not_leads text h

end Folder

end FlatQasm
