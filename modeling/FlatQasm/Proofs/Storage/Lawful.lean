import FlatQasm.File
import FlatQasm.Proofs.Outcome

/-!
# What is expected of access to files

A `Storage` says how files are accessed, and nothing of what is in them.  What there is to know is
in a `FileSystem` beside it: files have a content, and paths lead to files.  A path may lead to a
file that can be read and not written, or the other way round, and several paths to the same file.

Access is lawful when it does what its documentation says: looking and reading leave everything as
it is, a file is read when it is a text, and a text that can be written becomes the whole content
of one file.  A write that breaks off on its way is not lawful.

## Main definitions

* `FileSystem` — contents of files, and what paths lead to.
* `FileSystem.ReadsText` — a path at which there is a text.
* `FileSystem.Written` — what changes when a text is written.
* `Storage.Lawful` — access that does what it should.

## Main statements

* `Storage.Lawful.read_cases`, `Storage.Lawful.write_cases` — what comes of reading and writing.
-/

namespace FlatQasm

/-- What there is to know of the files in a state. -/
structure FileSystem (σ : Type) where
  /-- Files, or places where one can be. -/
  Node : Type
  /-- The content of a file. -/
  content? : σ → Node → Option ByteArray
  /-- The path leads to a file that can be read. -/
  Finds : σ → (path : String) → Node → Prop
  /-- The path leads to a file that can be written, or to where one can be made. -/
  Leads : σ → (path : String) → Node → Prop

namespace FileSystem

variable {σ : Type} (fs : FileSystem σ)

/-- There is a file at a path that can be read, and it holds a text. -/
def ReadsText (s : σ) (path text : String) : Prop :=
  ∃ node content, fs.Finds s path node ∧ fs.content? s node = some content ∧
    String.fromUTF8? content = some text

/-- A text becomes the content of one file, and all others are as they were. -/
structure Written (s after : σ) (node : fs.Node) (text : String) : Prop where
  content : fs.content? after node = some text.toUTF8
  others : ∀ other, other ≠ node → fs.content? after other = fs.content? s other

end FileSystem

namespace Storage

variable {σ : Type}

/-- Access to files that does what it should. -/
structure Lawful (st : Storage (StateM σ)) (fs : FileSystem σ) : Prop where
  /-- Looking leaves everything as it is. -/
  present_keeps : ∀ path s, ∃ found, st.present path s = (found, s)
  /-- What can be read is there. -/
  present_of_readsText : ∀ {path text s}, fs.ReadsText s path text → (st.present path s).1 = true
  /-- Reading leaves everything as it is. -/
  read_keeps : ∀ path s, ∃ result, st.read path s = (result, s)
  /-- What is read is the text of the file, and anything else is refused. -/
  read_eq_ok : ∀ {path text s}, (st.read path s).1 = .ok text ↔ fs.ReadsText s path text
  /-- A text is written where the path leads. -/
  write_of_leads : ∀ {path s node} (text : String), fs.Leads s path node →
    ∃ after, st.write path text s = (.ok (), after) ∧ fs.Written s after node text
  /-- Nothing is written when the path leads nowhere. -/
  write_of_not_leads : ∀ {path s} (text : String), (∀ node, ¬ fs.Leads s path node) →
    ∃ cause, st.write path text s = (.error cause, s)

namespace Lawful

variable {st : Storage (StateM σ)} {fs : FileSystem σ} {s : σ} {path text : String}

theorem present_eq_true (lawful : st.Lawful fs) (h : fs.ReadsText s path text) :
    st.present path s = (true, s) := by
  obtain ⟨found, hfound⟩ := lawful.present_keeps path s
  have htrue : found = true := by simpa [hfound] using lawful.present_of_readsText h
  rw [hfound, htrue]

/-- A file holds one text. -/
theorem readsText_unique (lawful : st.Lawful fs) {text' : String} (h : fs.ReadsText s path text)
    (h' : fs.ReadsText s path text') : text = text' :=
  Except.ok.inj ((lawful.read_eq_ok.2 h).symm.trans (lawful.read_eq_ok.2 h'))

/-- Either there is a text at a path, and it is read, or reading fails. -/
theorem read_cases (lawful : st.Lawful fs) (s : σ) (path : String) :
    (∃ text, fs.ReadsText s path text ∧ st.read path s = (.ok text, s)) ∨
      (∀ text, ¬ fs.ReadsText s path text) ∧ ∃ cause, st.read path s = (.error cause, s) := by
  obtain ⟨result, hread⟩ := lawful.read_keeps path s
  cases result with
  | ok text => exact .inl ⟨text, lawful.read_eq_ok.1 (by rw [hread]), hread⟩
  | error cause =>
    refine .inr ⟨fun text htext => ?_, cause, hread⟩
    have hok := lawful.read_eq_ok.2 htext
    rw [hread] at hok
    cases hok

/-- Either a file can be written at a path, and it is, or writing fails. -/
theorem write_cases (lawful : st.Lawful fs) (s : σ) (path text : String) :
    (∃ node after, fs.Leads s path node ∧ st.write path text s = (.ok (), after) ∧
        fs.Written s after node text) ∨
      (∀ node, ¬ fs.Leads s path node) ∧ ∃ cause, st.write path text s = (.error cause, s) := by
  by_cases h : ∃ node, fs.Leads s path node
  · obtain ⟨node, hleads⟩ := h
    obtain ⟨after, hwrite, hwritten⟩ := lawful.write_of_leads text hleads
    exact .inl ⟨node, after, hleads, hwrite, hwritten⟩
  · push Not at h
    exact .inr ⟨h, lawful.write_of_not_leads text h⟩

end Lawful

end Storage

end FlatQasm
