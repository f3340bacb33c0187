import FlatQasm.Circuit.Export
import FlatQasm.Program.Import
import FlatQasm.Storage.Basic

/-!
# Circuits in files

## Main definitions

* `LoadError`, `SaveError` — why a circuit is not read or written.
* `Storage.importCircuit`, `Storage.exportCircuit` — circuits from and to files.
-/

namespace FlatQasm

/-- Why a file gives no circuit. -/
inductive LoadError where
  | unreadable (path : String) (cause : FileError)
  | invalid (cause : ImportError)

/-- The wording of a load error. -/
def LoadError.message : LoadError → String
  | .unreadable path cause => "Failed to read '" ++ path ++ "': " ++ cause.message
  | .invalid cause => cause.message

/-- Why a circuit is not written. -/
inductive SaveError where
  | noText (cause : ExportError)
  | unwritable (path : String) (cause : FileError)

/-- The wording of a save error. -/
def SaveError.message : SaveError → String
  | .noText cause => cause.message
  | .unwritable path cause => "Failed to write '" ++ path ++ "': " ++ cause.message

/-- How a circuit is exported. -/
structure ExportOptions where
  /-- The values of the free variables. -/
  bindings : Bindings
  /-- Whether Y-basis gates are removed. -/
  dropY : Bool
  /-- The file that the text is written to. -/
  output : Option String

namespace Storage

variable {m : Type → Type} [Monad m]

/-- The circuit of a file. -/
def importCircuit (st : Storage m) (path : String) (rule : HeaderRule) :
    m (Except LoadError Circuit) := do
  match ← st.read path with
  | .error cause => pure (.error (.unreadable path cause))
  | .ok source => pure ((Circuit.ofSource source rule).mapError .invalid)

/-- The text of a circuit, which is also written to a file if one is wanted.  Nothing is written
when there is no text. -/
def exportCircuit (st : Storage m) (c : Circuit) (options : ExportOptions) :
    m (Except SaveError String) := do
  match c.exportText options.bindings options.dropY with
  | .error cause => pure (.error (.noText cause))
  | .ok text =>
    match options.output with
    | none => pure (.ok text)
    | some path =>
      match ← st.write path text with
      | .error cause => pure (.error (.unwritable path cause))
      | .ok () => pure (.ok text)

end Storage

end FlatQasm
