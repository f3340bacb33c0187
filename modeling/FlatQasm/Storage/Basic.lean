/-!
# Access to files

Reading and writing go through a `Storage`, which any monad can provide: the files of the system
are one, a folder in memory is another.

## Main definitions

* `FileError` — why a file cannot be read or written.
* `Storage` — access to files.
-/

namespace FlatQasm

/-- Why a file cannot be read or written. -/
inductive FileError where
  | notFound
  | notADirectory
  | isADirectory
  | nameTooLong
  | notUtf8
  | nulInName
  | other (text : String)
deriving DecidableEq

/-- The wording of a file error. -/
def FileError.message : FileError → String
  | .notFound => "No such file or directory (os error 2)"
  | .notADirectory => "Not a directory (os error 20)"
  | .isADirectory => "Is a directory (os error 21)"
  | .nameTooLong => "File name too long (os error 36)"
  | .notUtf8 => "stream did not contain valid UTF-8"
  | .nulInName => "file name contained an unexpected NUL byte"
  | .other text => text

/-- Access to files. -/
structure Storage (m : Type → Type) where
  /-- Whether there is a file or directory at a path. -/
  present : (path : String) → m Bool
  /-- The text of a file. -/
  read : (path : String) → m (Except FileError String)
  /-- Makes a text the whole content of a file, which is created if need be. -/
  write : (path text : String) → m (Except FileError Unit)

end FlatQasm
