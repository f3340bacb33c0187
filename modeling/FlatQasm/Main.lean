import FlatQasm.Command.Run

/-!
# The program

The command line on the files of the system.
-/

namespace FlatQasm

/-- A system error as a file error. -/
def FileError.ofSystem : IO.Error → FileError
  | .noFileOrDirectory _ _ _ | .noSuchThing _ _ _ => .notFound
  | .inappropriateType _ 21 _ => .isADirectory
  | .inappropriateType _ 20 _ => .notADirectory
  | .invalidArgument _ 36 _ => .nameTooLong
  | e => .other (toString e)

/-- Access to the files of the system. -/
def systemStorage : Storage IO where
  present path := do
    try
      let _ ← IO.FS.Handle.mk path .read
      pure true
    catch e =>
      match FileError.ofSystem e with
      | .notFound | .notADirectory | .nameTooLong => pure false
      | _ => pure true
  read path := do
    try
      match String.fromUTF8? (← IO.FS.readBinFile path) with
      | some text => pure (.ok text)
      | none => pure (.error .notUtf8)
    catch e => pure (.error (.ofSystem e))
  write path text := do
    try
      IO.FS.writeFile path text
      pure (.ok ())
    catch e => pure (.error (.ofSystem e))

end FlatQasm

/-- Runs the command line. -/
def main (args : List String) : IO UInt32 := do
  let outcome ← FlatQasm.runArguments FlatQasm.systemStorage args
  IO.print outcome.output
  IO.eprint outcome.errorText
  pure outcome.exitCode
