import FlatQasm.Blank
import FlatQasm.Decimal.Numeral

/-!
# Bindings on the command line

A binding is written `NAME=VALUE`, with blanks allowed around both parts.
-/

namespace FlatQasm

/-- Why an argument is no binding. -/
inductive BindingError where
  | noEqualsSign (arg : String)
  | noName (arg : String)
  | invalidValue (name : String) (cause : Decimal.ReadError)
deriving DecidableEq

/-- The wording of a binding error. -/
def BindingError.message : BindingError → String
  | .noEqualsSign arg => "expected NAME=VALUE, got '" ++ arg ++ "'"
  | .noName arg => "missing variable name in '" ++ arg ++ "'"
  | .invalidValue name cause => "invalid value for '" ++ name ++ "': " ++ cause.message

/-- The name and the value of a binding.  The first equals sign parts them. -/
def parseBinding (arg : String) : Except BindingError (String × Float) :=
  let front := arg.toList.takeWhile (· ≠ '=')
  match arg.toList.drop front.length with
  | [] => .error (.noEqualsSign arg)
  | _ :: back =>
    let name := String.ofList (trimBlank front)
    if name.isEmpty then .error (.noName arg)
    else
      match Decimal.read (trimBlank back) with
      | .ok value => .ok (name, value)
      | .error cause => .error (.invalidValue name cause)

end FlatQasm
