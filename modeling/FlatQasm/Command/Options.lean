/-!
# Options on a command line

An option has a long name behind two hyphens and may have a letter behind one.  Letters can be
joined behind one hyphen.  The value of an option is the rest of its word, behind an equals sign
or, for a letter, directly, or else the next word, which must not look like an option.

## Main definitions

* `OptionSpec` — an option that is known.
* `Occurrence` — an option as it is given.
* `scanOptions` — the options at the front of a command line.
-/

namespace FlatQasm

/-- What an option takes, and whether it may be given more than once. -/
inductive OptionKind where
  | flag
  | repeatedFlag
  | value
  | repeatedValue
deriving DecidableEq

/-- An option that is known. -/
structure OptionSpec where
  name : String
  letter : Option Char
  kind : OptionKind

/-- Whether an option takes a value. -/
def OptionSpec.takesValue (spec : OptionSpec) : Bool :=
  spec.kind = .value || spec.kind = .repeatedValue

/-- Whether an option may be given more than once. -/
def OptionSpec.repeats (spec : OptionSpec) : Bool :=
  spec.kind = .repeatedFlag || spec.kind = .repeatedValue

/-- An option as it is given; the value of a flag is empty. -/
structure Occurrence where
  name : String
  value : String
deriving DecidableEq

/-- Options with the words behind them. -/
structure Scanned where
  options : List Occurrence
  /-- The words from the first one on that is no option. -/
  rest : List String
  /-- Whether two hyphens alone ended the options. -/
  closed : Bool

/-- The value that a word is for the option before it, unless it looks like an option. -/
def separateValue? (word : String) : Option String :=
  if word.toList.head? = some '-' ∧ word ≠ "-" then none else some word

/-- What a cluster of letters gives: flags, and perhaps an option that has its value in the rest
of the word or, when that is empty, waits for the next word. -/
structure Cluster where
  options : List Occurrence
  waiting : Option String

/-- The options of letters behind one hyphen.  An option in `last` ends them. -/
def scanCluster (specs : List OptionSpec) (last : List String) : List Char → Option Cluster
  | [] => some ⟨[], none⟩
  | c :: rest => do
    let spec ← specs.find? fun spec => spec.letter == some c
    if last.contains spec.name then some ⟨[⟨spec.name, ""⟩], none⟩
    else if spec.takesValue then
      match rest with
      | [] => some ⟨[], some spec.name⟩
      | '=' :: value => some ⟨[⟨spec.name, String.ofList value⟩], none⟩
      | value => some ⟨[⟨spec.name, String.ofList value⟩], none⟩
    else
      let others ← scanCluster specs last rest
      some { others with options := ⟨spec.name, ""⟩ :: others.options }

/-- The option of a long name, with a value if an equals sign is in the word. -/
def scanLong (specs : List OptionSpec) (word : List Char) : Option Cluster := do
  let name := String.ofList (word.takeWhile (· ≠ '='))
  let spec ← specs.find? fun spec => spec.name == name
  match word.dropWhile (· ≠ '='), spec.takesValue with
  | [], true => some ⟨[], some name⟩
  | [], false => some ⟨[⟨name, ""⟩], none⟩
  | _ :: value, true => some ⟨[⟨name, String.ofList value⟩], none⟩
  | _ :: _, false => none

/-- The options at the front of a command line.  There are none when an option is not known or
lacks its value.  An option in `last` ends the scan: what stands behind it does not matter. -/
def scanOptions (specs : List OptionSpec) (last : List String) :
    (waiting : Option String) → List String → Option Scanned
  | none, [] => some ⟨[], [], false⟩
  | some _, [] => none
  | some name, word :: words => do
    let value ← separateValue? word
    let scanned ← scanOptions specs last none words
    some { scanned with options := ⟨name, value⟩ :: scanned.options }
  | none, word :: words => do
    let cluster? := match word.toList with
      | '-' :: '-' :: [] => none
      | '-' :: '-' :: long => some (scanLong specs long)
      | '-' :: [] => none
      | '-' :: letters => some (scanCluster specs last letters)
      | _ => none
    match cluster? with
    | none =>
      if word = "--" then some ⟨[], words, true⟩ else some ⟨[], word :: words, false⟩
    | some cluster => do
      let cluster ← cluster
      if cluster.options.any fun o => last.contains o.name then
        some ⟨cluster.options, [], false⟩
      else
        let scanned ← scanOptions specs last cluster.waiting words
        some { scanned with options := cluster.options ++ scanned.options }

/-- Whether no option is given more often than it may be. -/
def repeatsAllowed (specs : List OptionSpec) (options : List Occurrence) : Bool :=
  specs.all fun spec => spec.repeats || options.countP (·.name == spec.name) ≤ 1

/-- Whether an option is given. -/
def given (name : String) (options : List Occurrence) : Bool := options.any (·.name == name)

/-- The values of an option, in order. -/
def valuesOf (name : String) (options : List Occurrence) : List String :=
  (options.filter (·.name == name)).map Occurrence.value

end FlatQasm
