import FlatQasm.Storage.Basic

/-!
# Files in memory

A `Folder` holds files in memory: what a program does to files can be computed and reasoned about
there.  A path is followed part by part from the working directory, or from the top when a slash
comes first.  Of what lies outside the working directory only this much is known: the directories
that lead up from it are there, and a file can be made in them.

## Main definitions

* `Location` — where a file is.
* `Folder` — files in memory, by their location.
* `Folder.find` — what a path leads to.
* `Folder.storage` — access to a folder.
-/

namespace FlatQasm

/-- The length in bytes up to which a name can be looked up. -/
def longestName : Nat := 255

/-- The length in bytes up to which a path can be followed. -/
def longestPath : Nat := 4095

/-- The names on the way to a file or directory.  It starts at the working directory, where each
leading `..` goes up once, or with `/` at the top. -/
abbrev Location := List String

namespace Location

/-- The directory above a directory; at the top it is the directory itself. -/
def up (here : Location) : Location :=
  if here = ["/"] then here
  else if here.all (· = "..") then here ++ [".."]
  else here.dropLast

/-- Whether a location is the working directory, one above it, or the top. -/
def leadsUp (here : Location) : Bool := here.all fun name => name = ".." || name = "/"

/-- Whether a location is the working directory or below it. -/
def isInside (here : Location) : Bool := here.head? ≠ some ".." && here.head? ≠ some "/"

end Location

/-- Files by their location.  The directories are those on the way to a file, and those that
lead up. -/
structure Folder where
  files : List (Location × ByteArray)

/-- What a path leads to. -/
inductive Place where
  | directory
  | file (location : Location) (content : ByteArray)
  /-- Nothing, in a directory that is there. -/
  | vacant (location : Location)

namespace Folder

/-- The content of a file. -/
def get? (folder : Folder) (location : Location) : Option ByteArray :=
  folder.files.lookup location

/-- Whether a location is a directory. -/
def isDirectory (folder : Folder) (location : Location) : Bool :=
  location.leadsUp ||
    folder.files.any fun (file, _) => location.isPrefixOf file && location ≠ file

/-- What a name leads to from a directory. -/
def lookUp (folder : Folder) (here : Location) (name : String) : Except FileError Place :=
  let there := here ++ [name]
  if longestName < name.utf8ByteSize then .error .nameTooLong
  else if folder.isDirectory there then .ok .directory
  else
    match folder.get? there with
    | some content => .ok (.file there content)
    | none => .ok (.vacant there)

/-- The directory that a part of a path leads to from a directory. -/
def enter (folder : Folder) (here : Location) (part : String) : Except FileError Location :=
  if part = "." then .ok here
  else if part = ".." then .ok here.up
  else
    match folder.lookUp here part with
    | .ok .directory => .ok (here ++ [part])
    | .ok (.file _ _) => .error .notADirectory
    | .ok (.vacant _) => .error .notFound
    | .error e => .error e

/-- What a path leads to.  All its parts but the last have to be directories, and with a slash at
its end the last one too, so that nothing can be made there: for a path that is to be written the
slash counts before the name is looked up. -/
def find (folder : Folder) (path : String) (toWrite : Bool) : Except FileError Place :=
  let start : Location := if path.toList.head? = some '/' then ["/"] else []
  let slashAtEnd := path.toList.getLast? = some '/'
  let parts := (path.splitOn "/").filter (· ≠ "")
  if '\x00' ∈ path.toList then .error .nulInName
  else if longestPath < path.utf8ByteSize then .error .nameTooLong
  else
    match parts.getLast? with
    | none => if slashAtEnd then .ok .directory else .error .notFound
    | some last => do
      let here ← parts.dropLast.foldlM folder.enter start
      if last = "." ∨ last = ".." then .ok .directory
      else if toWrite ∧ slashAtEnd then .error .isADirectory
      else
        match ← folder.lookUp here last with
        | .file location content =>
          if slashAtEnd then .error .notADirectory else .ok (.file location content)
        | place => .ok place

/-- The folder with a file of the given content. -/
def put (folder : Folder) (location : Location) (content : ByteArray) : Folder :=
  ⟨(location, content) :: folder.files.filter fun file => file.1 ≠ location⟩

/-- Access to a folder in memory. -/
def storage : Storage (StateM Folder) where
  present path := do
    match (← get).find path false with
    | .ok (.file _ _) | .ok .directory => pure true
    | _ => pure false
  read path := do
    match (← get).find path false with
    | .ok (.file _ content) =>
      match String.fromUTF8? content with
      | some text => pure (.ok text)
      | none => pure (.error .notUtf8)
    | .ok .directory => pure (.error .isADirectory)
    | .ok (.vacant _) => pure (.error .notFound)
    | .error e => pure (.error e)
  write path text := do
    match (← get).find path true with
    | .ok (.file location _) | .ok (.vacant location) =>
      modify fun folder => folder.put location text.toUTF8
      pure (.ok ())
    | .ok .directory => pure (.error .isADirectory)
    | .error e => pure (.error e)

/-- The location that the parts of a path spell out from the working directory. -/
def locate (path : String) : Location :=
  (path.splitOn "/").filter fun part => part ≠ "" ∧ part ≠ "."

/-- The folder with files at the given paths. -/
def ofList (files : List (String × ByteArray)) : Folder :=
  files.foldl (fun folder (path, content) => folder.put (locate path) content) ⟨[]⟩

/-- The files inside the working directory that are not in an earlier folder with the same content,
by their path. -/
def changedSince (folder earlier : Folder) : List (String × ByteArray) :=
  (folder.files.filter fun (location, content) =>
    location.isInside && earlier.get? location != some content).map
      fun (location, content) => ("/".intercalate location, content)

end Folder

end FlatQasm
