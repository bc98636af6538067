/-!
# Files

What a command can see of the files: a tree of directories with named entries, and
a directory in it that is the working directory.  It is a value, so what a command
does to its documents can be said without reading from a disk.

The name of a file is read part by part, with slashes between the parts.  It starts
at the root if it starts with a slash, and at the working directory otherwise.
Every part must be looked up in a directory, a part of no characters too, so a slash
after the name of a file is an error.
-/

namespace TreeQuery

/-- Why a file cannot be read. -/
inductive FileError where
  /-- There is no such file. -/
  | missing
  /-- The file is not open to the reader. -/
  | forbidden
  /-- Something that is no directory is used as one. -/
  | notDirectory
  /-- The name stands for a directory. -/
  | directory
  /-- The name is too long. -/
  | nameTooLong
  /-- Another reason, in words. -/
  | other (words : String)
deriving DecidableEq, Repr

/-- The error in words, with the number that the system has for it. -/
def FileError.message : FileError → String
  | .missing => "No such file or directory (os error 2)"
  | .forbidden => "Permission denied (os error 13)"
  | .notDirectory => "Not a directory (os error 20)"
  | .directory => "Is a directory (os error 21)"
  | .nameTooLong => "File name too long (os error 36)"
  | .other words => words

/-- What a name in a directory stands for. -/
inductive FileEntry where
  /-- A file with its text. -/
  | file (text : String)
  /-- A directory with its entries. -/
  | directory (entries : List (String × FileEntry))
deriving Repr

/-- The entry below an entry that some names lead to, one after the other. -/
def FileEntry.below? : FileEntry → List String → Option FileEntry
  | entry, [] => some entry
  | .file _, _ :: _ => none
  | .directory entries, name :: rest =>
      (entries.lookup name).bind fun entry => entry.below? rest
termination_by structural _ names => names

/-- Files and directories, as a command sees them. -/
structure FileTree where
  /-- The root of all names. -/
  root : FileEntry
  /-- The names that lead from the root to the working directory. -/
  workingDirectory : List String
deriving Repr

namespace FileTree

/-- The number of bytes that one part of a name may have. -/
def partLimit : Nat := 255

/-- The number of bytes that a whole name may have. -/
def nameLimit : Nat := 4095

/-- Go on from a place by the parts of a name.  A place is given by the names that
lead to it from the root. -/
def walk (files : FileTree) : (place parts : List String) → Except FileError (List String)
  | place, [] => .ok place
  | place, part :: rest =>
      match files.root.below? place with
      | some (.directory entries) =>
          if part = "" ∨ part = "." then files.walk place rest
          else if part = ".." then files.walk place.dropLast rest
          else if partLimit < part.utf8ByteSize then .error .nameTooLong
          else if (entries.lookup part).isSome then files.walk (place ++ [part]) rest
          else .error .missing
      | _ => .error .notDirectory

/-- The parts of a name between its slashes. -/
def parts : List Char → List (List Char)
  | [] => [[]]
  | c :: rest =>
      if c = '/' then [] :: parts rest
      else
        match parts rest with
        | [] => [[c]]
        | first :: others => (c :: first) :: others

/-- The text of a file. -/
def read (files : FileTree) (name : String) : Except FileError String := do
  if nameLimit < name.utf8ByteSize then throw .nameTooLong
  let start := if name.toList.head? = some '/' then [] else files.workingDirectory
  let place ← files.walk start ((parts name.toList).map String.ofList)
  match files.root.below? place with
  | some (.file text) => pure text
  | some (.directory _) => throw .directory
  | none => throw .missing

end FileTree

example : (FileTree.read ⟨.directory [("a", .file "x")], []⟩ "./../a").toOption = some "x" := by
  decide +kernel
/-- A slash makes a file a directory, which it is not. -/
example : (match FileTree.read ⟨.directory [("a", .file "x")], []⟩ "/a/" with
    | .ok _ => none
    | .error error => some error) = some .notDirectory := by decide +kernel

end TreeQuery
