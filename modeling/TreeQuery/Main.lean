import TreeQuery.CommandLine.Run

/-!
# The program

The outer layer: it finds the text of the document, carries out the command line
and prints the report.
-/

namespace TreeQuery.CommandLine

/-- All lines of a stream after those that were read. -/
partial def readLines (stream : IO.FS.Stream) (before : String) : IO String := do
  let line ← stream.getLine
  if line.isEmpty then return before else readLines stream (before ++ line)

/-- Why a file cannot be read. -/
def fileError (error : IO.Error) : FileError :=
  match error with
  | .noFileOrDirectory .. => .missing
  | .permissionDenied .. => .forbidden
  | .inappropriateType _ number _ => if number = 21 then .directory else .notDirectory
  | .invalidArgument .. => .nameTooLong
  | _ => .other (toString error)

/-- The text of the document of a request, or the reason why there is none. -/
def readDocument (request : Request) : IO (Except FileError String) := do
  try
    match request.options.file with
    | some file => return .ok (← IO.FS.readFile file)
    | none => return .ok (← readLines (← IO.getStdin) "")
  catch error => return .error (fileError error)

end TreeQuery.CommandLine

open TreeQuery

/-- Carry out the command line. -/
def main (arguments : List String) : IO UInt32 := do
  let document ←
    match Arguments.parse arguments with
    | .ok request =>
        if request.needsDocument then CommandLine.readDocument request else pure (.ok "")
    | .error _ => pure (.ok "")
  let report := CommandLine.run arguments document
  IO.print report.output
  IO.eprint report.errors
  return UInt32.ofNat report.exitCode
