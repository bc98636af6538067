import TreeQuery.CommandLine.Basic

/-!
# Help

The texts that explain the command line.  A help text has a summary, a usage line
and tables.  A table has two columns, and the second one starts two spaces after
the longest entry of the first.

`usage` shows what may stand where: what is in angle brackets must be given, what
is in square brackets may be left out, and dots stand for more of the same.
-/

namespace TreeQuery

/-- What a help text is about. -/
inductive HelpTopic where
  /-- The program as a whole. -/
  | program
  /-- One command. -/
  | command (verb : Verb)
  /-- The command that gives help. -/
  | help
deriving DecidableEq, Repr

namespace Help

/-- The name of the program. -/
def programName : String := "treepath"

/-- The version of the program. -/
def version : String := "0.1.0"

/-- A row of a table: an entry and what is said about it. -/
abbrev Row := String × String

/-- The rows of a table as lines. -/
def table (rows : List Row) : String :=
  let width := rows.foldl (fun width row => max width row.1.length) 0
  let line (row : Row) : String :=
    "  " ++ row.1 ++ String.ofList (List.replicate (width - row.1.length + 2) ' ') ++ row.2 ++ "\n"
  String.join (rows.map line)

/-- What a command does. -/
def summary : Verb → String
  | .get => "Print every value the path addresses as a JSON array"
  | .count => "Print how many values the path addresses"
  | .set => "Overwrite addressed values and print the resulting document"
  | .remove => "Remove addressed values and print the resulting document"
  | .insert => "Insert values into addressed lists and print the resulting document"
  | .parse => "Parse a path and print its nodes"

/-- What the command that gives help does. -/
def helpSummary : String := "Print this message or the help of the given subcommand(s)"

/-- The operands of the command that gives help. -/
def helpOperands : List Row := [("[COMMAND]...", "Print help for the subcommand(s)")]

/-- The operands of a command. -/
def operands (verb : Verb) : List Row :=
  ("<PATH>", "Path expression") ::
    match verb with
    | .set => [("<VALUE>", "Value literal, e.g. \x60\x7bid:\"a\",n:1\x7d\x60")]
    | .insert =>
        [("<INDEX>", "Insert position; negative counts from the end"),
          ("<VALUES>...", "Value literals to insert")]
    | .get | .count | .remove | .parse => []

/-- The options that every command has. -/
def options : List Row :=
  [("-f, --file <FILE>",
      "JSON file containing the input tree (reads from stdin if not provided)"),
    ("-p, --pretty", "Pretty-print JSON output"),
    ("    --error-format <ERROR_FORMAT>",
      "Format used to report path errors [default: text] [possible values: text, compact, json]"),
    ("-h, --help", "Print help")]

/-- The usage line of a topic. -/
def usage : HelpTopic → String
  | .program => s!"Usage: {programName} [OPTIONS] <COMMAND>\n"
  | .command verb =>
      let written := ["[OPTIONS]"] ++ (operands verb).map Prod.fst
      s!"Usage: {programName} {verb.name} " ++ " ".intercalate written ++ "\n"
  | .help => s!"Usage: {programName} help " ++ " ".intercalate (helpOperands.map Prod.fst) ++ "\n"

/-- The help text of a topic. -/
def text : HelpTopic → String
  | .program =>
      let commands := Verb.all.map (fun verb => (verb.name, summary verb)) ++
        [("help", helpSummary)]
      "Read and modify JSON documents with path expressions\n\n" ++ usage .program ++
        "\nCommands:\n" ++ table commands ++
        "\nOptions:\n" ++ table (options ++ [("-V, --version", "Print version")])
  | .command verb =>
      summary verb ++ "\n\n" ++ usage (.command verb) ++
        "\nArguments:\n" ++ table (operands verb) ++ "\nOptions:\n" ++ table options
  | .help => helpSummary ++ "\n\n" ++ usage .help ++ "\nArguments:\n" ++ table helpOperands

/-- The line that tells the version. -/
def versionLine : String := s!"{programName} {version}\n"

example : usage (.command .insert)
    = "Usage: treepath insert [OPTIONS] <PATH> <INDEX> <VALUES>...\n" := by decide +kernel
example : table [("a", "one"), ("bcd", "two")] = "  a    one\n  bcd  two\n" := by decide +kernel

end Help

end TreeQuery
