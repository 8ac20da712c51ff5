import Relief.Command.Invocation

/-!
# Help texts

What is printed when help is asked for: how a command is called, and a table of what it takes.
-/

namespace Relief.Command

/-- The name under which the commands are called. -/
def program : String := "normal-depth"

/-- The version of the program. -/
def release : String := "0.1.0"

namespace Help

/-- A row of a table: what is written, and what it is for. -/
structure Row where
  entry : String
  purpose : String

/-- The rows of a table, with all purposes in one column. -/
def table (rows : List Row) : List String :=
  let width := rows.foldl (fun width r => max width r.entry.length) 0
  rows.map fun r =>
    "  " ++ r.entry ++ String.ofList (List.replicate (width - r.entry.length + 2) ' ') ++ r.purpose

/-- Lines of text, each of them ended. -/
def lines (ls : List String) : String :=
  String.join (ls.map (· ++ "\n"))

/-- What a command does. -/
def purpose : Name → String
  | .reconstruct => "Reconstruct a depth map PNG from a normal map PNG"
  | .gradient => "Write the intermediate gradient field as a PNG"
  | .shader => "Print the WGSL of the gradient-extraction program"

/-- What asking for help does. -/
def purposeOfHelp : String :=
  "Print this message or the help of the given subcommand(s)"

/-- The row for asking for help. -/
def helpRow : Row :=
  ⟨"-h, --help", "Print help"⟩

/-- How a switch is written. -/
def usage (s : Switch) : String :=
  match s.placeholder with
  | none => "--" ++ s.name
  | some placeholder => "--" ++ s.name ++ " <" ++ placeholder ++ ">"

/-- The row of a switch. -/
def row (s : Switch) : Row where
  entry := "    " ++ usage s
  purpose :=
    let standard := match s.standard with
      | none => ""
      | some standard => " [default: " ++ standard ++ "]"
    let choices := if s.choices.isEmpty then ""
      else " [possible values: " ++ ", ".intercalate s.choices ++ "]"
    s.purpose ++ standard ++ choices

/-- How a command is called. -/
def call (name : Name) : String :=
  let required := name.switches.filter Switch.required
  " ".intercalate ([program, name.text, "[OPTIONS]"] ++ required.map usage)

/-- Help with a command. -/
def ofCommand (name : Name) : String :=
  lines ([purpose name, "", "Usage: " ++ call name, "", "Options:"]
    ++ table (name.switches.map row ++ [helpRow]))

/-- Help with all commands. -/
def ofProgram : String :=
  let commands := Name.all.map fun name => ⟨name.text, purpose name⟩
  lines (["Usage: " ++ program ++ " <COMMAND>", "", "Commands:"]
    ++ table (commands ++ [⟨"help", purposeOfHelp⟩])
    ++ ["", "Options:"] ++ table [helpRow, ⟨"-V, --version", "Print version"⟩])

/-- Help with asking for help. -/
def ofHelp : String :=
  lines ([purposeOfHelp, "", "Usage: " ++ program ++ " help [COMMAND]...", "", "Arguments:"]
    ++ table [⟨"[COMMAND]...", "Print help for the subcommand(s)"⟩])

/-- Help with a command, or with all of them. -/
def text : Option Name → String
  | none => ofProgram
  | some name => ofCommand name

end Help

end Relief.Command
