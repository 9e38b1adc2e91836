/-!
# Help texts of the generator
-/

namespace ParserGen.Help

/-- The version of the command. -/
def versionNumber : String := "0.0.0-dev"

/-- The version together with the name of the command. -/
def version (program : String) : String :=
  program ++ " " ++ versionNumber ++ "\n"

/-- How the command is called. -/
def usage (program : String) : String :=
  "Usage: " ++ program ++ " [OPTIONS] <INPUT>\n"

/-- The answer to a call that is no use of the command. -/
def misuse (program : String) : String :=
  "error: invalid arguments\n\n" ++ usage program ++ "\nFor more information, try '--help'.\n"

/-- The options, each on a line of its own. -/
def short (program : String) : String :=
  usage program ++ "
Arguments:
  <INPUT>  The path of grammar definition file

Options:
      --debug             Write the annotated parse table (parse_table.txt) instead of the loadable
                          one (parse_table.json)
  -D, --dfa               Export the automaton in the Graphviz DOT format
      --state <N>         Export only the specified state and its successors
  -o, --output-dir <DIR>  The directory where the output files are written
  -h, --help              Print help (see more with '--help')
  -V, --version           Print version
"

/-- The options, each with a paragraph of its own. -/
def long (program : String) : String :=
  usage program ++ "
Arguments:
  <INPUT>
          The path of grammar definition file

Options:
      --debug
          Write the annotated parse table (parse_table.txt) instead of the loadable one
          (parse_table.json)

  -D, --dfa
          Export the automaton in the Graphviz DOT format

      --state <N>
          Export only the specified state and its successors

  -o, --output-dir <DIR>
          The directory where the output files are written.
          \n          Defaults to the directory of the grammar file.

  -h, --help
          Print help (see a summary with '-h')

  -V, --version
          Print version
"

end ParserGen.Help
