/-!
# The manual

What the command says about itself.
-/

namespace ScriptLang.Manual

/-- The line that shows how the command is called. -/
def usage : String := "Usage: verbena [OPTIONS] <INPUTS>..."

/-- The answer to `--version`. -/
def version : String := "verbena 0.1.0\n"

/-- The options, each with what it does, under one another. -/
def optionLines : List String :=
  ["  -o, --output <OUTPUT>     Output file (one input, default a.mjs) or directory " ++
     "(several inputs, default the current directory)",
   "      --implicit-return     Return the value of the last expression statement of " ++
     "every function",
   "      --dollar-identifiers  Allow `$` in identifiers",
   "      --emit-ast            Also write the parsed program as JSON to <output>.ast.json",
   "      --run                 Interpret the inputs instead of compiling them",
   "  -h, --help                Print help",
   "  -V, --version             Print version"]

/-- The answer to `--help`. -/
def help : String :=
  "Compile Verbena scripts to JavaScript modules\n\n" ++ usage ++ "\n\n" ++
    "Arguments:\n  <INPUTS>...  Input .va source files\n\n" ++
    "Options:\n" ++ "\n".intercalate optionLines ++ "\n"

/-- What follows a message about wrong arguments. -/
def advice : String := "\n\n" ++ usage ++ "\n\nFor more information, try '--help'.\n"

end ScriptLang.Manual
