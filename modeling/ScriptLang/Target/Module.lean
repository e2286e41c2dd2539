import ScriptLang.Program.Parser.Statement
import ScriptLang.Target.Emit
import ScriptLang.Target.Preamble

/-!
# Emitted modules

A module is the preamble, a banner with the name of the file, and the emitted
program inside a function of its own, so that its variables hide the preamble's
functions instead of clashing with them.
-/

namespace ScriptLang

/-- A source text ends in a line feed once it is loaded, so that its last
statement is ended like any other. -/
def withFinalNewline (source : String) : String :=
  if source.toList.getLast? == some '\n' then source else source ++ "\n"

/-- A program that was read, with the text emitted for it. -/
structure Compiled where
  name : String
  program : List Stmt
  text : String

/-- Read a text and emit its program. -/
def compile (options : Options) (name source : String) : Except Diagnostic Compiled := do
  let program ← parse options source
  return ⟨name, program, generate options name program⟩

/-- The line that names the file. -/
def bannerLine (name : String) : String := "// ── " ++ name ++ " ──\n"

/-- The complete text of a module. -/
def Compiled.moduleText (c : Compiled) : String :=
  Target.preamble ++ bannerLine c.name ++ "(function () \x7b\n" ++ c.text ++ "\x7d)();\n"

end ScriptLang
