import ScriptLang.Token.Lexer
import ScriptLang.Program.Scope
import ScriptLang.Number.Elementary
import ScriptLang.Main
import ScriptLang.Proofs.Machine.ExplicitReturn
import ScriptLang.Proofs.Machine.Stores
import ScriptLang.Proofs.Parser.WellFormed
import ScriptLang.Proofs.Parser.FirstError
import ScriptLang.Proofs.Target.Reparse
import ScriptLang.Proofs.Value.ReadBack
import ScriptLang.Proofs.Target.Resolution
import ScriptLang.Proofs.Machine.DepthLimit
import ScriptLang.Proofs.Token.Coverage
import ScriptLang.Proofs.Target.Jumps
import ScriptLang.Proofs.Target.Nesting
import ScriptLang.Proofs.Parser.Dialect
import ScriptLang.Proofs.Parser.Append
import ScriptLang.Proofs.Parser.Layout
import ScriptLang.Proofs.Target.Declarations
import ScriptLang.Proofs.Command.FaultyInput
import ScriptLang.Proofs.Target.Naming
import ScriptLang.Proofs.Command.Outputs
import ScriptLang.Proofs.Program.Dump
import ScriptLang.Proofs.Program.Binding
import ScriptLang.Proofs.Parser.Precedence
import ScriptLang.Proofs.Machine.Jumps
import ScriptLang.Proofs.Parser.FinalNewline
import ScriptLang.Proofs.Target.StringValue
import ScriptLang.Proofs.Value.Dictionary
import ScriptLang.Proofs.Machine.Maps
import ScriptLang.Proofs.Value.Equality
import ScriptLang.Proofs.Value.Slices
import ScriptLang.Proofs.Machine.NumberLiterals
import ScriptLang.Proofs.Number.RadixLiteral
import ScriptLang.Proofs.Number.IntegerText
import ScriptLang.Proofs.Parser.Commands
import ScriptLang.Proofs.Parser.Progress
import ScriptLang.Proofs.Machine.Assignment
import ScriptLang.Proofs.Target.Banner
import ScriptLang.Proofs.Number.SignedSum
import ScriptLang.Proofs.Builtin.Range
