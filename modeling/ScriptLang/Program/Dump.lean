import ScriptLang.Program.Basic
import ScriptLang.Text.Json

/-!
# Program dumps

A program as a JSON document. Each node is an object with one field, named for
the kind of node and holding its parts; a node without parts is its name alone.
-/

namespace ScriptLang

namespace Json

/-- A node with parts. -/
def node (tag : String) (content : Json) : Json := obj [(tag, content)]

/-- A list of texts. -/
def strs (texts : List String) : Json := arr (texts.map str)

end Json

mutual

def Expr.toJson : Expr → Json
  | .ident name => .node "Ident" (.str name)
  | .number text => .node "Number" (.str text)
  | .str text => .node "Str" (.str text)
  | .omitted => .str "Undefined"
  | .unary op operand =>
    .node "Unary" (.obj [("op", .str op.tag), ("operand", operand.toJson)])
  | .binary op lhs rhs =>
    .node "Binary" (.obj [("op", .str op.tag), ("lhs", lhs.toJson), ("rhs", rhs.toJson)])
  | .assign op target value =>
    .node "Assign" (.obj
      [("op", (op.map fun o => Json.str o.tag).getD .null), ("target", target.toJson),
       ("value", value.toJson)])
  | .call callee args =>
    .node "Call" (.obj [("callee", callee.toJson), ("args", .arr (exprsToJson args))])
  | .index target index =>
    .node "Index" (.obj [("target", target.toJson), ("index", index.toJson)])
  | .slice target start stop =>
    .node "Slice" (.obj
      [("target", target.toJson), ("start", start.toJson), ("end", stop.toJson)])
  | .map entries => .node "Map" (.arr (entriesToJson entries))
  | .list items => .node "List" (.arr (exprsToJson items))

def exprsToJson : List Expr → List Json
  | [] => []
  | e :: rest => e.toJson :: exprsToJson rest

def entriesToJson : List (Expr × Expr) → List Json
  | [] => []
  | (key, value) :: rest => .arr [key.toJson, value.toJson] :: entriesToJson rest

end

mutual

def Stmt.toJson : Stmt → Json
  | .expr e => .node "Expr" e.toJson
  | .cond test body rest =>
    .node "If" (.obj
      [("cond", test.toJson), ("then_block", .arr (blockToJson body)),
       ("else_branch", rest.toJson)])
  | .whileLoop test body =>
    .node "While" (.obj [("cond", test.toJson), ("body", .arr (blockToJson body))])
  | .doWhile test body =>
    .node "DoWhile" (.obj [("cond", test.toJson), ("body", .arr (blockToJson body))])
  | .forEach (.single name) iterable body =>
    .node "For" (.obj
      [("var", .str name), ("iterable", iterable.toJson), ("body", .arr (blockToJson body))])
  | .forEach (.keyed key value) iterable body =>
    .node "ForIndexed" (.obj
      [("index", .str key), ("element", .str value), ("iterable", iterable.toJson),
       ("body", .arr (blockToJson body))])
  | .select subject arms =>
    .node "Case" (.obj [("subject", subject.toJson), ("arms", .arr (armsToJson arms))])
  | .func name params body =>
    .node "Fn" (.obj
      [("name", .str name), ("params", .strs params), ("body", .arr (blockToJson body))])
  | .ret value => .node "Return" value.toJson
  | .outer names => .node "Outer" (.strs names)
  | .break => .str "Break"
  | .continue => .str "Continue"
  | .assert test line =>
    .node "Assert" (.obj [("cond", test.toJson), ("line", .nat line)])
  | .throw value => .node "Throw" value.toJson
  | .attempt body name handler =>
    .node "Try" (.obj
      [("body", .arr (blockToJson body)), ("var", .str name),
       ("handler", .arr (blockToJson handler))])

def Alternative.toJson : Alternative → Json
  | .none => .null
  | .otherwise body => .node "Block" (.arr (blockToJson body))
  | .elif test body rest =>
    .node "If" (.obj
      [("cond", test.toJson), ("then_block", .arr (blockToJson body)),
       ("else_branch", rest.toJson)])

def armsToJson : List Arm → List Json
  | [] => []
  | .mk patterns body :: rest =>
    .obj [("patterns", .arr (exprsToJson patterns)), ("body", .arr (blockToJson body))]
      :: armsToJson rest

def blockToJson : List Stmt → List Json
  | [] => []
  | s :: rest => s.toJson :: blockToJson rest

end

/-- The document for a whole program. -/
def programToJson (program : List Stmt) : Json := .arr (blockToJson program)

/-- The text of a program dump: the document and a final line feed. -/
def dump (program : List Stmt) : String := (programToJson program).pretty 0 ++ "\n"

end ScriptLang
