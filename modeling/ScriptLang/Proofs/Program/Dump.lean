import ScriptLang.Program.Dump
import ScriptLang.Proofs.Text.Json

/-!
# Programs are read back from their dumps

A decoder from documents to programs that undoes the encoding, construct by construct.
With it the text of a dump determines the program.
-/

namespace ScriptLang

/-! ## The decoder -/

/-- The operator with the given name in a program dump. -/
def UnaryOp.ofTag? (tag : String) : Option UnaryOp := all.find? fun op => op.tag == tag

@[inherit_doc UnaryOp.ofTag?]
def BinaryOp.ofTag? (tag : String) : Option BinaryOp := all.find? fun op => op.tag == tag

namespace Json

/-- The text of a document that is one. -/
def text? : Json → Option String
  | .str text => some text
  | _ => none

/-- The texts of a list of texts. -/
def texts? : Json → Option (List String)
  | .arr items => items.mapM text?
  | _ => none

/-- The operator of an assignment. The plain one has none. -/
def update? : Json → Option (Option BinaryOp)
  | .null => some none
  | .str tag => (BinaryOp.ofTag? tag).map some
  | _ => none

end Json

mutual

/-- The expression that a document encodes. -/
def exprOfJson? : Json → Option Expr
  | .obj [("Ident", .str name)] => some (.ident name)
  | .obj [("Number", .str text)] => some (.number text)
  | .obj [("Str", .str text)] => some (.str text)
  | .str "Undefined" => some .omitted
  | .obj [("Unary", .obj [("op", .str tag), ("operand", operand)])] => do
    return .unary (← UnaryOp.ofTag? tag) (← exprOfJson? operand)
  | .obj [("Binary", .obj [("op", .str tag), ("lhs", lhs), ("rhs", rhs)])] => do
    return .binary (← BinaryOp.ofTag? tag) (← exprOfJson? lhs) (← exprOfJson? rhs)
  | .obj [("Assign", .obj [("op", op), ("target", target), ("value", value)])] => do
    return .assign (← op.update?) (← exprOfJson? target) (← exprOfJson? value)
  | .obj [("Call", .obj [("callee", callee), ("args", .arr args)])] => do
    return .call (← exprOfJson? callee) (← exprsOfJson? args)
  | .obj [("Index", .obj [("target", target), ("index", index)])] => do
    return .index (← exprOfJson? target) (← exprOfJson? index)
  | .obj [("Slice", .obj [("target", target), ("start", start), ("end", stop)])] => do
    return .slice (← exprOfJson? target) (← exprOfJson? start) (← exprOfJson? stop)
  | .obj [("Map", .arr entries)] => do return .map (← entriesOfJson? entries)
  | .obj [("List", .arr items)] => do return .list (← exprsOfJson? items)
  | _ => none

def exprsOfJson? : List Json → Option (List Expr)
  | [] => some []
  | item :: rest => do return (← exprOfJson? item) :: (← exprsOfJson? rest)

def entriesOfJson? : List Json → Option (List (Expr × Expr))
  | [] => some []
  | .arr [key, value] :: rest => do
    return (← exprOfJson? key, ← exprOfJson? value) :: (← entriesOfJson? rest)
  | _ => none

end

mutual

/-- The statement that a document encodes. -/
def stmtOfJson? : Json → Option Stmt
  | .obj [("Expr", e)] => do return .expr (← exprOfJson? e)
  | .obj [("If", .obj [("cond", test), ("then_block", .arr body), ("else_branch", rest)])] => do
    return .cond (← exprOfJson? test) (← blockOfJson? body) (← alternativeOfJson? rest)
  | .obj [("While", .obj [("cond", test), ("body", .arr body)])] => do
    return .whileLoop (← exprOfJson? test) (← blockOfJson? body)
  | .obj [("DoWhile", .obj [("cond", test), ("body", .arr body)])] => do
    return .doWhile (← exprOfJson? test) (← blockOfJson? body)
  | .obj [("For", .obj [("var", .str name), ("iterable", iterable), ("body", .arr body)])] => do
    return .forEach (.single name) (← exprOfJson? iterable) (← blockOfJson? body)
  | .obj [("ForIndexed", .obj [("index", .str key), ("element", .str value),
      ("iterable", iterable), ("body", .arr body)])] => do
    return .forEach (.keyed key value) (← exprOfJson? iterable) (← blockOfJson? body)
  | .obj [("Case", .obj [("subject", subject), ("arms", .arr arms)])] => do
    return .select (← exprOfJson? subject) (← armsOfJson? arms)
  | .obj [("Fn", .obj [("name", .str name), ("params", params), ("body", .arr body)])] => do
    return .func name (← params.texts?) (← blockOfJson? body)
  | .obj [("Return", value)] => do return .ret (← exprOfJson? value)
  | .obj [("Outer", names)] => do return .outer (← names.texts?)
  | .str "Break" => some .break
  | .str "Continue" => some .continue
  | .obj [("Assert", .obj [("cond", test), ("line", .nat line)])] => do
    return .assert (← exprOfJson? test) line
  | .obj [("Throw", value)] => do return .throw (← exprOfJson? value)
  | .obj [("Try", .obj [("body", .arr body), ("var", .str name), ("handler", .arr handler)])] => do
    return .attempt (← blockOfJson? body) name (← blockOfJson? handler)
  | _ => none

def alternativeOfJson? : Json → Option Alternative
  | .null => some .none
  | .obj [("Block", .arr body)] => do return .otherwise (← blockOfJson? body)
  | .obj [("If", .obj [("cond", test), ("then_block", .arr body), ("else_branch", rest)])] => do
    return .elif (← exprOfJson? test) (← blockOfJson? body) (← alternativeOfJson? rest)
  | _ => none

def armsOfJson? : List Json → Option (List Arm)
  | [] => some []
  | .obj [("patterns", .arr patterns), ("body", .arr body)] :: rest => do
    return .mk (← exprsOfJson? patterns) (← blockOfJson? body) :: (← armsOfJson? rest)
  | _ => none

def blockOfJson? : List Json → Option (List Stmt)
  | [] => some []
  | item :: rest => do return (← stmtOfJson? item) :: (← blockOfJson? rest)

end

/-- The program that a document encodes. -/
def programOfJson? : Json → Option (List Stmt)
  | .arr items => blockOfJson? items
  | _ => none

/-! ## Decoding undoes encoding -/

theorem UnaryOp.ofTag?_tag (op : UnaryOp) : ofTag? op.tag = some op := by
  cases op <;> decide

theorem BinaryOp.ofTag?_tag (op : BinaryOp) : ofTag? op.tag = some op := by
  cases op <;> decide

theorem Json.texts?_strs (texts : List String) : (strs texts).texts? = some texts := by
  rw [strs, texts?]
  induction texts with
  | nil => rfl
  | cons text texts ih => simp [List.mapM_cons, ih, text?]

theorem Json.update?_tag (op : Option BinaryOp) :
    ((op.map fun o => Json.str o.tag).getD .null).update? = some op := by
  cases op with
  | none => rfl
  | some op => simp [update?, BinaryOp.ofTag?_tag]

mutual

theorem exprOfJson?_toJson : ∀ e : Expr, exprOfJson? e.toJson = some e
  | .ident _ | .number _ | .str _ | .omitted => by simp [Expr.toJson, Json.node, exprOfJson?]
  | .unary op operand => by
      simp [Expr.toJson, Json.node, exprOfJson?, UnaryOp.ofTag?_tag, exprOfJson?_toJson operand]
  | .binary op lhs rhs => by
      simp [Expr.toJson, Json.node, exprOfJson?, BinaryOp.ofTag?_tag, exprOfJson?_toJson lhs,
        exprOfJson?_toJson rhs]
  | .assign op target value => by
      simp [Expr.toJson, Json.node, exprOfJson?, Json.update?_tag, exprOfJson?_toJson target,
        exprOfJson?_toJson value]
  | .call callee args => by
      simp [Expr.toJson, Json.node, exprOfJson?, exprOfJson?_toJson callee, exprsOfJson?_toJson args]
  | .index target index => by
      simp [Expr.toJson, Json.node, exprOfJson?, exprOfJson?_toJson target,
        exprOfJson?_toJson index]
  | .slice target start stop => by
      simp [Expr.toJson, Json.node, exprOfJson?, exprOfJson?_toJson target,
        exprOfJson?_toJson start, exprOfJson?_toJson stop]
  | .map entries => by
      simp [Expr.toJson, Json.node, exprOfJson?, entriesOfJson?_toJson entries]
  | .list items => by
      simp [Expr.toJson, Json.node, exprOfJson?, exprsOfJson?_toJson items]

theorem exprsOfJson?_toJson : ∀ es : List Expr, exprsOfJson? (exprsToJson es) = some es
  | [] => rfl
  | e :: es => by simp [exprsToJson, exprsOfJson?, exprOfJson?_toJson e, exprsOfJson?_toJson es]

theorem entriesOfJson?_toJson : ∀ es : List (Expr × Expr),
    entriesOfJson? (entriesToJson es) = some es
  | [] => rfl
  | (key, value) :: es => by
      simp [entriesToJson, entriesOfJson?, exprOfJson?_toJson key, exprOfJson?_toJson value,
        entriesOfJson?_toJson es]

end

mutual

theorem stmtOfJson?_toJson : ∀ s : Stmt, stmtOfJson? s.toJson = some s
  | .expr e | .ret e | .throw e | .assert e line => by
      simp [Stmt.toJson, Json.node, stmtOfJson?, exprOfJson?_toJson e]
  | .cond test body rest => by
      simp [Stmt.toJson, Json.node, stmtOfJson?, exprOfJson?_toJson test,
        blockOfJson?_toJson body, alternativeOfJson?_toJson rest]
  | .whileLoop test body | .doWhile test body => by
      simp [Stmt.toJson, Json.node, stmtOfJson?, exprOfJson?_toJson test, blockOfJson?_toJson body]
  | .forEach (.single _) iterable body | .forEach (.keyed _ _) iterable body => by
      simp [Stmt.toJson, Json.node, stmtOfJson?, exprOfJson?_toJson iterable,
        blockOfJson?_toJson body]
  | .select subject arms => by
      simp [Stmt.toJson, Json.node, stmtOfJson?, exprOfJson?_toJson subject,
        armsOfJson?_toJson arms]
  | .func name params body => by
      simp [Stmt.toJson, Json.node, stmtOfJson?, Json.texts?_strs, blockOfJson?_toJson body]
  | .outer names => by simp [Stmt.toJson, Json.node, stmtOfJson?, Json.texts?_strs]
  | .break | .continue => by simp [Stmt.toJson, stmtOfJson?]
  | .attempt body name handler => by
      simp [Stmt.toJson, Json.node, stmtOfJson?, blockOfJson?_toJson body,
        blockOfJson?_toJson handler]

theorem alternativeOfJson?_toJson : ∀ a : Alternative, alternativeOfJson? a.toJson = some a
  | .none => by simp [Alternative.toJson, alternativeOfJson?]
  | .otherwise body => by
      simp [Alternative.toJson, Json.node, alternativeOfJson?, blockOfJson?_toJson body]
  | .elif test body rest => by
      simp [Alternative.toJson, Json.node, alternativeOfJson?, exprOfJson?_toJson test,
        blockOfJson?_toJson body, alternativeOfJson?_toJson rest]

theorem armsOfJson?_toJson : ∀ arms : List Arm, armsOfJson? (armsToJson arms) = some arms
  | [] => rfl
  | .mk patterns body :: rest => by
      simp [armsToJson, armsOfJson?, exprsOfJson?_toJson patterns, blockOfJson?_toJson body,
        armsOfJson?_toJson rest]

theorem blockOfJson?_toJson : ∀ body : List Stmt, blockOfJson? (blockToJson body) = some body
  | [] => rfl
  | s :: body => by
      simp [blockToJson, blockOfJson?, stmtOfJson?_toJson s, blockOfJson?_toJson body]

end

theorem programOfJson?_toJson (program : List Stmt) :
    programOfJson? (programToJson program) = some program := blockOfJson?_toJson program

/-- A dump is one document and a line feed. Whatever the text of the document is read as
decodes to the program, so programs with the same dump are the same. -/
theorem dump_determines_program (program : List Stmt) :
    ∃ text, dump program = text ++ "\n" ∧ Json.Denotes text (programToJson program) ∧
      (∀ j, Json.Denotes text j → programOfJson? j = some program) ∧
      ∀ other, dump other = dump program → other = program := by
  have denotes := Json.denotes_pretty 0 (programToJson program)
  have decodes (j : Json) (h : Json.Denotes ((programToJson program).pretty 0) j) :
      programOfJson? j = some program := by
    rw [h.unique denotes, programOfJson?_toJson]
  refine ⟨(programToJson program).pretty 0, rfl, denotes, decodes, ?_⟩
  intro other same
  have texts : (programToJson other).pretty 0 = (programToJson program).pretty 0 :=
    String.append_left_inj _ |>.mp same
  have decoded := decodes (programToJson other) (texts ▸ Json.denotes_pretty 0 _)
  rw [programOfJson?_toJson] at decoded
  exact Option.some.inj decoded

end ScriptLang
