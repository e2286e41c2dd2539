import ScriptLang.Proofs.Program.Print

/-!
# Renumbered lines

The only thing that a program keeps of its layout is the line of each assertion.
`mapLines f` renumbers these lines at every depth, and forgetting them is renumbering
them all alike.
-/

namespace ScriptLang

variable (f : Nat → Nat)

mutual

/-- The statement with the lines of its assertions renumbered. -/
def Stmt.mapLines : Stmt → Stmt
  | .expr e => .expr e
  | .cond test body rest => .cond test (mapLines body) rest.mapLines
  | .whileLoop test body => .whileLoop test (mapLines body)
  | .doWhile test body => .doWhile test (mapLines body)
  | .forEach header iterable body => .forEach header iterable (mapLines body)
  | .select subject arms => .select subject (mapLinesInArms arms)
  | .func name params body => .func name params (mapLines body)
  | .ret value => .ret value
  | .outer names => .outer names
  | .break => .break
  | .continue => .continue
  | .assert test line => .assert test (f line)
  | .throw value => .throw value
  | .attempt body name handler => .attempt (mapLines body) name (mapLines handler)

/-- What follows a condition, with the lines of assertions renumbered. -/
def Alternative.mapLines : Alternative → Alternative
  | .none => .none
  | .otherwise body => .otherwise (mapLines body)
  | .elif test body rest => .elif test (mapLines body) rest.mapLines

/-- Arms with the lines of assertions renumbered. -/
def mapLinesInArms : List Arm → List Arm
  | [] => []
  | .mk patterns body :: rest => .mk patterns (mapLines body) :: mapLinesInArms rest

/-- Statements with the lines of assertions renumbered. -/
def mapLines : List Stmt → List Stmt
  | [] => []
  | s :: rest => s.mapLines :: mapLines rest

end

mutual

theorem Stmt.withoutLines_eq : ∀ s : Stmt, s.withoutLines = s.mapLines fun _ => 0
  | .cond _ body rest => by
      rw [Stmt.withoutLines, Stmt.mapLines, withoutLines_eq body, Alternative.withoutLines_eq rest]
  | .whileLoop _ body | .doWhile _ body | .forEach _ _ body | .func _ _ body => by
      rw [Stmt.withoutLines, Stmt.mapLines, withoutLines_eq body]
  | .select _ arms => by rw [Stmt.withoutLines, Stmt.mapLines, withoutLinesInArms_eq arms]
  | .attempt body _ handler => by
      rw [Stmt.withoutLines, Stmt.mapLines, withoutLines_eq body, withoutLines_eq handler]
  | .expr _ | .ret _ | .outer _ | .break | .continue | .assert .. | .throw _ => rfl

theorem Alternative.withoutLines_eq :
    ∀ rest : Alternative, rest.withoutLines = rest.mapLines fun _ => 0
  | .none => rfl
  | .otherwise body => by
      rw [Alternative.withoutLines, Alternative.mapLines, withoutLines_eq body]
  | .elif _ body rest => by
      rw [Alternative.withoutLines, Alternative.mapLines, withoutLines_eq body,
        Alternative.withoutLines_eq rest]

theorem withoutLinesInArms_eq :
    ∀ arms : List Arm, withoutLinesInArms arms = mapLinesInArms (fun _ => 0) arms
  | [] => rfl
  | .mk _ body :: rest => by
      rw [withoutLinesInArms, mapLinesInArms, withoutLines_eq body, withoutLinesInArms_eq rest]

/-- Without their lines, all assertions stand on line zero. -/
theorem withoutLines_eq : ∀ body : List Stmt, withoutLines body = mapLines (fun _ => 0) body
  | [] => rfl
  | s :: rest => by
      rw [withoutLines, mapLines, Stmt.withoutLines_eq s, withoutLines_eq rest]

end

mutual

theorem Stmt.mapLines_id : ∀ s : Stmt, s.mapLines id = s
  | .cond _ body rest => by rw [Stmt.mapLines, mapLines_id body, Alternative.mapLines_id rest]
  | .whileLoop _ body | .doWhile _ body | .forEach _ _ body | .func _ _ body => by
      rw [Stmt.mapLines, mapLines_id body]
  | .select _ arms => by rw [Stmt.mapLines, mapLinesInArms_id arms]
  | .attempt body _ handler => by rw [Stmt.mapLines, mapLines_id body, mapLines_id handler]
  | .expr _ | .ret _ | .outer _ | .break | .continue | .assert .. | .throw _ => rfl

theorem Alternative.mapLines_id : ∀ rest : Alternative, rest.mapLines id = rest
  | .none => rfl
  | .otherwise body => by rw [Alternative.mapLines, mapLines_id body]
  | .elif _ body rest => by
      rw [Alternative.mapLines, mapLines_id body, Alternative.mapLines_id rest]

theorem mapLinesInArms_id : ∀ arms : List Arm, mapLinesInArms id arms = arms
  | [] => rfl
  | .mk _ body :: rest => by rw [mapLinesInArms, mapLines_id body, mapLinesInArms_id rest]

@[simp] theorem mapLines_id : ∀ body : List Stmt, mapLines id body = body
  | [] => rfl
  | s :: rest => by rw [mapLines, Stmt.mapLines_id s, mapLines_id rest]

end

end ScriptLang
