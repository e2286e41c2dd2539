import ScriptLang.Proofs.Token.Piece
import ScriptLang.Target.Layout

/-!
# Outlines of programs and of emitted text

What a jump does depends on the loops, the functions and the arms around it. The
outline of a program keeps these and the jumps, and leaves out everything else; its
order is the order of emission, where the functions of a nested block come first.

`readOutline` finds the outline of emitted text, from nothing but the tokens of the
text. The words and marks that blocks and jumps are made of are landmarks, and a line
with a combination of them that says nothing is refused, so no jump, loop or function is
overlooked wherever it stands. A jump with a label must name the innermost loop that is
open, and no function may have been opened since. A jump without a label is taken only
as the `break` at the very end of an arm, and no arm ends without one.
-/

namespace ScriptLang

/-- The loops, functions, arms and jumps of a program. -/
inductive Outline where
  | loop (body : List Outline)
  | function (body : List Outline)
  | arm (body : List Outline)
  | jump (keyword : Target.Jump)

mutual

/-- The number of loops in an outline. -/
def Outline.loops : Outline → Nat
  | .loop body => loopsIn body + 1
  | .function body | .arm body => loopsIn body
  | .jump _ => 0

/-- The number of loops in some outlines. -/
def loopsIn : List Outline → Nat
  | [] => 0
  | o :: rest => o.loops + loopsIn rest

end

@[simp] theorem loopsIn_append (a b : List Outline) : loopsIn (a ++ b) = loopsIn a + loopsIn b := by
  induction a with
  | nil => rw [List.nil_append, loopsIn, Nat.zero_add]
  | cons o rest ih => rw [List.cons_append, loopsIn, loopsIn, ih, Nat.add_assoc]

mutual

/-- The outline of a statement. -/
def Stmt.outline : Stmt → List Outline
  | .cond _ body rest => functionOutlines body ++ otherOutlines body ++ rest.outline
  | .whileLoop _ body | .doWhile _ body | .forEach _ _ body =>
    [.loop (functionOutlines body ++ otherOutlines body)]
  | .select _ arms => armOutlines arms
  | .func _ _ body => [.function (bodyOutline body)]
  | .break => [.jump .break]
  | .continue => [.jump .continue]
  | .attempt body _ handler =>
    functionOutlines body ++ otherOutlines body ++
      (functionOutlines handler ++ otherOutlines handler)
  | .expr _ | .ret _ | .outer _ | .assert .. | .throw _ => []

/-- The outline of what follows the body of a condition. -/
def Alternative.outline : Alternative → List Outline
  | .none => []
  | .otherwise body => functionOutlines body ++ otherOutlines body
  | .elif _ body rest => functionOutlines body ++ otherOutlines body ++ rest.outline

/-- The outlines of the arms of a selection. -/
def armOutlines : List Arm → List Outline
  | [] => []
  | .mk _ body :: rest => .arm (functionOutlines body ++ otherOutlines body) :: armOutlines rest

/-- The outlines of the functions of a nested block. -/
def functionOutlines : List Stmt → List Outline
  | [] => []
  | .func _ _ body :: rest => .function (bodyOutline body) :: functionOutlines rest
  | _ :: rest => functionOutlines rest

/-- The outlines of the other statements of a nested block. -/
def otherOutlines : List Stmt → List Outline
  | [] => []
  | stmt :: rest => (if stmt.isFunction then [] else stmt.outline) ++ otherOutlines rest

/-- The outline of a body. -/
def bodyOutline : List Stmt → List Outline
  | [] => []
  | stmt :: rest => stmt.outline ++ bodyOutline rest

end

namespace Target

/-! ## Lines -/

/-- The words and marks that blocks and jumps are made of. -/
inductive Landmark where
  | jump (keyword : Jump)
  | while
  | do
  | for
  | function
  | case
  | default
  | colon
  | opening
  | closing
  | lineBreak
  deriving Repr, DecidableEq

/-- How each landmark is written. -/
def landmarks : List (Piece × Landmark) :=
  [(.word "break", .jump .break), (.word "continue", .jump .continue), (.word "while", .while),
    (.word "do", .do), (.word "for", .for), (.word "function", .function), (.word "case", .case),
    (.word "default", .default), (.mark ":", .colon), (.mark "\x7b", .opening),
    (.mark "\x7d", .closing), (.lineBreak, .lineBreak)]

/-- The landmark that a piece is, if it is one. -/
def landmark? (p : Piece) : Option Landmark := landmarks.lookup p

/-- What a line opens. -/
inductive Opener where
  | loop (label : String)
  | function
  | arm
  | block
  deriving Repr, DecidableEq

/-- What a line does to the blocks around it. -/
inductive Role where
  | plain
  | jump (keyword : Jump) (label : String)
  /-- The `break` that leaves an arm. -/
  | leave
  | opens (opener : Opener)
  | closes
  /-- A block is closed, and another one is opened in its place. -/
  | reopens
  deriving Repr, DecidableEq

/-- A line with the keyword of a jump is a jump and nothing else. -/
def jump? (keyword : Jump) (line : List Piece) : Option Role :=
  match line with
  | [first, last] =>
    if keyword = .break ∧ first = .word keyword.keyword ∧ last = .mark ";" then some .leave
    else none
  | [first, (.word, label), last] =>
    if first = .word keyword.keyword ∧ last = .mark ";" then some (.jump keyword label) else none
  | _ => none

/-- The header of a loop begins with its label. -/
def loop? (line : List Piece) : Option Role :=
  match line with
  | (.word, label) :: second :: third :: _ =>
    if landmark? second = some .colon ∧ (landmark? third).isSome then some (.opens (.loop label))
    else none
  | _ => none

/-- What a line with these landmarks does, if it is neither a jump nor the header of a loop. -/
def roleOf? : List Landmark → Option Role
  | [] | [.case, .colon] => some .plain
  | [.function, .opening] => some (.opens .function)
  | [.case, .colon, .opening] | [.default, .colon, .opening] => some (.opens .arm)
  | [.opening] => some (.opens .block)
  | [.closing] | [.closing, .while] => some .closes
  | [.closing, .opening] => some .reopens
  | _ => none

/-- What a line does. Only a loop has a label. -/
def role? (line : List Piece) : Option Role :=
  match line.filterMap landmark? with
  | [.jump keyword] => jump? keyword line
  | [.colon, .while, .opening] | [.colon, .do, .opening] | [.colon, .for, .opening] => loop? line
  | ms => roleOf? ms

/-- Apart from jumps and the headers of loops, the landmarks of a line settle what it does. -/
theorem role?_of_roleOf? {line : List Piece} {r : Role}
    (h : roleOf? (line.filterMap landmark?) = some r) : role? line = some r := by
  unfold role?
  split
  case h_5 => exact h
  all_goals
    rename_i hm
    rw [hm] at h
    cases h

/-- What each line of a text does. -/
def rolesOf (tokens : List Token) : Option (List Role) :=
  ((tokens.map Token.piece).splitOn .lineBreak).mapM role?

/-- The label of the loop that a line opens. -/
def Role.label? : Role → Option String
  | .opens (.loop label) => some label
  | _ => none

/-! ## Blocks -/

/-- The blocks that are open, innermost first, each with the outline of what stands
before it in the block around it. -/
abbrev Opened := List (Opener × List Outline)

/-- The label of the innermost loop that is open inside the current function. -/
def Opened.innermost? : Opened → Option String
  | [] | (.function, _) :: _ => none
  | (.loop label, _) :: _ => some label
  | (.arm, _) :: rest | (.block, _) :: rest => innermost? rest

/-- The outline of what is closed around some outlines. An arm is not closed like this. -/
def Opener.close? (items : List Outline) : Opener → Option (List Outline)
  | .loop _ => some [.loop items]
  | .function => some [.function items]
  | .block => some items
  | .arm => none

/-- The outline of lines, after the outlines `items` inside of the blocks `opened`. -/
def readRoles : List Role → List Outline → Opened → Option (List Outline)
  | [], items, [] => some items
  | [], _, _ :: _ => none
  | .plain :: rest, items, opened => readRoles rest items opened
  | .jump keyword label :: rest, items, opened =>
    if Opened.innermost? opened = some label then
      readRoles rest (items ++ [.jump keyword]) opened
    else none
  | .leave :: .closes :: rest, items, (.arm, before) :: opened =>
    readRoles rest (before ++ [.arm items]) opened
  | .leave :: _, _, _ => none
  | .opens opener :: rest, items, opened => readRoles rest [] ((opener, items) :: opened)
  | .closes :: rest, items, (opener, before) :: opened =>
    match opener.close? items with
    | some closed => readRoles rest (before ++ closed) opened
    | none => none
  | .reopens :: rest, items, (.block, before) :: opened =>
    readRoles rest [] ((.block, before ++ items) :: opened)
  | .closes :: _, _, [] | .reopens :: _, _, _ => none

/-- The outline of a text that has no fault, with the labels of its loops in order. -/
def readOutline (lexed : Lexed) : Option (List Outline × List String) :=
  match lexed.fault, rolesOf lexed.tokens with
  | none, some roles =>
    (readRoles roles [] []).map fun outline => (outline, roles.filterMap Role.label?)
  | _, _ => none

/-! ## Loops -/

/-- A loop that is open counts as one. -/
def Opener.loops : Opener → Nat
  | .loop _ => 1
  | .function | .arm | .block => 0

/-- The number of loops that are open, or stand before something that is. -/
def Opened.loops : Opened → Nat
  | [] => 0
  | (opener, before) :: rest => opener.loops + loopsIn before + Opened.loops rest

theorem Opener.loopsIn_close? {opener : Opener} {items closed : List Outline}
    (h : opener.close? items = some closed) : loopsIn closed = opener.loops + loopsIn items := by
  cases opener with
  | arm => cases h
  | loop label | function | block =>
      obtain rfl := Option.some.inj h
      simp [loopsIn, Outline.loops, Opener.loops, Nat.add_comm]

/-- The number of loops that a line opens. -/
def Role.loops : Role → Nat
  | .opens opener => opener.loops
  | .plain | .jump .. | .leave | .closes | .reopens => 0

/-- A line has a label if it opens a loop. -/
theorem length_labels (role : Role) (rest : List Role) :
    ((role :: rest).filterMap Role.label?).length =
      role.loops + (rest.filterMap Role.label?).length := by
  cases role with
  | opens opener =>
      cases opener with
      | loop label => exact Nat.add_comm _ 1
      | function | arm | block => exact (Nat.zero_add _).symm
  | plain | jump | leave | closes | reopens => exact (Nat.zero_add _).symm

/-- The labels that are read are as many as the loops that are read. -/
theorem loopsIn_of_readRoles {roles : List Role} {items outlines : List Outline} {opened : Opened}
    (h : readRoles roles items opened = some outlines) :
    loopsIn outlines =
      loopsIn items + Opened.loops opened + (roles.filterMap Role.label?).length := by
  fun_induction readRoles roles items opened with
  | case1 items =>
      obtain rfl := Option.some.inj h
      rfl
  | case3 rest items opened ih =>
      rw [ih h, length_labels, Role.loops, Nat.zero_add]
  | case4 keyword label rest items opened _ ih =>
      rw [ih h, length_labels, Role.loops, Nat.zero_add, loopsIn_append]
      rfl
  | case6 rest items before opened ih =>
      rw [ih h, length_labels, length_labels, Role.loops, Role.loops, loopsIn_append,
        Opened.loops, loopsIn, loopsIn, Outline.loops, Opener.loops]
      omega
  | case8 opener rest items opened ih =>
      rw [ih h, length_labels, Role.loops, Opened.loops, loopsIn]
      omega
  | case9 rest items opener before opened closed hc ih =>
      rw [ih h, length_labels, Role.loops, loopsIn_append, Opener.loopsIn_close? hc, Opened.loops]
      omega
  | case11 rest items before opened ih =>
      rw [ih h, length_labels, Role.loops, Opened.loops, Opened.loops, loopsIn_append, loopsIn,
        Opener.loops]
      omega
  | case2 | case5 | case7 | case10 | case12 | case13 => cases h

/-- The outline of a text has as many loops as the text has labels. -/
theorem length_labels_of_readOutline {lexed : Lexed} {outlines : List Outline}
    {labels : List String} (h : readOutline lexed = some (outlines, labels)) :
    labels.length = loopsIn outlines := by
  rw [readOutline] at h
  split at h
  next roles _ _ =>
    obtain ⟨read, hr, hp⟩ := Option.map_eq_some_iff.mp h
    obtain ⟨rfl, rfl⟩ := Prod.mk.inj hp
    rw [loopsIn_of_readRoles hr]
    simp [loopsIn, Opened.loops]
  next => cases h

end Target

end ScriptLang
