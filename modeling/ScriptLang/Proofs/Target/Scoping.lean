import ScriptLang.Proofs.Program.Occurrence
import ScriptLang.Target.Code

/-!
# Scoping of emitted code

Emitted code is read by the target's rules. A function declares its parameters, its
`let` names and the functions that are declared in it; a function expression has its
own name as well, which stands around its declarations and is seen by its body alone.
A variable means the innermost declaration of its name.

Only functions are levels: the blocks of emitted code declare nothing, or what they
declare counts for the function they stand in.
-/

namespace ScriptLang.Target

/-- A function of emitted code as the code inside sees it. -/
structure Level where
  declared : List String
  /-- The name of a function expression. -/
  own : Option String
  deriving DecidableEq

/-- What a variable means: a name declared so many functions outwards, or the own name
of the function there. -/
inductive Site where
  | declared (k : Nat)
  | own (k : Nat)
  deriving DecidableEq

namespace Site

/-- The same site, seen from one function further inside. -/
def inner : Site → Site
  | declared k => declared (k + 1)
  | own k => own (k + 1)

end Site

/-- What a name means inside some functions, innermost first. -/
def resolve : List Level → String → Option Site
  | [], _ => none
  | level :: outer, name =>
    if name ∈ level.declared then some (.declared 0)
    else if level.own = some name then some (.own 0)
    else (resolve outer name).map Site.inner

mutual

/-- The variables of an expression. -/
def Code.vars : Code → List String
  | .var name => [name]
  | .literal _ | .undefined => []
  | .group inner => inner.vars
  | .unary _ operand => operand.vars
  | .binary _ lhs rhs => lhs.vars ++ rhs.vars
  | .assign _ target value => target.vars ++ value.vars
  | .call callee args => callee.vars ++ varsOf args
  | .helper _ args => varsOf args
  | .updater _ value => value.vars
  | .array items => varsOf items
  | .newMap entries => varsOfEntries entries

/-- The variables of expressions one after the other. -/
def varsOf : List Code → List String
  | [] => []
  | e :: rest => e.vars ++ varsOf rest

/-- The variables in the keys and values of a map. -/
def varsOfEntries : List (Code × Code) → List String
  | [] => []
  | (key, value) :: rest => key.vars ++ value.vars ++ varsOfEntries rest

end

mutual

/-- The names that a statement declares for the function it stands in. -/
def Item.declared : Item → List String
  | .declare name | .function name _ _ => [name]
  | .cond _ body rest => declaredIn body ++ rest.declared
  | .whileLoop _ _ body | .doWhile _ body _ | .forOf _ _ _ body => declaredIn body
  | .switch _ arms => declaredInCases arms
  | .tryCatch body _ handler => declaredIn body ++ declaredIn handler
  | .guard _ | .run _ | .assignFunction .. | .ret _ | .jump .. | .throw _ => []

/-- The names declared by what follows a condition. -/
def Branch.declared : Branch → List String
  | .none => []
  | .otherwise body => declaredIn body
  | .elseIf _ body rest => declaredIn body ++ rest.declared

/-- The names declared by the arms of a switch. -/
def declaredInCases : List Case → List String
  | [] => []
  | .mk _ body :: rest => declaredIn body ++ declaredInCases rest

/-- The names declared by statements one after the other. -/
def declaredIn : List Item → List String
  | [] => []
  | item :: rest => item.declared ++ declaredIn rest

end

/-- A variable of emitted code with the functions around it, innermost first. -/
abbrev Use := List Level × String

mutual

/-- The variables of a statement inside some functions. The guards of parameters are
not among them: they are the compiler's own. -/
def Item.uses (chain : List Level) : Item → List Use
  | .guard _ | .declare _ | .jump .. => []
  | .run e | .ret e | .throw e => standing chain e.vars
  | .cond test body rest => standing chain test.vars ++ usesIn chain body ++ rest.uses chain
  | .whileLoop _ test body => standing chain test.vars ++ usesIn chain body
  | .doWhile _ body test => usesIn chain body ++ standing chain test.vars
  | .forOf _ header iterable body =>
    standing chain (header.names ++ iterable.vars) ++ usesIn chain body
  | .switch subject arms => standing chain subject.vars ++ usesInCases chain arms
  | .function _ params body => usesIn (⟨params ++ declaredIn body, none⟩ :: chain) body
  | .assignFunction name params body =>
    standing chain [name] ++ usesIn (⟨params ++ declaredIn body, some name⟩ :: chain) body
  | .tryCatch body name handler =>
    usesIn chain body ++ standing chain [name] ++ usesIn chain handler

/-- The variables of what follows a condition. -/
def Branch.uses (chain : List Level) : Branch → List Use
  | .none => []
  | .otherwise body => usesIn chain body
  | .elseIf test body rest => standing chain test.vars ++ usesIn chain body ++ rest.uses chain

/-- The variables of the arms of a switch. -/
def usesInCases (chain : List Level) : List Case → List Use
  | [] => []
  | .mk patterns body :: rest =>
    standing chain (varsOf patterns) ++ usesIn chain body ++ usesInCases chain rest

/-- The variables of statements one after the other. -/
def usesIn (chain : List Level) : List Item → List Use
  | [] => []
  | item :: rest => item.uses chain ++ usesIn chain rest

end

/-- The variables of an emitted program, which is the body of a function without
parameters and without a name. -/
def usesOf (items : List Item) : List Use := usesIn [⟨declaredIn items, none⟩] items

theorem declaredIn_append (a b : List Item) :
    declaredIn (a ++ b) = declaredIn a ++ declaredIn b := by
  induction a with
  | nil => rfl
  | cons item rest ih => simp [declaredIn, ih]

theorem usesIn_append (chain : List Level) (a b : List Item) :
    usesIn chain (a ++ b) = usesIn chain a ++ usesIn chain b := by
  induction a with
  | nil => rfl
  | cons item rest ih => simp [usesIn, ih]

end ScriptLang.Target
