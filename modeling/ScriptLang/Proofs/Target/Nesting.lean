import ScriptLang.Proofs.Parser.WellFormed
import ScriptLang.Proofs.Target.Scan
import ScriptLang.Proofs.Target.WellFormed

/-!
# Emitted text is well nested

A scan comes through an emitted expression with nothing open: its names and literals open
nothing, and what brackets and strings are added are closed on the spot. The lines of a
statement open and close the braces of its blocks, and so does the text of a program.

The operators of the program would begin a comment as the sign of rounding division does.
It is never written: a well-formed tree has no such operator between its operands.
-/

namespace ScriptLang

namespace Target

variable {dollar : Bool} {a b text : String} {ks ls ms : List Char}

/-! ## Expressions -/

theorem scans_name {name : String} (h : IsEmittedName dollar name) : Scans name [] [] := by
  obtain ⟨x, hx, rfl⟩ := h
  exact .word (lexesAs_mangle hx.1)

/-- Texts with commas between them. -/
theorem scans_list {texts : List String} (h : ∀ t ∈ texts, Scans t [] []) :
    Scans (String.intercalate ", " texts) [] [] := by
  induction texts with
  | nil => exact .empty []
  | cons t rest ih =>
      obtain ⟨first, others⟩ := List.forall_mem_cons.mp h
      cases rest with
      | nil =>
          rw [String.intercalate_singleton]
          exact first
      | cons u rest =>
          have comma : Scans ", " [] [] := by decide
          rw [String.intercalate_cons_cons]
          exact (first.append comma).append (ih others)

/-- An operator and blanks between two operands. -/
theorem scans_infix {sign : String} (ha : Scans a [] []) (hs : Scans (" " ++ sign ++ " ") [] [])
    (hb : Scans b [] []) : Scans (a ++ " " ++ sign ++ " " ++ b) [] [] := by
  have all := (ha.append hs).append hb
  simpa only [String.append_assoc] using all

/-- No operator of the target begins a comment. -/
theorem scans_binary {op : BinaryOp} (shared : isShared op = true) :
    Scans (" " ++ op.spelling ++ " ") [] [] := by
  cases op with
  | eq | ne | floorDiv => cases shared
  | _ => decide

theorem scans_assign {op : Option BinaryOp} (updates : ∀ b ∈ op, BinaryOp.updates b = true) :
    Scans (" " ++ (Connective.assign op).spelling ++ " ") [] [] := by
  cases op with
  | none => decide
  | some op =>
      have able := updates op rfl
      cases op with
      | floorDiv | eq | ne | lt | le | gt | ge | and | or => cases able
      | _ => decide

theorem isShared_of_updates {op : BinaryOp} (h : op.updates = true) : isShared op = true := by
  cases op with
  | floorDiv | eq | ne => cases h
  | _ => rfl

mutual

/-- A scan comes through a well-formed expression with nothing open. -/
theorem scans_code : ∀ c : Code, c.WellFormed dollar → Scans c.text [] []
  | .var _, h => scans_name h
  | .literal _, h => by
      rcases h with number | quote
      · exact .number number
      · exact .quote quote
  | .undefined, _ => by decide
  | .group inner, h => .around (l := [')']) (by decide) (scans_code inner h) (by decide)
  | .unary op operand, h => by
      have sign : Scans op.spelling [] [] := by cases op <;> decide
      rw [Code.text]
      exact sign.append (scans_code operand h)
  | .binary _ lhs rhs, ⟨shared, hl, hr⟩ =>
      scans_infix (scans_code lhs hl) (scans_binary shared) (scans_code rhs hr)
  | .assign _ target value, ⟨updates, ht, hv⟩ =>
      scans_infix (scans_code target ht) (scans_assign updates) (scans_code value hv)
  | .call callee args, ⟨hc, ha⟩ => by
      have opening : Scans "(" [] [')'] := by decide
      have head := (scans_code callee hc).append opening
      rw [Code.text]
      exact head.around (scans_list (scans_codes args ha)) (by decide)
  | .helper h args, ha => by
      have head : Scans (h.name ++ "(") [] [')'] := by cases h <;> decide
      rw [Code.text]
      exact head.around (scans_list (scans_codes args ha)) (by decide)
  | .updater op value, ⟨updates, hv⟩ => by
      have head : Scans ("(" ++ updatedName ++ ") => ") [] [] := by decide
      have old : Scans updatedName [] [] := by decide
      have joined := scans_infix old (scans_binary (isShared_of_updates updates))
        (scans_code value hv)
      have all := head.append joined
      simpa only [Code.text, String.append_assoc] using all
  | .array items, h =>
      .around (l := [']']) (by decide) (scans_list (scans_codes items h)) (by decide)
  | .newMap [], _ => by decide
  | .newMap (entry :: rest), h =>
      .around (l := [']', ')']) (by decide) (scans_list (scans_entryCodes (entry :: rest) h))
        (by decide)

theorem scans_codes : ∀ cs : List Code, WellFormedCodes dollar cs →
    ∀ t ∈ textsOf cs, Scans t [] []
  | [], _ => nofun
  | c :: rest, ⟨hc, hr⟩ => List.forall_mem_cons.mpr ⟨scans_code c hc, scans_codes rest hr⟩

theorem scans_entryCodes : ∀ entries : List (Code × Code), WellFormedEntryCodes dollar entries →
    ∀ t ∈ entryTexts entries, Scans t [] []
  | [], _ => nofun
  | (key, value) :: rest, ⟨hk, hv, hr⟩ => by
      have head : Scans ("[" ++ key.text ++ ", ") [] [']'] :=
        .around (l := [']']) (by decide) (scans_code key hk) (by decide)
      exact List.forall_mem_cons.mpr
        ⟨head.around (scans_code value hv) (by decide), scans_entryCodes rest hr⟩

end

/-! ## Statements -/

/-- The text of the lines closes the brackets `ks` and leaves `ls` to be closed. -/
def Nests (lines : List Line) (ks ls : List Char) : Prop :=
  Scans (String.join (lines.map Line.render)) ks ls

namespace Nests

variable {l : Line} {lines lines' body tail : List Line}

theorem nil (ks : List Char) : Nests [] ks ks := .empty ks

theorem append (h : Nests lines ks ls) (h' : Nests lines' ls ms) :
    Nests (lines ++ lines') ks ms := by
  rw [Nests, List.map_append, String.join_append]
  exact Scans.append h h'

/-- The indentation and the line feed open and close nothing. -/
theorem cons (h : Scans l.text ks ls) (hr : Nests lines ls ms) : Nests (l :: lines) ks ms := by
  have indentation : Scans (String.ofList (List.replicate (4 * l.depth) ' ')) [] [] := by
    apply Scans.of_plain
    intro c hc
    rw [String.toList_ofList] at hc
    rw [List.eq_of_mem_replicate hc]
    decide
  have feed : Scans "\n" [] [] := by decide
  rw [Nests, List.map_cons, String.join_cons, Line.render]
  exact (((indentation.under ks).append h).append (feed.under ls)).append hr

theorem one (h : Scans l.text ks ls) : Nests [l] ks ls := .cons h (.nil ls)

/-- What opens and closes nothing goes inside every bracket. -/
theorem inside (h : Nests lines [] []) (ks : List Char) : Nests lines ks ks :=
  Scans.under h ks

/-- A line that opens a brace, the lines inside, and what closes the brace. -/
theorem block (depth : Nat) (head : Scans text ks ['\x7d']) (hb : Nests body [] [])
    (ht : Nests tail ['\x7d'] []) : Nests (⟨depth, text⟩ :: (body ++ tail)) ks [] :=
  .cons head ((hb.inside ['\x7d']).append ht)

/-- The last line of a block. -/
theorem close (depth : Nat) : Nests [⟨depth, "\x7d"⟩] ['\x7d'] [] :=
  .one (show Scans "\x7d" ['\x7d'] [] by decide)

end Nests

theorem scans_labelName (label : Nat) : Scans (labelName label) [] [] := by
  have word : LexesAs false .word (labelName label) := lexesAs_labelName label
  exact .word word

theorem scans_functionHead {name : String} {params : List String}
    (hn : IsEmittedName dollar name) (hp : ∀ param ∈ params, IsEmittedName dollar param) :
    Scans (functionHead name params) [] ['\x7d'] := by
  have head : Scans ("function " ++ name ++ "(") [] [')'] :=
    .around (l := []) (by decide) (scans_name hn) (by decide)
  exact head.around (scans_list fun param hm => scans_name (hp param hm)) (by decide)

theorem scans_loopRange {header : LoopHeader} {iterable : Code}
    (hh : ∀ name ∈ header.names, IsEmittedName dollar name) (hi : iterable.WellFormed dollar) :
    Scans (loopRange header iterable) [] [] := by
  have items (h : Helper) : Scans (Code.helper h [iterable]).text [] [] := by
    have whole : (Code.helper h [iterable]).WellFormed dollar := ⟨hi, trivial⟩
    exact scans_code _ whole
  cases header with
  | single name =>
      have of : Scans " of " [] [] := by decide
      exact ((scans_name (hh name List.mem_cons_self)).append of).append (items .iterate)
  | keyed key value =>
      have first := scans_name (hh key List.mem_cons_self)
      have second := scans_name (hh value (List.mem_cons_of_mem _ List.mem_cons_self))
      have head : Scans ("[" ++ key ++ ", ") [] [']'] :=
        .around (l := [']']) (by decide) first (by decide)
      exact (head.around second (by decide)).append (items .entries)

/-- A handler takes over what was caught. -/
theorem scans_handled {name : String} (h : IsEmittedName dollar name) :
    Scans (name ++ " = " ++ (Code.helper .caught [.literal caughtName]).text ++ ";") [] [] := by
  have target : Scans (name ++ " = ") [] [] := (scans_name h).append (by decide)
  exact target.around (by decide) (by decide)

/-- The patterns of an arm open one brace. -/
theorem nests_patternLines (depth : Nat) (patterns : List Code)
    (h : WellFormedCodes dollar patterns) : Nests (patternLines depth patterns) [] ['\x7d'] := by
  fun_induction patternLines depth patterns with
  | case1 => exact .one (show Scans "default: \x7b" [] ['\x7d'] by decide)
  | case2 p =>
      refine .one (.around (l := []) ?_ (scans_code p h.1) ?_)
      · decide
      · decide
  | case3 p rest _ ih =>
      refine .cons (.around (l := []) ?_ (scans_code p h.1) ?_) (ih h.2)
      · decide
      · decide

mutual

/-- The lines of a well-formed statement close what they open. -/
theorem nests_item : ∀ item : Item, item.WellFormed dollar →
    ∀ depth, Nests (item.lines depth) [] []
  | .guard param, h, depth => by
      have name := scans_name h
      have test : Scans ("if (" ++ param ++ " === undefined) ") [] [] :=
        .around (l := [')']) (by decide) name (by decide)
      exact .one (test.around name (by decide))
  | .declare name, h, depth => .one (.around (l := []) (by decide) (scans_name h) (by decide))
  | .run e, h, depth => .one ((scans_code e h).append (by decide))
  | .cond test body rest, ⟨ht, hb, hr⟩, depth => by
      have head : Scans ("if (" ++ test.text ++ ") \x7b") [] ['\x7d'] :=
        .around (l := [')']) (by decide) (scans_code test ht) (by decide)
      exact .block depth head (nests_block body hb (depth + 1)) (nests_branch rest hr depth)
  | .whileLoop label test body, ⟨ht, hb⟩, depth => by
      have head : Scans (labelName label ++ ": while (") [] [')'] :=
        (scans_labelName label).append (by decide)
      exact .block depth (head.around (scans_code test ht) (by decide))
        (nests_block body hb (depth + 1)) (.close depth)
  | .doWhile label body test, ⟨ht, hb⟩, depth => by
      have head : Scans (labelName label ++ ": do \x7b") [] ['\x7d'] :=
        (scans_labelName label).append (by decide)
      have tail : Scans ("\x7d while (" ++ test.text ++ ");") ['\x7d'] [] :=
        .around (l := [')']) (by decide) (scans_code test ht) (by decide)
      exact .block depth head (nests_block body hb (depth + 1)) (.one tail)
  | .forOf label header iterable body, ⟨hh, hi, hb⟩, depth => by
      have head : Scans (labelName label ++ ": for (") [] [')'] :=
        (scans_labelName label).append (by decide)
      exact .block depth (head.around (scans_loopRange hh hi) (by decide))
        (nests_block body hb (depth + 1)) (.close depth)
  | .switch subject arms, ⟨hs, ha⟩, depth => by
      have head : Scans ("switch (" ++ subject.text ++ ") \x7b") [] ['\x7d'] :=
        .around (l := [')']) (by decide) (scans_code subject hs) (by decide)
      exact .block depth head (nests_arms arms ha depth) (.close depth)
  | .function name params body, ⟨hn, hp, hb⟩, depth =>
      .block depth (scans_functionHead hn hp) (nests_block body hb (depth + 1)) (.close depth)
  | .assignFunction name params body, ⟨hn, hp, hb⟩, depth => by
      have head : Scans (name ++ " = ") [] [] := (scans_name hn).append (by decide)
      have tail : Scans "\x7d;" ['\x7d'] [] := by decide
      exact .block depth (head.append (scans_functionHead hn hp)) (nests_block body hb (depth + 1))
        (.one tail)
  | .ret value, h, depth | .throw value, h, depth =>
      .one (.around (l := []) (by decide) (scans_code value h) (by decide))
  | .jump keyword (some label), _, depth => by
      have head : Scans (keyword.keyword ++ " ") [] [] := by cases keyword <;> decide
      exact .one (head.around (scans_labelName label) (by decide))
  | .jump keyword none, _, depth => by
      have whole : Scans (keyword.keyword ++ ";") [] [] := by cases keyword <;> decide
      exact .one whole
  | .tryCatch body name handler, ⟨hb, hn, hh⟩, depth => by
      have head : Scans "try \x7b" [] ['\x7d'] := by decide
      have middle : Scans ("\x7d catch (" ++ caughtName ++ ") \x7b") ['\x7d'] ['\x7d'] := by decide
      have handled := Nests.cons (l := ⟨depth + 1, _⟩) (scans_handled hn)
        (nests_block handler hh (depth + 1))
      have tail := Nests.block depth middle handled (.close depth)
      rw [Item.lines]
      exact .block depth head (nests_block body hb (depth + 1)) tail

/-- The lines after the body of a condition close its brace. -/
theorem nests_branch : ∀ rest : Branch, rest.WellFormed dollar →
    ∀ depth, Nests (rest.lines depth) ['\x7d'] []
  | .none, _, depth => .close depth
  | .otherwise body, hb, depth => by
      have head : Scans "\x7d else \x7b" ['\x7d'] ['\x7d'] := by decide
      exact .block depth head (nests_block body hb (depth + 1)) (.close depth)
  | .elseIf test body rest, ⟨ht, hb, hr⟩, depth => by
      have head : Scans ("\x7d else if (" ++ test.text ++ ") \x7b") ['\x7d'] ['\x7d'] :=
        .around (l := [')']) (by decide) (scans_code test ht) (by decide)
      exact .block depth head (nests_block body hb (depth + 1)) (nests_branch rest hr depth)

theorem nests_arms : ∀ arms : List Case, WellFormedCases dollar arms →
    ∀ depth, Nests (armLines depth arms) [] []
  | [], _, _ => .nil []
  | .mk patterns body :: rest, ⟨hp, hb, hr⟩, depth => by
      have opened := (nests_patternLines depth patterns hp).append
        ((nests_block body hb (depth + 1)).inside ['\x7d'])
      have leave : Scans "break;" ['\x7d'] ['\x7d'] := by decide
      exact opened.append (.cons leave ((Nests.close depth).append (nests_arms rest hr depth)))

theorem nests_block : ∀ items : List Item, WellFormedItems dollar items →
    ∀ depth, Nests (blockLines depth items) [] []
  | [], _, _ => .nil []
  | item :: rest, ⟨hi, hr⟩, depth =>
      (nests_item item hi depth).append (nests_block rest hr depth)

end

end Target

/-- The text emitted for a program that was read closes its brackets in nested order and
ends its strings, and no comment begins in it. -/
theorem wellNested_generate {o : Options} {source : String} {program : List Stmt}
    (h : parse o source = .ok program) (o' : Options) (file : String) :
    Target.WellNested (generate o' file program) := by
  have tree := wellFormed_of_parse o source program h
  exact Target.nests_block _ (Target.wellFormed_emitProgram ⟨file, o'.implicitReturn⟩ tree) 0

/-- Brackets, quotes and a comment sign inside a string are part of it, and a rounding
division is written as a call. -/
theorem wellNested_generate_string :
    parse {} "fn f(x)\n  g[\"//(\\\"\"] = x // 2\nend\n" =
        .ok [.func "f" ["x"]
          [.expr (.assign none (.index (.ident "g") (.str "\"//(\\\"\""))
            (.binary .floorDiv (.ident "x") (.number "2")))]] ∧
      Target.WellNested (generate {} "a" [.func "f" ["x"]
          [.expr (.assign none (.index (.ident "g") (.str "\"//(\\\"\""))
            (.binary .floorDiv (.ident "x") (.number "2")))]]) := by
  refine (and_iff_left_of_imp fun h => wellNested_generate h {} "a").mpr ?_
  cbv

end ScriptLang
