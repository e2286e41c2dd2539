import Mathlib
import ScriptLang.Proofs.Target.ExplicitReturn
import ScriptLang.Proofs.Target.StringValue
import ScriptLang.Target.Module

/-!
# The name of the file in a module

A module has the name of its file in the banner, and in the place that each assertion
reports. The latter is quoted, and the program is emitted the same under every name when
there is no assertion in it.

The banner has the name as it is. It is a comment, and a comment goes on to the first end of
a line, so a name without such an end does not matter to the target. Of any other name the
part from its first end of a line on is program text.
-/

namespace ScriptLang

/-! ## Programs without assertions -/

mutual

/-- Neither the statement is an assertion nor one of those in it, however deep. -/
def Stmt.assertionFree : Stmt → Bool
  | .cond _ body rest => assertionFree body && rest.assertionFree
  | .whileLoop _ body | .doWhile _ body | .forEach _ _ body | .func _ _ body =>
    assertionFree body
  | .select _ arms => assertionFreeInArms arms
  | .attempt body _ handler => assertionFree body && assertionFree handler
  | .assert .. => false
  | .expr _ | .ret _ | .outer _ | .break | .continue | .throw _ => true

/-- The blocks of a condition other than its first one are free of assertions. -/
def Alternative.assertionFree : Alternative → Bool
  | .none => true
  | .otherwise body => assertionFree body
  | .elif _ body rest => assertionFree body && rest.assertionFree

/-- The bodies of the arms are free of assertions. -/
def assertionFreeInArms : List Arm → Bool
  | [] => true
  | .mk _ body :: rest => assertionFree body && assertionFreeInArms rest

/-- The statements are free of assertions. -/
def assertionFree : List Stmt → Bool
  | [] => true
  | s :: rest => s.assertionFree && assertionFree rest

end

namespace Target

mutual

theorem emit_of_assertionFree (file file' : String) (returns : Bool) (loop : Option Nat) :
    ∀ s : Stmt, s.assertionFree → emit ⟨file, returns⟩ loop s = emit ⟨file', returns⟩ loop s
  | .expr _ | .ret _ | .outer _ | .break | .continue | .throw _ => fun _ => by
      simp only [emit]
  | .assert .. => nofun
  | .cond _ body rest => fun free => by
      simp only [Stmt.assertionFree, Bool.and_eq_true] at free
      simp only [emit, emitFunctions_of_assertionFree file file' returns body free.1,
        emitOthers_of_assertionFree file file' returns loop body free.1,
        emitBranch_of_assertionFree file file' returns loop rest free.2]
  | .whileLoop _ body | .doWhile _ body | .forEach _ _ body => fun free => by
      simp only [Stmt.assertionFree] at free
      simp only [emit, emitFunctions_of_assertionFree file file' returns body free,
        emitOthers_of_assertionFree file file' returns _ body free]
  | .select _ arms => fun free => by
      simp only [Stmt.assertionFree] at free
      simp only [emit, emitArms_of_assertionFree file file' returns loop arms free]
  | .func name params body => fun free => by
      simp only [Stmt.assertionFree] at free
      simp only [emit, emitBody_of_assertionFree file file' returns returns body free]
  | .attempt body _ handler => fun free => by
      simp only [Stmt.assertionFree, Bool.and_eq_true] at free
      simp only [emit, emitFunctions_of_assertionFree file file' returns body free.1,
        emitOthers_of_assertionFree file file' returns loop body free.1,
        emitFunctions_of_assertionFree file file' returns handler free.2,
        emitOthers_of_assertionFree file file' returns loop handler free.2]

theorem emitBranch_of_assertionFree (file file' : String) (returns : Bool)
    (loop : Option Nat) :
    ∀ rest : Alternative, rest.assertionFree →
      emitBranch ⟨file, returns⟩ loop rest = emitBranch ⟨file', returns⟩ loop rest
  | .none => fun _ => by simp only [emitBranch]
  | .otherwise body => fun free => by
      simp only [Alternative.assertionFree] at free
      simp only [emitBranch, emitFunctions_of_assertionFree file file' returns body free,
        emitOthers_of_assertionFree file file' returns loop body free]
  | .elif _ body rest => fun free => by
      simp only [Alternative.assertionFree, Bool.and_eq_true] at free
      simp only [emitBranch, emitFunctions_of_assertionFree file file' returns body free.1,
        emitOthers_of_assertionFree file file' returns loop body free.1,
        emitBranch_of_assertionFree file file' returns loop rest free.2]

theorem emitArms_of_assertionFree (file file' : String) (returns : Bool) (loop : Option Nat) :
    ∀ arms : List Arm, assertionFreeInArms arms →
      emitArms ⟨file, returns⟩ loop arms = emitArms ⟨file', returns⟩ loop arms
  | [] => fun _ => by simp only [emitArms]
  | .mk _ body :: rest => fun free => by
      simp only [assertionFreeInArms, Bool.and_eq_true] at free
      simp only [emitArms, emitFunctions_of_assertionFree file file' returns body free.1,
        emitOthers_of_assertionFree file file' returns loop body free.1,
        emitArms_of_assertionFree file file' returns loop rest free.2]

theorem emitFunctions_of_assertionFree (file file' : String) (returns : Bool) :
    ∀ body : List Stmt, assertionFree body →
      emitFunctions ⟨file, returns⟩ body = emitFunctions ⟨file', returns⟩ body
  | [] => fun _ => by simp only [emitFunctions]
  | .func name params body :: rest => fun free => by
      simp only [assertionFree, Stmt.assertionFree, Bool.and_eq_true] at free
      simp only [emitFunctions, emitBody_of_assertionFree file file' returns returns body free.1,
        emitFunctions_of_assertionFree file file' returns rest free.2]
  | .expr _ :: rest | .cond .. :: rest | .whileLoop .. :: rest | .doWhile .. :: rest
  | .forEach .. :: rest | .select .. :: rest | .ret _ :: rest | .outer _ :: rest
  | .break :: rest | .continue :: rest | .assert .. :: rest | .throw _ :: rest
  | .attempt .. :: rest => fun free => by
      simp only [assertionFree, Bool.and_eq_true] at free
      simp only [emitFunctions, emitFunctions_of_assertionFree file file' returns rest free.2]

theorem emitOthers_of_assertionFree (file file' : String) (returns : Bool)
    (loop : Option Nat) :
    ∀ body : List Stmt, assertionFree body →
      emitOthers ⟨file, returns⟩ loop body = emitOthers ⟨file', returns⟩ loop body
  | [] => fun _ => by simp only [emitOthers]
  | s :: rest => fun free => by
      simp only [assertionFree, Bool.and_eq_true] at free
      simp only [emitOthers, emit_of_assertionFree file file' returns loop s free.1,
        emitOthers_of_assertionFree file file' returns loop rest free.2]

theorem emitBody_of_assertionFree (file file' : String) (returns last : Bool) :
    ∀ body : List Stmt, assertionFree body →
      emitBody ⟨file, returns⟩ last body = emitBody ⟨file', returns⟩ last body
  | [] => fun _ => by simp only [emitBody]
  | s :: rest => fun free => by
      simp only [assertionFree, Bool.and_eq_true] at free
      by_cases h : ∃ e, s = .expr e ∧ rest = []
      · obtain ⟨e, rfl, rfl⟩ := h
        simp only [emitBody]
      · rw [emitBody_cons h, emitBody_cons h, emit_of_assertionFree file file' returns none s free.1,
          emitBody_of_assertionFree file file' returns last rest free.2]

end

end Target

/-- A program without assertions is emitted the same whatever its file is called. -/
theorem generate_of_assertionFree {program : List Stmt} (free : assertionFree program)
    (o : Options) (file file' : String) : generate o file program = generate o file' program := by
  rw [generate, generate, Target.emitProgram, Target.emitProgram,
    Target.emitBody_of_assertionFree file file' _ _ program free]

/-! ## Comments of the target -/

namespace Target

/-- The character is the end of a line of the target, or a part of one. -/
def EndsLine (c : Char) : Prop := ∃ terminator ∈ lineTerminators, c ∈ terminator

instance : DecidablePred EndsLine := fun c =>
  inferInstanceAs (Decidable (∃ terminator ∈ lineTerminators, c ∈ terminator))

/-- No line of the target ends in the text. -/
def OnOneLine (cs : List Char) : Prop := ∀ c ∈ cs, ¬ EndsLine c

/-- What is left of a text from the first end of a line on. -/
def fromLineEnd (cs : List Char) : List Char := cs.dropWhile fun c => ¬ EndsLine c

/-- What is left of a text behind the comment that it begins with. The end of the line is
not a part of the comment. -/
def behindComment? : List Char → Option (List Char)
  | '/' :: '/' :: rest => some (fromLineEnd rest)
  | _ => none

/-- The line has nothing but a comment in it, and it is one line only. -/
def IsCommentLine (line : String) : Prop :=
  ∃ text, line.toList = '/' :: '/' :: (text ++ ['\n']) ∧ OnOneLine text

instance (cs : List Char) : Decidable (OnOneLine cs) :=
  inferInstanceAs (Decidable (∀ c ∈ cs, ¬ EndsLine c))

theorem endsLine_lineFeed : EndsLine '\n' := by decide

theorem fromLineEnd_eq_nil {cs : List Char} : fromLineEnd cs = [] ↔ OnOneLine cs := by
  simp [fromLineEnd, List.dropWhile_eq_nil_iff, OnOneLine]

theorem fromLineEnd_append {cs : List Char} (one : OnOneLine cs) (rest : List Char) :
    fromLineEnd (cs ++ rest) = fromLineEnd rest :=
  List.dropWhile_append_of_pos fun c hc => decide_eq_true (one c hc)

theorem fromLineEnd_append_of_not {cs : List Char} (several : ¬ OnOneLine cs)
    (rest : List Char) : fromLineEnd (cs ++ rest) = fromLineEnd cs ++ rest := by
  have more : (fromLineEnd cs).isEmpty = false := by
    rw [List.isEmpty_eq_false_iff]
    exact fun h => several (fromLineEnd_eq_nil.mp h)
  rw [fromLineEnd] at more ⊢
  rw [List.dropWhile_append, more, if_neg Bool.false_ne_true, fromLineEnd]

theorem fromLineEnd_lineFeed (rest : List Char) : fromLineEnd ('\n' :: rest) = '\n' :: rest :=
  List.dropWhile_cons_of_neg (by simp [endsLine_lineFeed])

/-- Behind a comment line is its line feed, then everything else. -/
theorem behindComment?_append {line : String} (h : IsCommentLine line) (rest : List Char) :
    behindComment? (line.toList ++ rest) = some ('\n' :: rest) := by
  obtain ⟨text, spelled, one⟩ := h
  rw [spelled, List.cons_append, List.cons_append, List.append_assoc, behindComment?,
    fromLineEnd_append one, List.singleton_append, fromLineEnd_lineFeed]

end Target

/-! ## The banner -/

open Target

/-- The text of a module behind the preamble, with a given line before the program. -/
def enclosed (line code : String) : String :=
  line ++ ("(function () \x7b\n" ++ code ++ "\x7d)();\n")

/-- What the target reads behind the preamble and the comment that follows it. -/
def behindBanner? (text : String) : Option (List Char) :=
  behindComment? (text.toList.drop preamble.toList.length)

/-- After the preamble each of the texts has a comment line, and then they are the same. -/
def AlikeButForComment (text text' : String) : Prop :=
  ∃ line line' rest, IsCommentLine line ∧ IsCommentLine line' ∧
    text = preamble ++ (line ++ rest) ∧ text' = preamble ++ (line' ++ rest)

theorem toList_bannerLine (name : String) :
    (bannerLine name).toList =
      '/' :: '/' :: (" ── ".toList ++ (name.toList ++ " ──".toList) ++ ['\n']) := by
  simp [bannerLine]

theorem onOneLine_ornament : OnOneLine " ── ".toList ∧ OnOneLine " ──".toList := by
  simp [OnOneLine, EndsLine, lineTerminators]

/-- The banner is a comment line for the names on one line, and for no other name. -/
theorem isCommentLine_bannerLine {name : String} :
    IsCommentLine (bannerLine name) ↔ OnOneLine name.toList := by
  constructor
  · rintro ⟨text, spelled, one⟩ c hc
    rw [toList_bannerLine] at spelled
    obtain ⟨same, -⟩ := List.append_inj' (List.cons.inj (List.cons.inj spelled).2).2 rfl
    refine one c (same ▸ ?_)
    exact List.mem_append_right _ (List.mem_append_left _ hc)
  · intro one
    refine ⟨_, toList_bannerLine name, fun c hc => ?_⟩
    rw [List.mem_append, List.mem_append] at hc
    rcases hc with before | inside | after
    · exact onOneLine_ornament.1 c before
    · exact one c inside
    · exact onOneLine_ornament.2 c after

/-- Behind the comment of a banner are the end of the name, from its first end of a line on,
and everything after the banner. -/
theorem behindComment?_bannerLine (name : String) (rest : List Char) :
    behindComment? ((bannerLine name).toList ++ rest) =
      some (if OnOneLine name.toList then '\n' :: rest
        else fromLineEnd name.toList ++ (" ──\n".toList ++ rest)) := by
  by_cases one : OnOneLine name.toList
  · rw [if_pos one, behindComment?_append (isCommentLine_bannerLine.mpr one)]
  · have spelled : (bannerLine name).toList ++ rest =
        '/' :: '/' :: (" ── ".toList ++ (name.toList ++ (" ──\n".toList ++ rest))) := by
      simp [bannerLine]
    rw [if_neg one, spelled, behindComment?, fromLineEnd_append onOneLine_ornament.1,
      fromLineEnd_append_of_not one]

theorem behindBanner?_preamble (text : String) :
    behindBanner? (preamble ++ text) = behindComment? text.toList := by
  rw [behindBanner?, String.toList_append, List.drop_left]

theorem behindBanner?_enclosed (line code : String) :
    behindBanner? (preamble ++ enclosed line code) =
      behindComment? (line.toList ++ ("(function () \x7b\n" ++ code ++ "\x7d)();\n").toList) := by
  rw [behindBanner?_preamble, enclosed, String.toList_append]

theorem moduleText_eq (c : Compiled) :
    c.moduleText = preamble ++ enclosed (bannerLine c.name) c.text := by
  simp only [Compiled.moduleText, enclosed, String.append_assoc]

/-- Two banners leave the same text behind exactly if the names are the same from their first
ends of a line on. -/
theorem behindComment?_bannerLine_inj (name name' : String) (rest : List Char) :
    behindComment? ((bannerLine name).toList ++ rest) =
        behindComment? ((bannerLine name').toList ++ rest) ↔
      fromLineEnd name.toList = fromLineEnd name'.toList := by
  -- a name on one line leaves less behind than any other
  have shorter {n n' : String} (one : OnOneLine n.toList) (several : ¬ OnOneLine n'.toList) :
      '\n' :: rest ≠ fromLineEnd n'.toList ++ (" ──\n".toList ++ rest) := by
    intro same
    have lengths := congrArg List.length same
    simp at lengths
    omega
  rw [behindComment?_bannerLine, behindComment?_bannerLine, Option.some_inj]
  by_cases one : OnOneLine name.toList <;> by_cases one' : OnOneLine name'.toList
  · simp only [if_pos one, if_pos one', fromLineEnd_eq_nil.mpr one, fromLineEnd_eq_nil.mpr one']
  · simp only [if_pos one, if_neg one', fromLineEnd_eq_nil.mpr one]
    exact iff_of_false (shorter one one') fun h => one' (fromLineEnd_eq_nil.mp h.symm)
  · simp only [if_neg one, if_pos one', fromLineEnd_eq_nil.mpr one']
    exact iff_of_false (fun h => shorter one' one h.symm) fun h => one (fromLineEnd_eq_nil.mp h)
  · simp only [if_neg one, if_neg one', List.append_cancel_right_eq]

/-- What follows the preamble is a comment line and the program exactly if the name is on one
line. -/
theorem exists_commentLine_iff {c : Compiled} :
    (∃ line, IsCommentLine line ∧ c.moduleText = preamble ++ enclosed line c.text) ↔
      OnOneLine c.name.toList := by
  rw [← isCommentLine_bannerLine]
  constructor
  · rintro ⟨line, comment, same⟩
    have lines : bannerLine c.name = line := by
      simpa only [moduleText_eq, enclosed, String.append_assoc, String.append_right_inj,
        String.append_left_inj] using same
    rwa [lines]
  · exact fun comment => ⟨_, comment, moduleText_eq c⟩

/-- Two texts that are alike but for a comment line leave the same behind it. -/
theorem AlikeButForComment.behindBanner? {text text' : String}
    (h : AlikeButForComment text text') : behindBanner? text = behindBanner? text' := by
  obtain ⟨line, line', rest, comment, comment', rfl, rfl⟩ := h
  rw [behindBanner?_preamble, behindBanner?_preamble, String.toList_append, String.toList_append,
    behindComment?_append comment, behindComment?_append comment']

theorem compile_of_parse {o : Options} {source : String} {program : List Stmt}
    (parsed : parse o source = .ok program) (name : String) :
    compile o name source = .ok ⟨name, program, generate o name program⟩ := by
  rw [compile, parsed]
  rfl

/-- A program without assertions has the same code whatever its file is called. What follows
the preamble is a comment line and then this code if the name is on one line, and only then:
the modules under two such names are alike but for the comment. Under any two names the
target reads the same behind the banner exactly if the names are the same from their first
ends of a line on. -/
theorem file_name_in_module (o : Options) (source : String) (program : List Stmt)
    (parsed : parse o source = .ok program) (free : assertionFree program) :
    ∃ code, ∀ name, ∃ c, compile o name source = .ok c ∧ c.text = code ∧
      c.moduleText = preamble ++ enclosed (bannerLine name) code ∧
      ((∃ line, IsCommentLine line ∧ c.moduleText = preamble ++ enclosed line code) ↔
        OnOneLine name.toList) ∧
      ∀ name' c', compile o name' source = .ok c' →
        (OnOneLine name.toList → OnOneLine name'.toList →
          AlikeButForComment c.moduleText c'.moduleText) ∧
        (behindBanner? c.moduleText = behindBanner? c'.moduleText ↔
          fromLineEnd name.toList = fromLineEnd name'.toList) := by
  refine ⟨generate o "" program, fun name => ⟨_, compile_of_parse parsed name, ?_, ?_, ?_, ?_⟩⟩
  · exact generate_of_assertionFree free o name ""
  · rw [moduleText_eq, generate_of_assertionFree free o name ""]
  · rw [generate_of_assertionFree free o name ""]
    exact exists_commentLine_iff
  · intro name' c' compiled
    obtain rfl := Except.ok.inj ((compile_of_parse parsed name').symm.trans compiled)
    rw [moduleText_eq, moduleText_eq, generate_of_assertionFree free o name "",
      generate_of_assertionFree free o name' ""]
    constructor
    · exact fun one one' => ⟨_, _, _, isCommentLine_bannerLine.mpr one,
        isCommentLine_bannerLine.mpr one', rfl, rfl⟩
    · rw [behindBanner?_enclosed, behindBanner?_enclosed]
      exact behindComment?_bannerLine_inj name name' _

/-- One program under two names on one line. -/
theorem file_name_in_module_assignment :
    parse {} "x = 1\n" = .ok [.expr (.assign none (.ident "x") (.number "1"))] ∧
      assertionFree [.expr (.assign none (.ident "x") (.number "1"))] ∧
      ∃ c c', compile {} "a.va" "x = 1\n" = .ok c ∧ compile {} "b.va" "x = 1\n" = .ok c' ∧
        AlikeButForComment c.moduleText c'.moduleText := by
  have parsed : parse {} "x = 1\n" = .ok [.expr (.assign none (.ident "x") (.number "1"))] := by
    cbv
  obtain ⟨code, named⟩ := file_name_in_module {} "x = 1\n" _ parsed rfl
  obtain ⟨c, compiled, -, -, -, others⟩ := named "a.va"
  obtain ⟨c', compiled', -⟩ := named "b.va"
  refine ⟨parsed, rfl, c, c', compiled, compiled', (others _ c' compiled').1 ?_ ?_⟩ <;>
  simp [OnOneLine, EndsLine, lineTerminators]

/-- With a line feed in the name, the rest of the name is program text. -/
theorem file_name_with_lineFeed :
    ∃ c c', compile {} "a.va" "x = 1\n" = .ok c ∧ compile {} "a\nb.va" "x = 1\n" = .ok c' ∧
      assertionFree c.program ∧ c.text = c'.text ∧
      ¬ AlikeButForComment c.moduleText c'.moduleText ∧
      ¬ (∃ line, IsCommentLine line ∧ c'.moduleText = preamble ++ enclosed line c'.text) ∧
      ∃ rest, behindBanner? c'.moduleText = some ("\nb.va ──\n".toList ++ rest) := by
  have parsed : parse {} "x = 1\n" = .ok [.expr (.assign none (.ident "x") (.number "1"))] := by
    cbv
  have several : ¬ OnOneLine "a\nb.va".toList := fun one =>
    one '\n' (by decide) endsLine_lineFeed
  have ending : fromLineEnd "a\nb.va".toList = "\nb.va".toList := by
    have one : OnOneLine ['a'] := by simp [OnOneLine, EndsLine, lineTerminators]
    exact (fromLineEnd_append one _).trans (fromLineEnd_lineFeed _)
  have behind (c : Compiled) (named : c.name = "a\nb.va") :
      ∃ rest, behindBanner? c.moduleText = some ("\nb.va ──\n".toList ++ rest) := by
    rw [moduleText_eq, behindBanner?_enclosed, named, behindComment?_bannerLine,
      if_neg several, ending]
    exact ⟨_, rfl⟩
  refine ⟨_, _, compile_of_parse parsed "a.va", compile_of_parse parsed "a\nb.va", rfl,
    generate_of_assertionFree rfl {} "a.va" "a\nb.va", fun alike => ?_,
    fun h => several (exists_commentLine_iff.mp h), behind _ rfl⟩
  · obtain ⟨rest, name⟩ := behind ⟨"a\nb.va", _, _⟩ rfl
    have one : OnOneLine "a.va".toList := by simp [OnOneLine, EndsLine, lineTerminators]
    have same := alike.behindBanner?
    rw [name, moduleText_eq, behindBanner?_enclosed, behindComment?_bannerLine,
      if_pos one] at same
    cases same

end ScriptLang
