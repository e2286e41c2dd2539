import ScriptLang.Proofs.Parser.WellFormed
import ScriptLang.Proofs.Target.Lines
import ScriptLang.Proofs.Target.WellFormed

/-!
# The words of emitted text

Every word of emitted text is one of the compiler's own or stands for an identifier of
the program. The tree that was written out tells which, since the compiler's own words
stand in fixed places of it; numbers, strings and marks are no words.

`Words` says which words are read in a text, with one rule for each way of putting texts
together, and `readWords_textOf` goes from the lines of emitted code to its text.
-/

namespace ScriptLang

/-- The text of a word, and nothing for other pieces. -/
def Piece.word? (p : Piece) : Option String :=
  if p.1 = .word then some p.2 else none

/-- The words of a text that has no fault. -/
def readWords (lexed : Lexed) : Option (List String) :=
  match lexed.fault with
  | none => some (lexed.tokens.filterMap fun t => t.piece.word?)
  | some _ => none

namespace Target

open Lexer Piece

/-- A word of emitted text, and where it comes from. -/
inductive EmittedWord where
  /-- A keyword of the target or a name of the compiler's own. -/
  | own (text : String)
  /-- The emitted name of an identifier. -/
  | identifier (name : String)
  deriving DecidableEq, Repr

/-- The word as it is written. -/
def EmittedWord.text : EmittedWord → String
  | own text => text
  | identifier name => name

/-! ## Words of emitted code -/

/-- The words that call a helper. -/
def Helper.words : Helper → List EmittedWord
  | .floor => [.own "Math", .own "floor"]
  | h => [.own h.name]

mutual

/-- The words of an expression, in the order of its text. -/
def Code.words : Code → List EmittedWord
  | .var name => [.identifier name]
  | .literal _ => []
  | .undefined => [.own "undefined"]
  | .group inner => inner.words
  | .unary _ operand => operand.words
  | .binary _ lhs rhs => lhs.words ++ rhs.words
  | .assign _ target value => target.words ++ value.words
  | .call callee args => callee.words ++ (wordsOf args).flatten
  | .helper h args => h.words ++ (wordsOf args).flatten
  | .updater _ value => .own updatedName :: .own updatedName :: value.words
  | .array items => (wordsOf items).flatten
  | .newMap entries => .own "new" :: .own "Map" :: (wordsOfEntries entries).flatten

/-- The words of each of some expressions. -/
def wordsOf : List Code → List (List EmittedWord)
  | [] => []
  | e :: rest => e.words :: wordsOf rest

/-- The words of each entry of a map. -/
def wordsOfEntries : List (Code × Code) → List (List EmittedWord)
  | [] => []
  | (key, value) :: rest => (key.words ++ value.words) :: wordsOfEntries rest

end

/-- The words of the head of a function. -/
def headWords (name : String) (params : List String) : List EmittedWord :=
  .own "function" :: .identifier name :: params.map .identifier

/-- The words of what a loop assigns and ranges over. -/
def rangeWords (header : LoopHeader) (iterable : Code) : List EmittedWord :=
  match header with
  | .single name => .identifier name :: .own "of" :: (Code.helper .iterate [iterable]).words
  | .keyed key value =>
    .identifier key :: .identifier value :: .own "of" :: (Code.helper .entries [iterable]).words

/-- The words of the patterns of an arm. -/
def patternWords : List Code → List EmittedWord
  | [] => [.own "default"]
  | [p] => .own "case" :: p.words
  | p :: rest => .own "case" :: p.words ++ patternWords rest

mutual

/-- The words of a statement, in the order of its text. -/
def Item.words : Item → List EmittedWord
  | .guard param =>
    [.own "if", .identifier param, .own "undefined", .identifier param, .own "null"]
  | .declare name => [.own "let", .identifier name, .own "null"]
  | .run e => e.words
  | .cond test body rest => .own "if" :: test.words ++ (wordsIn body ++ rest.words)
  | .whileLoop label test body =>
    .own (labelName label) :: .own "while" :: test.words ++ wordsIn body
  | .doWhile label body test =>
    .own (labelName label) :: .own "do" :: (wordsIn body ++ .own "while" :: test.words)
  | .forOf label header iterable body =>
    .own (labelName label) :: .own "for" :: rangeWords header iterable ++ wordsIn body
  | .switch subject arms => .own "switch" :: subject.words ++ wordsInCases arms
  | .function name params body => headWords name params ++ wordsIn body
  | .assignFunction name params body =>
    .identifier name :: headWords name params ++ wordsIn body
  | .ret value => .own "return" :: value.words
  | .jump keyword (some label) => [.own keyword.keyword, .own (labelName label)]
  | .jump keyword none => [.own keyword.keyword]
  | .throw value => .own "throw" :: value.words
  | .tryCatch body name handler =>
    .own "try" :: (wordsIn body ++ .own "catch" :: .own caughtName ::
      .identifier name :: .own Helper.caught.name :: .own caughtName :: wordsIn handler)

/-- The words of what follows the body of a condition. -/
def Branch.words : Branch → List EmittedWord
  | .none => []
  | .otherwise body => .own "else" :: wordsIn body
  | .elseIf test body rest =>
    .own "else" :: .own "if" :: test.words ++ (wordsIn body ++ rest.words)

/-- The words of the arms of a switch. -/
def wordsInCases : List Case → List EmittedWord
  | [] => []
  | .mk patterns body :: rest =>
    patternWords patterns ++ wordsIn body ++ .own "break" :: wordsInCases rest

/-- The words of statements one after the other. -/
def wordsIn : List Item → List EmittedWord
  | [] => []
  | item :: rest => item.words ++ wordsIn rest

end

/-! ## Words of a text -/

variable {dollar : Bool} {a b text : String} {ws ws' : List EmittedWord}

/-- Whatever follows, the text is read with these words. -/
def Words (dollar : Bool) (text : String) (ws : List EmittedWord) : Prop :=
  ∃ ps, Reads dollar text ps ∧ ps.filterMap word? = ws.map EmittedWord.text

/-- In front of a separator, the text is read with these words. -/
def WordsSetOff (dollar : Bool) (text : String) (ws : List EmittedWord) : Prop :=
  ∃ ps, ReadsSetOff dollar text ps ∧ ps.filterMap word? = ws.map EmittedWord.text

namespace Words

theorem setOff (h : Words dollar text ws) : WordsSetOff dollar text ws := by
  obtain ⟨ps, reads, hw⟩ := h
  exact ⟨ps, reads.setOff, hw⟩

theorem append (ha : Words dollar a ws) (hb : Words dollar b ws') :
    Words dollar (a ++ b) (ws ++ ws') := by
  obtain ⟨ps, readsA, hp⟩ := ha
  obtain ⟨qs, readsB, hq⟩ := hb
  exact ⟨ps ++ qs, readsA.append readsB, by rw [List.filterMap_append, hp, hq, List.map_append]⟩

theorem append_setOff (ha : Words dollar a ws) (hb : WordsSetOff dollar b ws') :
    WordsSetOff dollar (a ++ b) (ws ++ ws') := by
  obtain ⟨ps, readsA, hp⟩ := ha
  obtain ⟨qs, readsB, hq⟩ := hb
  exact ⟨ps ++ qs, readsA.append_setOff readsB,
    by rw [List.filterMap_append, hp, hq, List.map_append]⟩

theorem fixed (h : ∀ dollar, (fixedPieces dollar text.length text.toList).map
    (·.filterMap word?) = some (ws.map EmittedWord.text)) : Words dollar text ws := by
  obtain ⟨ps, fixed, hw⟩ := Option.map_eq_some_iff.mp (h dollar)
  exact ⟨ps, fun _ _ hq => lexesTo_fixedPieces fixed hq, hw⟩

end Words

theorem WordsSetOff.append (ha : WordsSetOff dollar a ws) (hb : Words dollar b ws')
    (sep : BeginsSetOff b) : Words dollar (a ++ b) (ws ++ ws') := by
  obtain ⟨ps, readsA, hp⟩ := ha
  obtain ⟨qs, readsB, hq⟩ := hb
  exact ⟨ps ++ qs, readsA.append readsB sep,
    by rw [List.filterMap_append, hp, hq, List.map_append]⟩

/-- A text between two others, the second of which has no words. -/
theorem Words.around {inner : String} (ha : Words dollar a ws) (hi : WordsSetOff dollar inner ws')
    (hb : Words dollar b []) (sep : BeginsSetOff b) :
    Words dollar (a ++ inner ++ b) (ws ++ ws') := by
  have all := (ha.append_setOff hi).append hb sep
  rwa [List.append_nil] at all

namespace WordsSetOff

theorem own (h : LexesAs dollar .word text) : WordsSetOff dollar text [.own text] :=
  ⟨[word text], fun _ _ hs hq =>
    .piece (p := word text) (lexesBefore_of_setOff rfl h hs) hq, rfl⟩

theorem identifier (h : IsEmittedName dollar text) :
    WordsSetOff dollar text [.identifier text] := by
  obtain ⟨x, hx, rfl⟩ := h
  exact own (lexesAs_mangle hx.1)

/-- Numbers and strings are no words. -/
theorem literal (h : LexesAs dollar .number text ∨ LexesAs dollar .quote text) :
    WordsSetOff dollar text [] := by
  rcases h with h | h
  · exact ⟨[(.number, text)], fun _ _ hs hq =>
      .piece (p := (.number, text)) (lexesBefore_of_setOff rfl h hs) hq, rfl⟩
  · exact ⟨[(.quote, text)], fun _ _ hs hq =>
      .piece (p := (.quote, text)) (lexesBefore_of_setOff rfl h hs) hq, rfl⟩

/-- Brackets around a text. -/
theorem between (ha : Words dollar a ws) (h : WordsSetOff dollar text ws')
    (hb : Words dollar b []) (sep : BeginsSetOff b) :
    WordsSetOff dollar (a ++ text ++ b) (ws ++ ws') :=
  (ha.around h hb sep).setOff

/-- An operator in front of its operand. -/
theorem sign (op : UnaryOp) (h : WordsSetOff dollar text ws) (leads : Leads text) :
    WordsSetOff dollar (op.spelling ++ text) ws := by
  obtain ⟨ps, reads, hw⟩ := h
  obtain ⟨c, hc, -, -, -, sign⟩ := leads
  refine ⟨mark op.spelling :: ps, ?_, hw⟩
  intro s qs hs hq
  have apart : (text.toList ++ s).head? ≠ some '=' := by
    obtain ⟨rest, ht⟩ := List.head?_eq_some_iff.mp hc
    simpa [ht] using sign
  rw [String.toList_append, List.append_assoc]
  exact .piece (p := mark op.spelling) (lexesBefore_unary op apart) (reads s qs hs hq)

/-- An operator and blanks between two operands. -/
theorem infixed {op : Connective} (mem : op ∈ Connective.all) (ha : WordsSetOff dollar a ws)
    (hb : WordsSetOff dollar b ws') :
    WordsSetOff dollar (a ++ " " ++ op.spelling ++ " " ++ b) (ws ++ ws') := by
  have operator : Words dollar (" " ++ op.spelling ++ " ") [] := by
    refine ⟨[mark op.spelling], ?_, rfl⟩
    intro s qs hq
    simpa using hq.operator (spelling_mem_marks op mem)
  have all := (ha.append operator ⟨' ', by simp, by decide⟩).append_setOff hb
  simpa [String.append_assoc] using all

/-- Texts with commas between them. -/
theorem list {texts : List String} {wss : List (List EmittedWord)}
    (h : List.Forall₂ (WordsSetOff dollar) texts wss) :
    WordsSetOff dollar (String.intercalate ", " texts) wss.flatten := by
  induction h with
  | nil => exact (Words.fixed (by decide)).setOff
  | cons first rest ih =>
      cases rest with
      | nil =>
          rw [String.intercalate_singleton]
          simpa using first
      | cons _ _ =>
          have comma : Words dollar ", " [] := .fixed (by decide)
          have all := (first.append comma ⟨',', rfl, by decide⟩).append_setOff ih
          rw [String.intercalate_cons_cons]
          simpa using all

end WordsSetOff

/-! ## Expressions -/

theorem leads_name (h : IsEmittedName dollar text) : Leads text := by
  obtain ⟨x, hx, rfl⟩ := h
  exact leads_of_lexesAs rfl (lexesAs_mangle hx.1)

/-- An emitted expression begins with no line break, no comment and no sign. -/
theorem leads_code : ∀ c : Code, c.WellFormed dollar → Leads c.text
  | .var _, h => leads_name h
  | .literal _, h => by
      rcases h with h | h
      · exact leads_of_lexesAs rfl h
      · exact leads_of_lexesAs rfl h
  | .undefined, _ => ⟨'u', rfl, by decide⟩
  | .group inner, _ => ⟨'(', by simp [Code.text], by decide⟩
  | .unary op operand, _ => by
      apply Leads.append
      cases op with
      | not => exact ⟨'!', rfl, by decide⟩
      | bitNot => exact ⟨'~', rfl, by decide⟩
      | neg => exact ⟨'-', rfl, by decide⟩
  | .binary _ lhs _, ⟨_, h, _⟩ | .assign _ lhs _, ⟨_, h, _⟩ => by
      rw [Code.text, String.append_assoc, String.append_assoc, String.append_assoc]
      exact (leads_code lhs h).append _
  | .call callee _, ⟨h, _⟩ => by
      rw [Code.text, String.append_assoc, String.append_assoc]
      exact (leads_code callee h).append _
  | .helper h _, _ => by
      have name : Leads h.name := by
        cases h with
        | floor => exact ⟨'M', rfl, by decide⟩
        | _ => exact ⟨'_', rfl, by decide⟩
      rw [Code.text, String.append_assoc, String.append_assoc]
      exact name.append _
  | .updater _ _, _ => ⟨'(', by simp [Code.text], by decide⟩
  | .array _, _ => ⟨'[', by simp [Code.text], by decide⟩
  | .newMap [], _ => ⟨'n', rfl, by decide⟩
  | .newMap (_ :: _), _ => ⟨'n', by simp [Code.text], by decide⟩

mutual

/-- The words of a well-formed expression are read in its text. -/
theorem words_code : ∀ c : Code, c.WellFormed dollar → WordsSetOff dollar c.text c.words
  | .var _, h => .identifier h
  | .literal _, h => .literal h
  | .undefined, _ =>
      .own (lexesAs_word 'u' _ rfl (by cases dollar <;> rfl)
        (forall_mem_of_all (by cases dollar <;> decide)))
  | .group inner, h => by
      have opening : Words dollar "(" [] := .fixed (by decide)
      exact .between opening (words_code inner h) (.fixed (by decide)) ⟨')', rfl, by decide⟩
  | .unary op operand, h => .sign op (words_code operand h) (leads_code operand h)
  | .binary op lhs rhs, ⟨_, hl, hr⟩ => by
      have joined := (words_code lhs hl).infixed (binary_mem_all op) (words_code rhs hr)
      rwa [Connective.spelling, ← Code.text] at joined
  | .assign _ target value, ⟨updates, ht, hv⟩ =>
      .infixed (assign_mem_all updates) (words_code target ht) (words_code value hv)
  | .call callee args, ⟨hc, ha⟩ => by
      have opening : Words dollar "(" [] := .fixed (by decide)
      have head := (words_code callee hc).append opening ⟨'(', rfl, by decide⟩
      rw [List.append_nil] at head
      exact .between head (.list (words_codes args ha)) (.fixed (by decide)) ⟨')', rfl, by decide⟩
  | .helper h args, ha => by
      have head : Words dollar (h.name ++ "(") h.words := by
        apply Words.fixed
        cases h <;> decide
      exact .between head (.list (words_codes args ha)) (.fixed (by decide)) ⟨')', rfl, by decide⟩
  | .updater op value, ⟨_, hv⟩ => by
      have head : Words dollar ("(" ++ updatedName ++ ") => ") [.own updatedName] :=
        .fixed (by decide)
      have old : WordsSetOff dollar updatedName [.own updatedName] :=
        .own (lexesAs_word '_' _ rfl (by cases dollar <;> rfl)
          (forall_mem_of_all (by cases dollar <;> decide)))
      have all := head.append_setOff (old.infixed (binary_mem_all op) (words_code value hv))
      simpa [Code.text, Code.words, Connective.spelling, String.append_assoc] using all
  | .array items, h => by
      have opening : Words dollar "[" [] := .fixed (by decide)
      exact .between opening (.list (words_codes items h)) (.fixed (by decide))
        ⟨']', rfl, by decide⟩
  | .newMap [], _ => (Words.fixed (by decide)).setOff
  | .newMap (entry :: rest), h => by
      have opening : Words dollar "new Map([" [.own "new", .own "Map"] := .fixed (by decide)
      exact .between opening (.list (words_entryCodes (entry :: rest) h)) (.fixed (by decide))
        ⟨']', rfl, by decide⟩

theorem words_codes : ∀ cs : List Code, WellFormedCodes dollar cs →
    List.Forall₂ (WordsSetOff dollar) (textsOf cs) (wordsOf cs)
  | [], _ => .nil
  | c :: rest, ⟨hc, hr⟩ => .cons (words_code c hc) (words_codes rest hr)

theorem words_entryCodes : ∀ entries : List (Code × Code), WellFormedEntryCodes dollar entries →
    List.Forall₂ (WordsSetOff dollar) (entryTexts entries) (wordsOfEntries entries)
  | [], _ => .nil
  | (key, value) :: rest, ⟨hk, hv, hr⟩ => by
      have opening : Words dollar "[" [] := .fixed (by decide)
      have head := opening.around (words_code key hk) (b := ", ") (.fixed (by decide))
        ⟨',', rfl, by decide⟩
      exact .cons (.between head (words_code value hv) (.fixed (by decide)) ⟨']', rfl, by decide⟩)
        (words_entryCodes rest hr)

end

/-! ## Lines -/

/-- Whatever follows, the text is read as a line with these words. -/
structure HasWords (dollar : Bool) (text : String) (ws : List EmittedWord) : Prop where
  words : Words dollar text ws
  leads : Leads text

/-- A text in a line, in front of a mark. -/
theorem HasWords.around (ha : Words dollar a ws) (leads : Leads a)
    (h : WordsSetOff dollar text ws') (hb : Words dollar b []) (sep : BeginsSetOff b) :
    HasWords dollar (a ++ text ++ b) (ws ++ ws') :=
  ⟨ha.around h hb sep, (leads.append text).append b⟩

/-- The lines have these words, one line after the other. -/
def HaveWords (dollar : Bool) (lines : List Line) (ws : List EmittedWord) : Prop :=
  ∃ wss, List.Forall₂ (fun l ws => HasWords dollar l.text ws) lines wss ∧ wss.flatten = ws

namespace HaveWords

variable {lines lines' : List Line} {head last : String} (depth : Nat)

theorem nil : HaveWords dollar [] [] := ⟨[], .nil, rfl⟩

theorem append (h : HaveWords dollar lines ws) (h' : HaveWords dollar lines' ws') :
    HaveWords dollar (lines ++ lines') (ws ++ ws') := by
  obtain ⟨wss, lined, rfl⟩ := h
  obtain ⟨wss', lined', rfl⟩ := h'
  exact ⟨wss ++ wss', List.rel_append lined lined', List.flatten_append⟩

theorem cons (h : HasWords dollar text ws) (hr : HaveWords dollar lines ws') :
    HaveWords dollar (⟨depth, text⟩ :: lines) (ws ++ ws') := by
  obtain ⟨wss, lined, rfl⟩ := hr
  exact ⟨ws :: wss, .cons h lined, rfl⟩

theorem one (h : HasWords dollar text ws) : HaveWords dollar [⟨depth, text⟩] ws :=
  ⟨[ws], .cons h .nil, List.flatten_singleton⟩

/-- A block, with a last line that has no words. -/
theorem block (opens : HasWords dollar head ws) (body : HaveWords dollar lines ws')
    (closes : HasWords dollar last []) :
    HaveWords dollar (⟨depth, head⟩ :: (lines ++ [⟨depth, last⟩])) (ws ++ ws') := by
  have tail := body.append (.one depth closes)
  rw [List.append_nil] at tail
  exact .cons depth opens tail

end HaveWords

/-! ## Statements -/

theorem words_opening : Words dollar ") \x7b" [] := .fixed (by decide)

theorem words_semicolon : Words dollar ";" [] := .fixed (by decide)

theorem words_null : Words dollar " = null;" [.own "null"] := .fixed (by decide)

theorem hasWords_closing : HasWords dollar "\x7d" [] :=
  ⟨.fixed (by decide), ⟨'\x7d', rfl, by decide⟩⟩

/-- An expression behind a word. -/
theorem hasWords_after {c : Code} (ha : Words dollar a ws) (leads : Leads a)
    (h : c.WellFormed dollar) : HasWords dollar (a ++ c.text ++ ";") (ws ++ c.words) :=
  .around ha leads (words_code c h) words_semicolon ⟨';', rfl, by decide⟩

/-- An expression in parentheses that opens a block. -/
theorem hasWords_head {c : Code} (ha : Words dollar a ws) (leads : Leads a)
    (h : c.WellFormed dollar) : HasWords dollar (a ++ c.text ++ ") \x7b") (ws ++ c.words) :=
  .around ha leads (words_code c h) words_opening ⟨')', rfl, by decide⟩

/-- What stands behind the label of a loop. -/
theorem hasWords_label (label : Nat) (h : Words dollar text ws) (sep : BeginsSetOff text) :
    HasWords dollar (labelName label ++ text) (.own (labelName label) :: ws) where
  words := (WordsSetOff.own (lexesAs_labelName label)).append h sep
  leads := (leads_labelName label).append text

theorem words_params {params : List String} (hp : ∀ param ∈ params, IsEmittedName dollar param) :
    WordsSetOff dollar (String.intercalate ", " params) (params.map .identifier) := by
  have each : List.Forall₂ (WordsSetOff dollar) params (params.map fun p => [.identifier p]) := by
    rw [List.forall₂_map_right_iff, List.forall₂_same]
    exact fun param hm => .identifier (hp param hm)
  rw [List.map_eq_flatMap]
  exact .list each

theorem words_functionHead {name : String} {params : List String}
    (hn : IsEmittedName dollar name) (hp : ∀ param ∈ params, IsEmittedName dollar param) :
    Words dollar (functionHead name params) (headWords name params) := by
  have keyword : Words dollar "function " [.own "function"] := .fixed (by decide)
  have head := keyword.around (.identifier hn) (b := "(") (.fixed (by decide))
    ⟨'(', rfl, by decide⟩
  exact head.around (words_params hp) words_opening ⟨')', rfl, by decide⟩

theorem words_loopRange {header : LoopHeader} {iterable : Code}
    (hh : ∀ name ∈ header.names, IsEmittedName dollar name) (hi : iterable.WellFormed dollar) :
    WordsSetOff dollar (loopRange header iterable) (rangeWords header iterable) := by
  have items (h : Helper) : (Code.helper h [iterable]).WellFormed dollar := ⟨hi, trivial⟩
  cases header with
  | single name =>
      have of : Words dollar " of " [.own "of"] := .fixed (by decide)
      have name := WordsSetOff.identifier (hh name List.mem_cons_self)
      exact (name.append of ⟨' ', rfl, by decide⟩).append_setOff (words_code _ (items .iterate))
  | keyed key value =>
      have opening : Words dollar "[" [] := .fixed (by decide)
      have of : Words dollar "] of " [.own "of"] := .fixed (by decide)
      have key := WordsSetOff.identifier (hh key List.mem_cons_self)
      have value := WordsSetOff.identifier (hh value (List.mem_cons_of_mem _ List.mem_cons_self))
      have head := opening.around key (b := ", ") (.fixed (by decide)) ⟨',', rfl, by decide⟩
      exact ((head.append_setOff value).append of ⟨']', rfl, by decide⟩).append_setOff
        (words_code _ (items .entries))

/-- A pattern of an arm, in front of a colon. -/
theorem hasWords_case {p : Code} (h : p.WellFormed dollar) (hb : Words dollar b [])
    (sep : BeginsSetOff b) : HasWords dollar ("case " ++ p.text ++ b) (.own "case" :: p.words) := by
  have keyword : Words dollar "case " [.own "case"] := .fixed (by decide)
  exact .around keyword ⟨'c', rfl, by decide⟩ (words_code p h) hb sep

theorem haveWords_patternLines (depth : Nat) : ∀ patterns : List Code,
    WellFormedCodes dollar patterns →
      HaveWords dollar (patternLines depth patterns) (patternWords patterns)
  | [], _ => .one depth ⟨.fixed (by decide), ⟨'d', rfl, by decide⟩⟩
  | [_], h => .one depth (hasWords_case h.1 (.fixed (by decide)) ⟨':', rfl, by decide⟩)
  | _ :: q :: rest, h =>
      .cons depth (hasWords_case h.1 (.fixed (by decide)) ⟨':', rfl, by decide⟩)
        (haveWords_patternLines depth (q :: rest) h.2)

mutual

/-- The words of a well-formed statement are read in its lines. -/
theorem haveWords_item : ∀ item : Item, item.WellFormed dollar →
    ∀ depth, HaveWords dollar (item.lines depth) item.words
  | .guard param, h, depth => by
      have name := WordsSetOff.identifier h
      have test : Words dollar "if (" [.own "if"] := .fixed (by decide)
      have compared : Words dollar " === undefined) " [.own "undefined"] := .fixed (by decide)
      have head := (test.append_setOff name).append compared ⟨' ', rfl, by decide⟩
      exact .one depth ⟨(head.append_setOff name).append words_null ⟨' ', rfl, by decide⟩,
        ⟨'i', by simp, by decide⟩⟩
  | .declare name, h, depth => by
      have keyword : Words dollar "let " [.own "let"] := .fixed (by decide)
      have whole := (keyword.append_setOff (.identifier h)).append words_null ⟨' ', rfl, by decide⟩
      exact .one depth ⟨whole, ⟨'l', by simp, by decide⟩⟩
  | .run e, h, depth => by
      have whole := (words_code e h).append words_semicolon ⟨';', rfl, by decide⟩
      rw [List.append_nil] at whole
      exact .one depth ⟨whole, (leads_code e h).append _⟩
  | .cond test body rest, ⟨ht, hb, hr⟩, depth => by
      have keyword : Words dollar "if (" [.own "if"] := .fixed (by decide)
      exact .cons depth (hasWords_head keyword ⟨'i', rfl, by decide⟩ ht)
        ((haveWords_block body hb (depth + 1)).append (haveWords_branch rest hr depth))
  | .whileLoop label test body, ⟨ht, hb⟩, depth => by
      have keyword : Words dollar ": while (" [.own "while"] := .fixed (by decide)
      have head := hasWords_label label keyword ⟨':', rfl, by decide⟩
      exact .block depth (hasWords_head head.words head.leads ht)
        (haveWords_block body hb (depth + 1)) hasWords_closing
  | .doWhile label body test, ⟨ht, hb⟩, depth => by
      have keyword : Words dollar ": do \x7b" [.own "do"] := .fixed (by decide)
      have tail : Words dollar "\x7d while (" [.own "while"] := .fixed (by decide)
      have last := HasWords.around tail ⟨'\x7d', rfl, by decide⟩ (words_code test ht) (b := ");")
        (.fixed (by decide)) ⟨')', rfl, by decide⟩
      exact .cons depth (hasWords_label label keyword ⟨':', rfl, by decide⟩)
        ((haveWords_block body hb (depth + 1)).append (.one depth last))
  | .forOf label header iterable body, ⟨hh, hi, hb⟩, depth => by
      have keyword : Words dollar ": for (" [.own "for"] := .fixed (by decide)
      have head := hasWords_label label keyword ⟨':', rfl, by decide⟩
      exact .block depth (.around head.words head.leads (words_loopRange hh hi) words_opening
        ⟨')', rfl, by decide⟩) (haveWords_block body hb (depth + 1)) hasWords_closing
  | .switch subject arms, ⟨hs, ha⟩, depth => by
      have keyword : Words dollar "switch (" [.own "switch"] := .fixed (by decide)
      exact .block depth (hasWords_head keyword ⟨'s', rfl, by decide⟩ hs)
        (haveWords_arms arms ha depth) hasWords_closing
  | .function name params body, ⟨hn, hp, hb⟩, depth =>
      .block depth ⟨words_functionHead hn hp, ⟨'f', by simp [functionHead], by decide⟩⟩
        (haveWords_block body hb (depth + 1)) hasWords_closing
  | .assignFunction name params body, ⟨hn, hp, hb⟩, depth => by
      have equals : Words dollar " = " [] := .fixed (by decide)
      have target := (WordsSetOff.identifier hn).append equals ⟨' ', rfl, by decide⟩
      exact .block depth
        ⟨target.append (words_functionHead hn hp), ((leads_name hn).append _).append _⟩
        (haveWords_block body hb (depth + 1)) ⟨.fixed (by decide), ⟨'\x7d', rfl, by decide⟩⟩
  | .ret value, h, depth => by
      have keyword : Words dollar "return " [.own "return"] := .fixed (by decide)
      exact .one depth (hasWords_after keyword ⟨'r', rfl, by decide⟩ h)
  | .throw value, h, depth => by
      have keyword : Words dollar "throw " [.own "throw"] := .fixed (by decide)
      exact .one depth (hasWords_after keyword ⟨'t', rfl, by decide⟩ h)
  | .jump keyword (some label), _, depth => by
      have first : Words dollar (keyword.keyword ++ " ") [.own keyword.keyword] := by
        apply Words.fixed
        cases keyword <;> decide
      have leads : Leads (keyword.keyword ++ " ") := by
        cases keyword with
        | «break» => exact ⟨'b', rfl, by decide⟩
        | «continue» => exact ⟨'c', rfl, by decide⟩
      exact .one depth (.around first leads (.own (lexesAs_labelName label)) words_semicolon
        ⟨';', rfl, by decide⟩)
  | .jump keyword none, _, depth => by
      cases keyword with
      | «break» => exact .one depth ⟨.fixed (by decide), ⟨'b', rfl, by decide⟩⟩
      | «continue» => exact .one depth ⟨.fixed (by decide), ⟨'c', rfl, by decide⟩⟩
  | .tryCatch body name handler, ⟨hb, hn, hh⟩, depth => by
      have head : HasWords dollar "try \x7b" [.own "try"] :=
        ⟨.fixed (by decide), ⟨'t', rfl, by decide⟩⟩
      have middle : HasWords dollar ("\x7d catch (" ++ caughtName ++ ") \x7b")
          [.own "catch", .own caughtName] := ⟨.fixed (by decide), ⟨'\x7d', rfl, by decide⟩⟩
      have value : Words dollar
          (" = " ++ ((Code.helper .caught [.literal caughtName]).text ++ ";"))
          [.own Helper.caught.name, .own caughtName] := .fixed (by decide)
      have taken : HasWords dollar
          (name ++ " = " ++ (Code.helper .caught [.literal caughtName]).text ++ ";")
          [.identifier name, .own Helper.caught.name, .own caughtName] := by
        rw [String.append_assoc, String.append_assoc]
        exact ⟨(WordsSetOff.identifier hn).append value ⟨' ', by simp, by decide⟩,
          (leads_name hn).append _⟩
      have handled := HaveWords.cons (depth + 1) taken
        (haveWords_block handler hh (depth + 1))
      exact .cons depth head ((haveWords_block body hb (depth + 1)).append
        (.block depth middle handled hasWords_closing))

theorem haveWords_branch : ∀ rest : Branch, rest.WellFormed dollar →
    ∀ depth, HaveWords dollar (rest.lines depth) rest.words
  | .none, _, depth => .one depth hasWords_closing
  | .otherwise body, hb, depth => by
      have head : HasWords dollar "\x7d else \x7b" [.own "else"] :=
        ⟨.fixed (by decide), ⟨'\x7d', rfl, by decide⟩⟩
      exact .block depth head (haveWords_block body hb (depth + 1)) hasWords_closing
  | .elseIf test body rest, ⟨ht, hb, hr⟩, depth => by
      have keyword : Words dollar "\x7d else if (" [.own "else", .own "if"] := .fixed (by decide)
      exact .cons depth (hasWords_head keyword ⟨'\x7d', rfl, by decide⟩ ht)
        ((haveWords_block body hb (depth + 1)).append (haveWords_branch rest hr depth))

theorem haveWords_arms : ∀ arms : List Case, WellFormedCases dollar arms →
    ∀ depth, HaveWords dollar (armLines depth arms) (wordsInCases arms)
  | [], _, _ => .nil
  | .mk patterns body :: rest, ⟨hp, hb, hr⟩, depth => by
      have opened := (haveWords_patternLines depth patterns hp).append
        (haveWords_block body hb (depth + 1))
      have leave : HasWords dollar "break;" [.own "break"] :=
        ⟨.fixed (by decide), ⟨'b', rfl, by decide⟩⟩
      have later := HaveWords.cons depth hasWords_closing (haveWords_arms rest hr depth)
      exact opened.append (.cons (depth + 1) leave later)

theorem haveWords_block : ∀ items : List Item, WellFormedItems dollar items →
    ∀ depth, HaveWords dollar (blockLines depth items) (wordsIn items)
  | [], _, _ => .nil
  | item :: rest, ⟨hi, hr⟩, depth =>
      (haveWords_item item hi depth).append (haveWords_block rest hr depth)

end

/-! ## The text -/

/-- The text of lines is read with the words of the lines. -/
theorem readWords_textOf {lines : List Line} (h : HaveWords dollar lines ws) :
    readWords (lex dollar (String.join (lines.map Line.render))) =
      some (ws.map EmittedWord.text) := by
  obtain ⟨wss, lined, rfl⟩ := h
  obtain ⟨pss, n, s, kinds, ht, -, lexes⟩ :=
    exists_pieces (lined.imp fun _ _ h => ⟨h.words, h.leads⟩)
  have whole := lexes.blanks n
  rw [← ht] at whole
  obtain ⟨tokens, fault⟩ := whole 1
  have read : (lex dollar (String.join (lines.map Line.render))).tokens.filterMap
      (fun t => t.piece.word?) = wss.flatten.map EmittedWord.text := by
    have pieces : (lex dollar (String.join (lines.map Line.render))).tokens.map Token.piece =
        pss.flatMap (fun ps => ps ++ [.lineBreak]) ++ [.eof] := tokens
    have words := congrArg (List.filterMap word?) pieces
    rw [List.filterMap_map] at words
    refine words.trans ?_
    clear words pieces tokens fault whole lexes ht lined
    induction kinds with
    | nil => rfl
    | @cons ps ws pss wss first _ ih =>
        have feed : [Piece.lineBreak].filterMap word? = [] := rfl
        rw [List.flatMap_cons, List.append_assoc, List.filterMap_append, List.filterMap_append,
          feed, first, List.flatten_cons, List.map_append, List.append_nil, ih]
  have clean : (lex dollar (String.join (lines.map Line.render))).fault = none := fault
  rw [readWords, clean]
  exact congrArg some read

end Target

/-- The words of an emitted program. -/
def emittedWords (o : Options) (file : String) (program : List Stmt) : List Target.EmittedWord :=
  Target.wordsIn (Target.emitProgram ⟨file, o.implicitReturn⟩ program)

/-- The text emitted for a program that was read has the words of the emitted program. -/
theorem readWords_generate {o : Options} {source : String} {program : List Stmt}
    (h : parse o source = .ok program) (o' : Options) (file : String) :
    readWords (lex o.dollarIdentifiers (generate o' file program)) =
      some ((emittedWords o' file program).map Target.EmittedWord.text) := by
  have tree := wellFormed_of_parse o source program h
  exact Target.readWords_textOf (Target.haveWords_block _
    (Target.wellFormed_emitProgram ⟨file, o'.implicitReturn⟩ tree) 0)

end ScriptLang
