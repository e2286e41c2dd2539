import ScriptLang.Proofs.Target.Words

/-!
# Names in emitted text

The identifiers of emitted text are the emitted names of identifiers of the program, and
none of them is a name that the compiler introduces: the compiler's own names begin with
an underscore and end with none, or they are reserved, and an emitted name is neither.

Of the words that strict code reserves for itself, only those that the program takes for
values are emitted as they are.
-/

namespace ScriptLang

namespace Target

open Lexer

variable {dollar : Bool} {text : String} {ws ws' : List EmittedWord}

/-- The words of fixed forms: keywords of the target, and what follows the dot of a
rounding division. -/
def fixedWords : List String :=
  ["break", "case", "catch", "continue", "default", "do", "else", "floor", "for", "function", "if",
   "let", "new", "null", "of", "return", "switch", "throw", "try", "while"]

/-- The names that emitted code introduces, loops apart, or that it needs to mean what
they mean in the target. -/
def introducedNames : List String :=
  caughtName :: updatedName :: (Helper.all.erase .floor).map Helper.name ++ reserved

/-! ## Emitted names -/

/-- An emitted name is not reserved. -/
theorem mangle_not_mem_reserved (x : String) : mangle x ∉ reserved := by
  have last : ∀ y ∈ reserved, y.toList.getLast? ≠ some '_' := by decide
  by_cases added : (reserved.contains x || isUnderscored x) = true
  · have longer : mangle x = x ++ "_" := if_pos added
    intro mem
    apply last _ mem
    simp [longer]
  · have kept : mangle x = x := if_neg added
    rw [Bool.or_eq_true, not_or] at added
    simpa [kept] using added.1

/-- An emitted name is not introduced by the compiler. -/
theorem mangle_not_mem_introducedNames (x : String) : mangle x ∉ introducedNames := by
  have underscored : ∀ y ∈ caughtName :: updatedName :: (Helper.all.erase .floor).map Helper.name,
      y.toList.head? = some '_' ∧ y.toList.getLast? ≠ some '_' := by decide
  intro mem
  rcases List.mem_append.mp mem with own | taken
  · exact mangle_ne (underscored _ own).1 (underscored _ own).2 rfl
  · exact mangle_not_mem_reserved x taken

/-- The name of a loop ends in a digit. -/
theorem getLast?_labelName (label : Nat) : (labelName label).toList.getLast? ≠ some '_' := by
  have characters : (labelName label).toList =
      '_' :: 'l' :: ("oop".toList ++ Nat.toDigits 10 label) := by simp [labelName]
  intro last
  rw [characters, List.getLast?_cons_cons] at last
  rcases List.mem_cons.mp (List.mem_of_getLast? last) with letter | inside
  · exact absurd letter (by decide)
  · rcases List.mem_append.mp inside with letter | digit
    · exact absurd letter (by decide)
    · exact absurd (Nat.isDigit_of_mem_toDigits (by decide) (by decide) digit) (by decide)

/-- An emitted name is not the name of a loop. -/
theorem mangle_ne_labelName (x : String) (label : Nat) : mangle x ≠ labelName label :=
  mangle_ne (by simp [labelName]) (getLast?_labelName label)

/-! ## Where words come from -/

/-- A word of a fixed form, a name that the compiler introduces, or an emitted name. -/
def EmittedWord.IsSourced (dollar : Bool) : EmittedWord → Prop
  | .own text => text ∈ fixedWords ∨ text ∈ introducedNames ∨ ∃ label, text = labelName label
  | .identifier name => IsEmittedName dollar name

/-- All of the words come from somewhere. -/
def Sourced (dollar : Bool) (ws : List EmittedWord) : Prop := ∀ w ∈ ws, w.IsSourced dollar

namespace Sourced

theorem nil : Sourced dollar [] := nofun

theorem append (h : Sourced dollar ws) (h' : Sourced dollar ws') : Sourced dollar (ws ++ ws') :=
  List.forall_mem_append.mpr ⟨h, h'⟩

theorem fixed (known : text ∈ fixedWords) (h : Sourced dollar ws) :
    Sourced dollar (.own text :: ws) :=
  List.forall_mem_cons.mpr ⟨.inl known, h⟩

theorem introduced (known : text ∈ introducedNames) (h : Sourced dollar ws) :
    Sourced dollar (.own text :: ws) :=
  List.forall_mem_cons.mpr ⟨.inr (.inl known), h⟩

theorem label (n : Nat) (h : Sourced dollar ws) : Sourced dollar (.own (labelName n) :: ws) :=
  List.forall_mem_cons.mpr ⟨.inr (.inr ⟨n, rfl⟩), h⟩

theorem identifier (name : IsEmittedName dollar text) (h : Sourced dollar ws) :
    Sourced dollar (.identifier text :: ws) :=
  List.forall_mem_cons.mpr ⟨name, h⟩

theorem identifiers {names : List String} (h : ∀ name ∈ names, IsEmittedName dollar name) :
    Sourced dollar (names.map .identifier) :=
  List.forall_mem_map.mpr h

end Sourced

mutual

/-- The words of a well-formed expression come from somewhere. -/
theorem sourced_code : ∀ c : Code, c.WellFormed dollar → Sourced dollar c.words
  | .var _, h => .identifier h .nil
  | .literal _, _ => .nil
  | .undefined, _ => .introduced (by decide) .nil
  | .group inner, h | .unary _ inner, h => sourced_code inner h
  | .binary _ lhs rhs, ⟨_, hl, hr⟩ | .assign _ lhs rhs, ⟨_, hl, hr⟩ =>
      .append (sourced_code lhs hl) (sourced_code rhs hr)
  | .call callee args, ⟨hc, ha⟩ => .append (sourced_code callee hc) (sourced_codes args ha)
  | .helper h args, ha => by
      refine .append ?_ (sourced_codes args ha)
      cases h with
      | floor => exact .introduced (by decide) (.fixed (by decide) .nil)
      | _ => exact .introduced (by decide) .nil
  | .updater _ value, ⟨_, hv⟩ =>
      .introduced (by decide) (.introduced (by decide) (sourced_code value hv))
  | .array items, h => sourced_codes items h
  | .newMap entries, h =>
      .fixed (by decide) (.introduced (by decide) (sourced_entryCodes entries h))

theorem sourced_codes : ∀ cs : List Code, WellFormedCodes dollar cs →
    Sourced dollar (wordsOf cs).flatten
  | [], _ => .nil
  | c :: rest, ⟨hc, hr⟩ => .append (sourced_code c hc) (sourced_codes rest hr)

theorem sourced_entryCodes : ∀ entries : List (Code × Code), WellFormedEntryCodes dollar entries →
    Sourced dollar (wordsOfEntries entries).flatten
  | [], _ => .nil
  | (key, value) :: rest, ⟨hk, hv, hr⟩ =>
      .append (.append (sourced_code key hk) (sourced_code value hv)) (sourced_entryCodes rest hr)

end

theorem sourced_headWords {name : String} {params : List String}
    (hn : IsEmittedName dollar name) (hp : ∀ param ∈ params, IsEmittedName dollar param) :
    Sourced dollar (headWords name params) :=
  .fixed (by decide) (.identifier hn (.identifiers hp))

theorem sourced_rangeWords {header : LoopHeader} {iterable : Code}
    (hh : ∀ name ∈ header.names, IsEmittedName dollar name) (hi : iterable.WellFormed dollar) :
    Sourced dollar (rangeWords header iterable) := by
  have items (h : Helper) : Sourced dollar (Code.helper h [iterable]).words := by
    have whole : (Code.helper h [iterable]).WellFormed dollar := ⟨hi, trivial⟩
    exact sourced_code _ whole
  cases header with
  | single name =>
      exact .identifier (hh name List.mem_cons_self) (.fixed (by decide) (items .iterate))
  | keyed key value =>
      refine .identifier (hh key List.mem_cons_self) (.identifier ?_ ?_)
      · exact hh value (List.mem_cons_of_mem _ List.mem_cons_self)
      · exact .fixed (by decide) (items .entries)

theorem sourced_patternWords : ∀ patterns : List Code, WellFormedCodes dollar patterns →
    Sourced dollar (patternWords patterns)
  | [], _ => .fixed (by decide) .nil
  | [p], h => .fixed (by decide) (sourced_code p h.1)
  | p :: q :: rest, h =>
      .append (.fixed (by decide) (sourced_code p h.1)) (sourced_patternWords (q :: rest) h.2)

mutual

/-- The words of a well-formed statement come from somewhere. -/
theorem sourced_item : ∀ item : Item, item.WellFormed dollar → Sourced dollar item.words
  | .guard _, h =>
      .fixed (by decide) (.identifier h (.introduced (by decide)
        (.identifier h (.fixed (by decide) .nil))))
  | .declare _, h => .fixed (by decide) (.identifier h (.fixed (by decide) .nil))
  | .run e, h => sourced_code e h
  | .cond test body rest, ⟨ht, hb, hr⟩ =>
      .append (.fixed (by decide) (sourced_code test ht))
        (.append (sourced_block body hb) (sourced_branch rest hr))
  | .whileLoop label test body, ⟨ht, hb⟩ =>
      .append (.label label (.fixed (by decide) (sourced_code test ht))) (sourced_block body hb)
  | .doWhile label body test, ⟨ht, hb⟩ =>
      .label label (.fixed (by decide) (.append (sourced_block body hb)
        (.fixed (by decide) (sourced_code test ht))))
  | .forOf label _ _ body, ⟨hh, hi, hb⟩ =>
      .append (.label label (.fixed (by decide) (sourced_rangeWords hh hi)))
        (sourced_block body hb)
  | .switch subject arms, ⟨hs, ha⟩ =>
      .append (.fixed (by decide) (sourced_code subject hs)) (sourced_arms arms ha)
  | .function _ _ body, ⟨hn, hp, hb⟩ => .append (sourced_headWords hn hp) (sourced_block body hb)
  | .assignFunction _ _ body, ⟨hn, hp, hb⟩ =>
      .append (.identifier hn (sourced_headWords hn hp)) (sourced_block body hb)
  | .ret value, h | .throw value, h => .fixed (by decide) (sourced_code value h)
  | .jump keyword (some label), _ => by
      refine .fixed ?_ (.label label .nil)
      cases keyword <;> decide
  | .jump keyword none, _ => by
      refine .fixed ?_ .nil
      cases keyword <;> decide
  | .tryCatch body _ handler, ⟨hb, hn, hh⟩ =>
      .fixed (by decide) (.append (sourced_block body hb) (.fixed (by decide)
        (.introduced (by decide) (.identifier hn (.introduced (by decide)
          (.introduced (by decide) (sourced_block handler hh)))))))

theorem sourced_branch : ∀ rest : Branch, rest.WellFormed dollar → Sourced dollar rest.words
  | .none, _ => .nil
  | .otherwise body, hb => .fixed (by decide) (sourced_block body hb)
  | .elseIf test body rest, ⟨ht, hb, hr⟩ =>
      .append (.fixed (by decide) (.fixed (by decide) (sourced_code test ht)))
        (.append (sourced_block body hb) (sourced_branch rest hr))

theorem sourced_arms : ∀ arms : List Case, WellFormedCases dollar arms →
    Sourced dollar (wordsInCases arms)
  | [], _ => .nil
  | .mk patterns body :: rest, ⟨hp, hb, hr⟩ =>
      .append (.append (sourced_patternWords patterns hp) (sourced_block body hb))
        (.fixed (by decide) (sourced_arms rest hr))

theorem sourced_block : ∀ items : List Item, WellFormedItems dollar items →
    Sourced dollar (wordsIn items)
  | [], _ => .nil
  | item :: rest, ⟨hi, hr⟩ => .append (sourced_item item hi) (sourced_block rest hr)

end

end Target

theorem sourced_emittedWords {o : Options} {source : String} {program : List Stmt}
    (h : parse o source = .ok program) (o' : Options) (file : String) :
    Target.Sourced o.dollarIdentifiers (emittedWords o' file program) := by
  have tree := wellFormed_of_parse o source program h
  exact Target.sourced_block _ (Target.wellFormed_emitProgram ⟨file, o'.implicitReturn⟩ tree)

/-- Names that differ are emitted under names that differ. Every word of emitted text is a
word of a fixed form, a name that the compiler introduces, or the emitted name of a name
that a program may have; and the emitted names are none that the compiler introduces. -/
theorem mangling_hygienic :
    (∀ a b : String, Target.mangle a = Target.mangle b → a = b) ∧
      ∀ (o : Options) (source : String) (program : List Stmt), parse o source = .ok program →
        ∀ (o' : Options) (file : String),
          readWords (lex o.dollarIdentifiers (generate o' file program)) =
            some ((emittedWords o' file program).map Target.EmittedWord.text) ∧
          (∀ text, .own text ∈ emittedWords o' file program → text ∈ Target.fixedWords ∨
            text ∈ Target.introducedNames ∨ ∃ label, text = Target.labelName label) ∧
          ∀ name, .identifier name ∈ emittedWords o' file program →
            (∃ x, IsName o.dollarIdentifiers x ∧ name = Target.mangle x) ∧
              name ∉ Target.introducedNames ∧ ∀ label, name ≠ Target.labelName label := by
  refine ⟨fun _ _ => Target.eq_of_mangle_eq, fun o source program h o' file => ?_⟩
  have sourced := sourced_emittedWords h o' file
  refine ⟨readWords_generate h o' file, fun text own => sourced _ own, fun name hn => ?_⟩
  obtain ⟨x, hx, rfl⟩ := sourced _ hn
  exact ⟨⟨x, hx, rfl⟩, Target.mangle_not_mem_introducedNames x, Target.mangle_ne_labelName x⟩

/-- A program whose names are like those of the target and of the compiler. -/
def catching : List Stmt :=
  [.attempt [.expr (.assign none (.ident "_loop1") (.ident "class"))] "_e"
    [.expr (.assign none (.ident "eval_") (.ident "Map"))]]

theorem mangling_hygienic_catching :
    parse {} "try\n _loop1 = class\ncatch _e\n eval_ = Map\nend\n" = .ok catching ∧
      readWords (lex false (generate {} "a" catching)) =
        some ["let", "_loop1_", "null", "let", "_e_", "null", "let", "eval__", "null", "try",
          "_loop1_", "class_", "catch", "_e", "_e_", "_caught", "_e", "eval__", "Map_"] ∧
      "_loop1_" ∉ Target.introducedNames ∧ ∀ label, "_loop1_" ≠ Target.labelName label := by
  refine (and_iff_left_of_imp fun h => ?_).mpr ?_
  · obtain ⟨read, -, own⟩ := mangling_hygienic.2 {} _ catching h {} "a"
    exact ⟨read.trans (by decide), (own "_loop1_" (by decide)).2⟩
  · cbv

/-! ## Reserved words -/

/-- The reserved words of strict code, with the names that it does not bind. -/
def strictReserved : List String :=
  ["break", "case", "catch", "class", "const", "continue", "debugger", "default", "delete", "do",
   "else", "enum", "export", "extends", "false", "finally", "for", "function", "if",
   "implements", "import", "in", "instanceof", "interface", "let", "new", "null", "package",
   "private", "protected", "public", "return", "static", "super", "switch", "this", "throw",
   "true", "try", "typeof", "var", "void", "while", "with", "yield", "await", "eval",
   "arguments"]

/-- The reserved words that the program reads as values. -/
def valueWords : List String := ["null", "true", "false"]

/-- Every reserved word of strict code is a keyword of the program, or is emitted under
another name, or is a value. -/
theorem Target.mangle_mem_strictReserved {dollar : Bool} {x : String} (h : IsName dollar x) :
    mangle x ∈ strictReserved ↔ x ∈ valueWords := by
  have words : ∀ y ∈ strictReserved, Token.isKeyword y = true ∨ reserved.contains y = true ∨
      y ∈ valueWords := by decide
  have last : ∀ y ∈ strictReserved, y.toList.getLast? ≠ some '_' := by decide
  have values : ∀ y ∈ valueWords, mangle y = y ∧ y ∈ strictReserved := by decide
  constructor
  · intro mem
    by_cases added : (reserved.contains x || isUnderscored x) = true
    · have longer : mangle x = x ++ "_" := if_pos added
      exact absurd (by simp [longer]) (last _ mem)
    · have kept : mangle x = x := if_neg added
      rw [kept] at mem
      rw [Bool.or_eq_true, not_or] at added
      rcases words x mem with keyword | taken | value
      · exact absurd keyword (by simp [h.2])
      · exact absurd taken added.1
      · exact value
  · intro value
    rw [(values x value).1]
    exact (values x value).2

/-- An identifier of emitted text, wherever it is bound, assigned or read there, is a
reserved word of strict code only as one of the words that the program reads as values. -/
theorem reserved_identifiers {o : Options} {source : String} {program : List Stmt}
    (h : parse o source = .ok program) (o' : Options) (file : String) :
    readWords (lex o.dollarIdentifiers (generate o' file program)) =
        some ((emittedWords o' file program).map Target.EmittedWord.text) ∧
      ∀ name, .identifier name ∈ emittedWords o' file program →
        ∃ x, IsName o.dollarIdentifiers x ∧ name = Target.mangle x ∧
          (name ∈ strictReserved ↔ x ∈ valueWords) := by
  refine ⟨readWords_generate h o' file, fun name hn => ?_⟩
  obtain ⟨x, hx, rfl⟩ := sourced_emittedWords h o' file _ hn
  exact ⟨x, hx, rfl, Target.mangle_mem_strictReserved hx⟩

/-- A function under the name of a keyword of the target. -/
theorem reserved_identifiers_new :
    parse {} "fn new(eval)\n await = eval\nend\n" =
        .ok [.func "new" ["eval"] [.expr (.assign none (.ident "await") (.ident "eval"))]] ∧
      readWords (lex false (generate {} "a"
        [.func "new" ["eval"] [.expr (.assign none (.ident "await") (.ident "eval"))]])) =
          some ["function", "new_", "eval_", "if", "eval_", "undefined", "eval_", "null", "let",
            "await_", "null", "await_", "eval_"] ∧
      ∃ x, IsName false x ∧ "await_" = Target.mangle x ∧
        ("await_" ∈ strictReserved ↔ x ∈ valueWords) := by
  refine (and_iff_left_of_imp fun h => ?_).mpr ?_
  · obtain ⟨read, legal⟩ := reserved_identifiers h {} "a"
    exact ⟨read.trans (by decide), legal "await_" (by decide)⟩
  · cbv

/-- The program may assign a word that it reads as a value. Emitted code then declares it. -/
theorem reserved_declared :
    parse {} "null = 1\n" = .ok [.expr (.assign none (.ident "null") (.number "1"))] ∧
      generate {} "a" [.expr (.assign none (.ident "null") (.number "1"))] =
        "let null = null;\nnull = 1;\n" ∧
      .identifier "null" ∈
        emittedWords {} "a" [.expr (.assign none (.ident "null") (.number "1"))] ∧
      "null" ∈ strictReserved := by
  refine ⟨by cbv, by decide +kernel, by decide +kernel, by decide⟩

end ScriptLang
