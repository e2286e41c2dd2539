import Mathlib.Data.List.Chain
import ScriptLang.Proofs.Token.Lexeme

/-!
# Every character of a text

The tokens of a text account for all of it. Each token has a slice of its own, the
slices follow one another, and only blanks stand between them. A token says what its
slice says; only a newline token stands for whatever line feeds, blanks and comments
its slice consists of. Line numbers count the line feeds before a slice, those within
strings and comments included.

A text with a fault is accounted for up to the lexeme at fault. Since a newline run goes
on as far as it can, what follows it is no newline run, and a reader that skips one
newline token has skipped them all.
-/

namespace ScriptLang

namespace Lexer

/-! ## Newline runs -/

/-- Line feeds, blanks and comments in a row. A comment goes on to the next line feed. -/
inductive IsNewlineRun : List Char → Prop where
  | nil : IsNewlineRun []
  | lineFeed {cs : List Char} : IsNewlineRun cs → IsNewlineRun ('\n' :: cs)
  | blank {c : Char} {cs : List Char} : isBlank c = true → IsNewlineRun cs →
      IsNewlineRun (c :: cs)
  | comment {text cs : List Char} : '\n' ∉ text → (∀ c ∈ cs.head?, c = '\n') →
      IsNewlineRun cs → IsNewlineRun ('#' :: (text ++ cs))

/-- What goes on with a run, inside a comment or outside one. -/
inductive ContinuesRun : Bool → List Char → Prop where
  | outside {cs : List Char} : IsNewlineRun cs → ContinuesRun false cs
  | inside (text cs : List Char) : '\n' ∉ text → (∀ c ∈ cs.head?, c = '\n') →
      IsNewlineRun cs → ContinuesRun true (text ++ cs)

namespace ContinuesRun

variable {cs : List Char}

theorem nil (comment : Bool) : ContinuesRun comment [] := by
  cases comment with
  | false => exact .outside .nil
  | true => exact .inside [] [] (by simp) (by simp) .nil

theorem isNewlineRun (h : ContinuesRun false cs) : IsNewlineRun cs := by
  cases h with
  | outside run => exact run

theorem comment (h : ContinuesRun true cs) : IsNewlineRun ('#' :: cs) := by
  cases h with
  | inside text cs plain first run => exact .comment plain first run

theorem lineFeed (h : ContinuesRun false cs) (comment : Bool) :
    ContinuesRun comment ('\n' :: cs) := by
  cases comment with
  | false => exact .outside (.lineFeed h.isNewlineRun)
  | true => exact .inside [] _ (by simp) (by simp) (.lineFeed h.isNewlineRun)

/-- Any other character goes on with a comment. -/
theorem cons {c : Char} (h : ContinuesRun true cs) (hc : c ≠ '\n') :
    ContinuesRun true (c :: cs) := by
  cases h with
  | inside text cs plain first run =>
      refine .inside (c :: text) cs ?_ first run
      intro hn
      rcases List.mem_cons.mp hn with rfl | hn
      · exact hc rfl
      · exact plain hn

end ContinuesRun

/-- The characters that a newline run takes are a newline run. -/
theorem continuesRun_take (comment : Bool) (cs : List Char) :
    ContinuesRun comment (cs.take (newlineRun comment cs)) := by
  fun_induction newlineRun comment cs with
  | case1 comment => exact .nil comment
  | case2 comment c cs feed ih =>
      obtain rfl : c = '\n' := by simpa using feed
      exact ih.lineFeed comment
  | case3 c cs feed ih => exact ih.cons (by simpa using feed)
  | case4 comment c cs _ outside blank ih =>
      obtain rfl : comment = false := by simpa using outside
      exact .outside (.blank blank ih.isNewlineRun)
  | case5 comment c cs _ outside _ mark ih =>
      obtain rfl : comment = false := by simpa using outside
      obtain rfl : c = '#' := by simpa using mark
      exact .outside ih.comment
  | case6 comment => exact .nil comment

/-- The first character that a newline run leaves, if there is one, begins a lexeme of
another kind. -/
def BeginsOther (cs : List Char) : Prop :=
  ∀ c ∈ cs.head?, isBlank c = false ∧ (c == '\n' || c == '#') = false

/-- A newline run goes on as far as it can. -/
theorem beginsOther_drop (comment : Bool) (cs : List Char) :
    BeginsOther (cs.drop (newlineRun comment cs)) := by
  fun_induction newlineRun comment cs with
  | case1 => simp [BeginsOther]
  | case2 _ _ _ _ ih | case3 _ _ _ ih | case4 _ _ _ _ _ _ ih | case5 _ _ _ _ _ _ _ ih => exact ih
  | case6 comment c cs feed _ blank mark =>
      rw [Bool.not_eq_true] at feed blank mark
      rintro _ ⟨⟩
      exact ⟨blank, by rw [feed, mark]; rfl⟩

theorem newlineRun_of_beginsOther {cs : List Char} (h : BeginsOther cs) :
    newlineRun false cs = 0 := by
  cases cs with
  | nil => rfl
  | cons c cs =>
      obtain ⟨blank, other⟩ := h c rfl
      simp only [Bool.or_eq_false_iff] at other
      simp [newlineRun, blank, other]

theorem newlineRun_blanks_append {gap : List Char} (h : ∀ c ∈ gap, isBlank c = true)
    (cs : List Char) : newlineRun false (gap ++ cs) = gap.length + newlineRun false cs := by
  induction gap with
  | nil => rw [List.nil_append, List.length_nil, Nat.zero_add]
  | cons b gap ih =>
      obtain ⟨blank, others⟩ := List.forall_mem_cons.mp h
      have feed : b ≠ '\n' := by
        rintro rfl
        cases blank
      rw [List.cons_append, newlineRun, if_neg (by simpa using feed), if_neg (by decide),
        if_pos blank, ih others, List.length_cons]
      omega

/-- What a newline run leaves does not begin with a newline token. -/
theorem BeginsOther.kind_ne {dollar : Bool} {line : Nat} {cs : List Char} (h : BeginsOther cs) :
    ∀ t ∈ (tokensFrom dollar line cs).tokens.head?, t.kind ≠ .newline := by
  intro t ht
  cases cs with
  | nil =>
      rw [tokensFrom_nil rfl] at ht
      obtain rfl : Token.endOfText line = t := by simpa using ht
      exact nofun
  | cons c rest =>
      obtain ⟨blank, other⟩ := h c rfl
      have start : (c :: rest).dropWhile isBlank = c :: rest := by simp [blank]
      cases hl : lexeme dollar c rest with
      | fault cause more => simp [tokensFrom_fault start hl] at ht
      | item kind more =>
          rw [tokensFrom_item start hl] at ht
          obtain rfl := Option.some.inj ht
          rintro rfl
          cases lexeme_eq_item_iff.mp hl with
          | newline first =>
              rw [other] at first
              cases first

/-! ## Slices -/

/-- A token with the slice of the text that it was read from and the gap before it. -/
structure Segment where
  gap : List Char
  slice : List Char
  token : Token

namespace Segment

/-- The characters of the gap and of the slice. -/
def chars (s : Segment) : List Char := s.gap ++ s.slice

/-- The gap is blank, and the token says what its slice says. -/
structure WellCut (s : Segment) : Prop where
  gap : ∀ c ∈ s.gap, isBlank c = true
  slice : s.slice ≠ []
  kind : s.token.kind ≠ .eof
  text : s.token.kind ≠ .newline → s.token.text = String.ofList s.slice
  newline : s.token.kind = .newline → s.token.text = Token.newlineText ∧
    (∀ c ∈ s.slice.head?, c = '\n' ∨ c = '#') ∧ IsNewlineRun s.slice

end Segment

theorem isNewlineRun_of_lexeme {dollar : Bool} {c : Char} {rest : List Char} {more : Nat}
    (h : lexeme dollar c rest = .item .newline more) :
    (c = '\n' ∨ c = '#') ∧ IsNewlineRun (c :: rest.take more) := by
  cases lexeme_eq_item_iff.mp h with
  | newline first =>
      have first : c = '\n' ∨ c = '#' := by simpa using first
      refine ⟨first, ?_⟩
      have run := continuesRun_take (c == '#') rest
      rcases first with rfl | rfl
      · exact .lineFeed run.isNewlineRun
      · exact run.comment

theorem wellCut_of_lexeme {dollar : Bool} {c : Char} {gap rest : List Char} {kind : Token.Kind}
    {more : Nat} (hg : ∀ c ∈ gap, isBlank c = true) (hl : lexeme dollar c rest = .item kind more)
    (line : Nat) : Segment.WellCut
      ⟨gap, c :: rest.take more, kind, tokenText kind (c :: rest.take more), line⟩ where
  gap := hg
  slice := List.cons_ne_nil _ _
  kind := lexeme_ne_eof hl
  text := by
    intro other
    exact if_neg other
  newline := by
    rintro ⟨⟩
    obtain ⟨first, run⟩ := isNewlineRun_of_lexeme hl
    refine ⟨rfl, ?_, run⟩
    rintro _ ⟨⟩
    exact first

/-! ## The whole text -/

/-- How segments and a rest account for the characters `cs`, the first of which stands
on `line`. -/
structure Covers (dollar : Bool) (line : Nat) (cs : List Char) (lexed : Lexed)
    (segments : List Segment) (rest : List Char) : Prop where
  whole : cs = segments.flatMap Segment.chars ++ rest
  cut : ∀ s ∈ segments, s.WellCut
  /-- The line of a token counts the line feeds before its slice. -/
  lines : ∀ before s after, segments = before ++ s :: after →
    s.token.line = line + (before.flatMap Segment.chars ++ s.gap).count '\n'
  apart : lexed.tokens.IsChain fun s t => ¬ (s.kind = .newline ∧ t.kind = .newline)
  bounded : lexed.tokens.length ≤ cs.length + 1
  /-- Without a fault, only blanks are left for the end of the text. -/
  finished : lexed.fault = none →
    lexed.tokens = segments.map Segment.token ++ [Token.endOfText (line + cs.count '\n')] ∧
      ∀ c ∈ rest, isBlank c = true
  /-- A fault is reported where the lexeme at fault begins. -/
  failed : ∀ d, lexed.fault = some d → lexed.tokens = segments.map Segment.token ∧
    ∃ gap c tail cause more, rest = gap ++ c :: tail ∧ (∀ c ∈ gap, isBlank c = true) ∧
      lexeme dollar c tail = .fault cause more ∧
      d = ⟨line + (segments.flatMap Segment.chars ++ gap).count '\n',
        faultText cause (c :: tail.take more), cause⟩

namespace Covers

variable {dollar : Bool} {line : Nat}

theorem count_gap {gap : List Char} (hg : ∀ c ∈ gap, isBlank c = true) : gap.count '\n' = 0 := by
  apply List.count_eq_zero_of_not_mem
  intro hn
  exact absurd (hg _ hn) (by decide)

/-- Blanks alone hold nothing but the end of the text. -/
theorem blanks {cs : List Char} (h : ∀ c ∈ cs, isBlank c = true) :
    Covers dollar line cs ⟨[Token.endOfText line], none⟩ [] cs where
  whole := rfl
  cut := nofun
  lines := by simp
  apart := .singleton _
  bounded := by simp
  finished := by
    intro _
    rw [count_gap h]
    exact ⟨rfl, h⟩
  failed := nofun

/-- A lexeme at fault is where the account ends. -/
theorem fault {gap tail : List Char} {c : Char} {cause : Cause} {more : Nat}
    (hg : ∀ c ∈ gap, isBlank c = true) (hl : lexeme dollar c tail = .fault cause more) :
    Covers dollar line (gap ++ c :: tail)
      ⟨[], some ⟨line, faultText cause (c :: tail.take more), cause⟩⟩ [] (gap ++ c :: tail) where
  whole := rfl
  cut := nofun
  lines := by simp
  apart := .nil
  bounded := Nat.zero_le _
  finished := nofun
  failed := by
    rintro _ ⟨⟩
    refine ⟨rfl, gap, c, tail, cause, more, rfl, hg, hl, ?_⟩
    rw [List.flatMap_nil, List.nil_append, count_gap hg, Nat.add_zero]

/-- A token goes in front of the account of what is after its slice. -/
theorem cons {gap slice cs rest : List Char} {kind : Token.Kind} {text : String} {lexed : Lexed}
    {segments : List Segment} (cut : Segment.WellCut ⟨gap, slice, kind, text, line⟩)
    (apart : kind = .newline → ∀ t ∈ lexed.tokens.head?, t.kind ≠ .newline)
    (h : Covers dollar (line + slice.count '\n') cs lexed segments rest) :
    Covers dollar line (gap ++ slice ++ cs) ⟨⟨kind, text, line⟩ :: lexed.tokens, lexed.fault⟩
      (⟨gap, slice, kind, text, line⟩ :: segments) rest where
  whole := by
    rw [List.flatMap_cons, List.append_assoc _ _ rest, ← h.whole]
    rfl
  cut := by
    intro s hs
    rcases List.mem_cons.mp hs with rfl | hs
    · exact cut
    · exact h.cut s hs
  lines := by
    intro before s after hs
    cases before with
    | nil =>
        obtain ⟨rfl, -⟩ := List.cons.inj hs
        rw [List.flatMap_nil, List.nil_append, count_gap cut.gap, Nat.add_zero]
    | cons first before =>
        obtain ⟨rfl, later⟩ := List.cons.inj hs
        rw [h.lines before s after later]
        simp [Segment.chars, count_gap cut.gap, Nat.add_assoc]
  apart := by
    refine List.isChain_cons.mpr ⟨?_, h.apart⟩
    rintro t ht ⟨newline, again⟩
    exact apart newline t ht again
  bounded := by
    have taken : 0 < slice.length := List.length_pos_iff.mpr cut.slice
    have after := h.bounded
    simp only [List.length_cons, List.length_append]
    omega
  finished := by
    intro none
    obtain ⟨tokens, blank⟩ := h.finished none
    refine ⟨?_, blank⟩
    simp [tokens, count_gap cut.gap, Nat.add_assoc]
  failed := by
    intro d hd
    obtain ⟨tokens, gap', c, tail, cause, more, hr, hg', hl, rfl⟩ := h.failed d hd
    refine ⟨by rw [tokens]; rfl, gap', c, tail, cause, more, hr, hg', hl, ?_⟩
    simp [Segment.chars, count_gap cut.gap, Nat.add_assoc]

end Covers

/-- What is left of a text after its blanks is the text without a blank gap. -/
theorem exists_gap {cs rest : List Char} (h : cs.dropWhile isBlank = rest) :
    ∃ gap, cs = gap ++ rest ∧ ∀ c ∈ gap, isBlank c = true := by
  refine ⟨cs.takeWhile isBlank, ?_, fun c hc => List.mem_takeWhile_imp hc⟩
  rw [← h, List.takeWhile_append_dropWhile]

/-- The slices of a text are the lexemes that begin in it, one behind the other. -/
inductive CutsLexemes (dollar : Bool) : List Char → List Segment → List Char → Prop where
  | nil (rest : List Char) : CutsLexemes dollar rest [] rest
  | cons {gap tail rest : List Char} {c : Char} {kind : Token.Kind} {more line : Nat}
      {text : String} {segments : List Segment} : lexeme dollar c tail = .item kind more →
      CutsLexemes dollar (tail.drop more) segments rest →
      CutsLexemes dollar (gap ++ c :: tail)
        (⟨gap, c :: tail.take more, kind, text, line⟩ :: segments) rest

/-- From wherever it is read, a text is accounted for by its lexemes. -/
theorem exists_covers_lexemes (dollar : Bool) (line : Nat) (cs : List Char) :
    ∃ segments rest, Covers dollar line cs (tokensFrom dollar line cs) segments rest ∧
      CutsLexemes dollar cs segments rest := by
  fun_induction tokensFrom dollar line cs with
  | case1 line cs h => exact ⟨[], cs, .blanks (List.dropWhile_eq_nil_iff.mp h), .nil cs⟩
  | case2 line cs c rest h cause more hl =>
      obtain ⟨gap, rfl, blank⟩ := exists_gap h
      exact ⟨[], gap ++ c :: rest, .fault blank hl, .nil _⟩
  | case3 line cs c rest h kind more hl slice after ih =>
      obtain ⟨gap, rfl, blank⟩ := exists_gap h
      obtain ⟨segments, left, covers, cuts⟩ := ih
      have whole : gap ++ c :: rest = gap ++ slice ++ rest.drop more := by
        rw [List.append_assoc, List.cons_append, List.take_append_drop]
      have apart : kind = .newline → ∀ t ∈ after.tokens.head?, t.kind ≠ .newline := by
        rintro rfl
        apply BeginsOther.kind_ne
        cases lexeme_eq_item_iff.mp hl with
        | newline => exact beginsOther_drop (c == '#') rest
      refine ⟨⟨gap, slice, kind, tokenText kind slice, line⟩ :: segments, left, ?_, .cons hl cuts⟩
      rw [whole]
      exact .cons (wellCut_of_lexeme blank hl line) apart covers

theorem exists_covers (dollar : Bool) (line : Nat) (cs : List Char) :
    ∃ segments rest, Covers dollar line cs (tokensFrom dollar line cs) segments rest := by
  obtain ⟨segments, rest, covers, -⟩ := exists_covers_lexemes dollar line cs
  exact ⟨segments, rest, covers⟩

/-- Without a fault, the end of the text stands behind all other tokens. -/
theorem exists_tokens {dollar : Bool} {line : Nat} {cs : List Char}
    (h : (tokensFrom dollar line cs).fault = none) :
    ∃ front, (tokensFrom dollar line cs).tokens =
        front ++ [Token.endOfText (line + cs.count '\n')] ∧ ∀ t ∈ front, t.kind ≠ .eof := by
  obtain ⟨segments, rest, covers⟩ := exists_covers dollar line cs
  refine ⟨segments.map Segment.token, (covers.finished h).1, fun t ht => ?_⟩
  obtain ⟨s, hs, rfl⟩ := List.mem_map.mp ht
  exact (covers.cut s hs).kind

end Lexer

/-- Reading a text comes to an end, and its tokens account for every character up to the
end of the text or to the lexeme at fault. -/
theorem lex_covers (dollar : Bool) (source : String) :
    ∃ segments rest, Lexer.Covers dollar 1 source.toList (lex dollar source) segments rest :=
  Lexer.exists_covers dollar 1 source.toList

/-- The line feed that an escape takes counts, and so do those between comments. -/
example : lex false "'a\\\n' # b\n\n # c\n d" =
    ⟨[⟨.quote, "'a\\\n'", 1⟩, ⟨.newline, "\n", 2⟩, ⟨.word, "d", 5⟩, .endOfText 5], none⟩ := by
  cbv

end ScriptLang
