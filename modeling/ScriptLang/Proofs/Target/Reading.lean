import ScriptLang.Proofs.Parser.Written
import ScriptLang.Proofs.Program.WellFormed
import ScriptLang.Proofs.Target.Correspondence
import ScriptLang.Proofs.Target.Outline
import ScriptLang.Proofs.Text.Quoted

/-!
# Emitted expressions have no landmarks

Emitted text is made of the same words, numbers, strings and marks as a source text, so
it can be read in the same way. What is read in a fixed piece of it is found by reading
that piece alone, provided that each lexeme is settled before the end is reached; then
such pieces and the names and literals of the program are put together.

An emitted expression is read without any landmark: its strings are closed, its names
are no keywords of the target, and it has no braces and no colons.
-/

namespace ScriptLang.Target

open Lexer Piece

variable {dollar : Bool} {a b text : String} {ps qs : List Piece}

/-- Whatever follows, the text is read as the pieces. -/
def Reads (dollar : Bool) (text : String) (ps : List Piece) : Prop :=
  ∀ s qs, LexesTo dollar s qs → LexesTo dollar (text.toList ++ s) (ps ++ qs)

/-- In front of a separator, the text is read as the pieces. -/
def ReadsSetOff (dollar : Bool) (text : String) (ps : List Piece) : Prop :=
  ∀ s qs, SetOff s → LexesTo dollar s qs → LexesTo dollar (text.toList ++ s) (ps ++ qs)

/-- The text begins with a separator. -/
def BeginsSetOff (text : String) : Prop := ∃ c ∈ text.toList.head?, c ∈ separators

theorem BeginsSetOff.setOff (h : BeginsSetOff text) (s : List Char) :
    SetOff (text.toList ++ s) := by
  obtain ⟨c, hc, sep⟩ := h
  obtain ⟨rest, ht⟩ := List.head?_eq_some_iff.mp hc
  rw [ht]
  exact .cons sep (rest ++ s)

namespace Reads

theorem setOff (h : Reads dollar text ps) : ReadsSetOff dollar text ps :=
  fun s qs _ hq => h s qs hq

theorem append (ha : Reads dollar a ps) (hb : Reads dollar b qs) :
    Reads dollar (a ++ b) (ps ++ qs) := by
  intro s rs hr
  rw [String.toList_append, List.append_assoc, List.append_assoc]
  exact ha _ _ (hb s rs hr)

theorem append_setOff (ha : Reads dollar a ps) (hb : ReadsSetOff dollar b qs) :
    ReadsSetOff dollar (a ++ b) (ps ++ qs) := by
  intro s rs hs hr
  rw [String.toList_append, List.append_assoc, List.append_assoc]
  exact ha _ _ (hb s rs hs hr)

end Reads

theorem ReadsSetOff.append (ha : ReadsSetOff dollar a ps) (hb : Reads dollar b qs)
    (sep : BeginsSetOff b) : Reads dollar (a ++ b) (ps ++ qs) := by
  intro s rs hr
  rw [String.toList_append, List.append_assoc, List.append_assoc]
  exact ha _ _ (sep.setOff s) (hb s rs hr)

/-! ## Fixed text -/

/-- The lexeme that begins with `c` and has `more` characters of `rest` is settled by `rest`,
whatever follows: a word has ended, and no operator goes on behind `rest`. -/
def settled (kind : Token.Kind) (c : Char) (rest : List Char) (more : Nat) : Bool :=
  match kind with
  | .punct => operators.all fun op =>
      op.toList.length ≤ rest.length + 1 || !(c :: rest).isPrefixOf op.toList
  | .word => more < rest.length
  | _ => false

/-- The pieces of a text, as long as each is settled. -/
def fixedPieces (dollar : Bool) : Nat → List Char → Option (List Piece)
  | _, [] => some []
  | 0, _ :: _ => none
  | fuel + 1, c :: rest =>
    if c = ' ' then fixedPieces dollar fuel rest
    else
      match lexeme dollar c rest with
      | .item kind more =>
        if !isBlank c && more ≤ rest.length && settled kind c rest more then
          (fixedPieces dollar fuel (rest.drop more)).map
            fun ps => (kind, String.ofList (c :: rest.take more)) :: ps
        else none
      | .fault .. => none

theorem operator?_append_of_settled {c : Char} {rest : List Char} {more : Nat}
    (h : settled .punct c rest more = true) (s : List Char) :
    operator? (c :: (rest ++ s)) = operator? (c :: rest) := by
  apply List.find?_congr
  intro op ho
  rw [Bool.eq_iff_iff, List.isPrefixOf_iff_prefix, List.isPrefixOf_iff_prefix]
  have whole : c :: rest <+: c :: (rest ++ s) := List.prefix_append (c :: rest) s
  constructor
  · intro begins
    rcases Bool.or_eq_true_iff.mp (List.all_eq_true.mp h op ho) with short | other
    · exact List.prefix_of_prefix_length_le begins whole (of_decide_eq_true short)
    · rcases List.prefix_or_prefix_of_prefix begins whole with within | beyond
      · exact within
      · rw [List.isPrefixOf_iff_prefix.mpr beyond] at other
        cases other
  · intro begins
    exact begins.trans whole

/-- What is settled goes on with nothing that follows. -/
theorem lexeme_of_settled {c : Char} {rest : List Char} {kind : Token.Kind} {more : Nat}
    (hl : lexeme dollar c rest = .item kind more) (h : settled kind c rest more = true)
    (s : List Char) : lexeme dollar c (rest ++ s) = .item kind more := by
  rw [lexeme_eq_item_iff] at hl ⊢
  cases kind with
  | punct =>
      have same := operator?_append_of_settled h s
      cases hl with
      | operator first quote decimal starts found =>
          exact .operator first quote decimal starts (same.trans found)
      | character first quote decimal starts none control =>
          exact .character first quote decimal starts (same.trans none) control
  | word =>
      cases hl with
      | word first quote decimal starts run =>
          refine .word first quote decimal starts ?_
          have stops : (rest.takeWhile (continuesWord dollar)).length ≠ rest.length := by
            rw [run]
            exact Nat.ne_of_lt (of_decide_eq_true h)
          rw [List.takeWhile_append, if_neg stops, run]
  | number | quote | newline | eof => exact Bool.noConfusion h

/-- What a text of settled pieces is read as can be found by reading it alone. -/
theorem lexesTo_fixedPieces {fuel : Nat} {cs s : List Char}
    (h : fixedPieces dollar fuel cs = some ps) (hs : LexesTo dollar s qs) :
    LexesTo dollar (cs ++ s) (ps ++ qs) := by
  fun_induction fixedPieces dollar fuel cs generalizing ps with
  | case1 =>
      obtain rfl := Option.some.inj h
      exact hs
  | case2 => cases h
  | case3 fuel rest ih => exact (ih h).blank
  | case4 fuel c rest _ kind more hl settled ih =>
      obtain ⟨ps, hps, rfl⟩ := Option.map_eq_some_iff.mp h
      simp only [Bool.and_eq_true, Bool.not_eq_true', decide_eq_true_eq] at settled
      obtain ⟨⟨blank, le⟩, settled⟩ := settled
      have whole : c :: rest ++ s =
          (String.ofList (c :: rest.take more)).toList ++ (rest.drop more ++ s) := by
        rw [String.toList_ofList, List.cons_append, List.cons_append, ← List.append_assoc,
          List.take_append_drop]
      rw [whole]
      refine .piece (p := (kind, _)) ⟨c, rest.take more, String.toList_ofList, blank, ?_, ?_⟩
        (ih hps)
      · rintro rfl
        cases settled
      · rw [← List.append_assoc, List.take_append_drop, List.length_take, Nat.min_eq_left le]
        exact lexeme_of_settled hl settled s
  | case5 => cases h
  | case6 => cases h

/-- A fixed text is read in the same way whatever a name may have in it. -/
theorem reads_fixed (h : ∀ dollar, fixedPieces dollar text.length text.toList = some ps) :
    Reads dollar text ps :=
  fun _ _ hq => lexesTo_fixedPieces (h dollar) hq

/-! ## Landmarks -/

/-- Whatever follows, the text is read as pieces with these landmarks among them. -/
def Shows (dollar : Bool) (text : String) (ms : List Landmark) : Prop :=
  ∃ ps, Reads dollar text ps ∧ ps.filterMap landmark? = ms

/-- In front of a separator, the text is read as pieces with these landmarks among them. -/
def ShowsSetOff (dollar : Bool) (text : String) (ms : List Landmark) : Prop :=
  ∃ ps, ReadsSetOff dollar text ps ∧ ps.filterMap landmark? = ms

variable {ms ms' : List Landmark}

namespace Shows

theorem setOff (h : Shows dollar text ms) : ShowsSetOff dollar text ms := by
  obtain ⟨ps, reads, hm⟩ := h
  exact ⟨ps, reads.setOff, hm⟩

theorem append (ha : Shows dollar a ms) (hb : Shows dollar b ms') :
    Shows dollar (a ++ b) (ms ++ ms') := by
  obtain ⟨ps, readsA, rfl⟩ := ha
  obtain ⟨qs, readsB, rfl⟩ := hb
  exact ⟨ps ++ qs, readsA.append readsB, List.filterMap_append⟩

theorem append_setOff (ha : Shows dollar a ms) (hb : ShowsSetOff dollar b ms') :
    ShowsSetOff dollar (a ++ b) (ms ++ ms') := by
  obtain ⟨ps, readsA, rfl⟩ := ha
  obtain ⟨qs, readsB, rfl⟩ := hb
  exact ⟨ps ++ qs, readsA.append_setOff readsB, List.filterMap_append⟩

theorem fixed (h : ∀ dollar, (fixedPieces dollar text.length text.toList).map
    (·.filterMap landmark?) = some ms) : Shows dollar text ms := by
  obtain ⟨ps, fixed, hm⟩ := Option.map_eq_some_iff.mp (h dollar)
  exact ⟨ps, fun _ _ hq => lexesTo_fixedPieces fixed hq, hm⟩

end Shows

theorem ShowsSetOff.append (ha : ShowsSetOff dollar a ms) (hb : Shows dollar b ms')
    (sep : BeginsSetOff b) : Shows dollar (a ++ b) (ms ++ ms') := by
  obtain ⟨ps, readsA, rfl⟩ := ha
  obtain ⟨qs, readsB, rfl⟩ := hb
  exact ⟨ps ++ qs, readsA.append readsB sep, List.filterMap_append⟩

/-- What stands around a text without landmarks brings its own. -/
theorem Shows.around {inner : String} (ha : Shows dollar a ms) (hi : ShowsSetOff dollar inner [])
    (hb : Shows dollar b ms') (sep : BeginsSetOff b) :
    Shows dollar (a ++ inner ++ b) (ms ++ ms') := by
  have all := (ha.append_setOff hi).append hb sep
  rwa [List.append_nil] at all

/-- Only words and marks are landmarks, and line breaks. -/
theorem landmark?_literal {kind : Token.Kind} (hk : kind = .number ∨ kind = .quote)
    (text : String) : landmark? (kind, text) = none := by
  have kinds : ∀ m ∈ landmarks, m.1.1 ≠ .number ∧ m.1.1 ≠ .quote := by decide
  refine List.lookup_eq_none_iff.mpr fun m hm => bne_iff_ne.mpr fun same => ?_
  have other := kinds m hm
  rw [← same] at other
  rcases hk with rfl | rfl
  · exact other.1 rfl
  · exact other.2 rfl

/-- The words among the landmarks are reserved in the program or in the target. -/
theorem landmark?_mangle {name : String} (h : Token.isKeyword name = false) :
    landmark? (word (mangle name)) = none := by
  have reservedWords : ∀ m ∈ landmarks, m.1.1 = .word →
      (Token.isKeyword m.1.2 = true ∨ reserved.contains m.1.2 = true) ∧
        m.1.2.toList.getLast? ≠ some '_' := by decide
  refine List.lookup_eq_none_iff.mpr fun m hm => bne_iff_ne.mpr fun same => ?_
  obtain ⟨taken, last⟩ := reservedWords m hm (by rw [← same]; rfl)
  rw [← same] at taken last
  by_cases added : (reserved.contains name || isUnderscored name) = true
  · have longer : mangle name = name ++ "_" := if_pos added
    rw [longer] at last
    exact last (by simp [word])
  · have kept : mangle name = name := if_neg added
    rw [kept] at taken
    rw [Bool.or_eq_true, not_or] at added
    rcases taken with keyword | target
    · exact absurd keyword (by simp [word, h])
    · exact added.1 target

/-! ## Words -/

/-- A letter begins no other lexeme. -/
theorem plain_of_startsWord {c : Char} (h : startsWord dollar c = true) :
    isBlank c = false ∧ (c == '\n' || c == '#') = false ∧ (c == '"' || c == '\'') = false ∧
      isDecimal c = false := by
  have others : ∀ c ∈ [' ', '\t', '\r', '\x0c', '\n', '#', '"', '\''],
      startsWord dollar c = false :=
    forall_mem_of_all (by cases dollar <;> decide)
  have ne : ∀ d ∈ [' ', '\t', '\r', '\x0c', '\n', '#', '"', '\''], (c == d) = false := by
    intro d hd
    rw [beq_eq_false_iff_ne]
    rintro rfl
    rw [others _ hd] at h
    cases h
  refine ⟨by simp [isBlank, ne], by simp [ne], by simp [ne], ?_⟩
  by_contra digit
  rw [Bool.not_eq_false, isDecimal, Bool.and_eq_true, decide_eq_true_eq, decide_eq_true_eq,
    Char.le_def, Char.le_def, UInt32.le_iff_toNat_le, UInt32.le_iff_toNat_le] at digit
  simp only [startsWord, isLetter, Bool.or_eq_true, Bool.and_eq_true, decide_eq_true_eq,
    beq_iff_eq, Char.le_def, UInt32.le_iff_toNat_le] at h
  obtain ⟨low, high⟩ := digit
  rcases h with ((⟨a, z⟩ | ⟨a, z⟩) | rfl) | ⟨-, rfl⟩
  · simp at low high a z
    omega
  · simp at low high a z
    omega
  · exact absurd high (by decide)
  · exact absurd low (by decide)

/-- A letter, then letters and digits: a word. -/
theorem lexesAs_word (c : Char) (rest : List Char) (ht : text.toList = c :: rest)
    (starts : startsWord dollar c = true) (hr : ∀ d ∈ rest, continuesWord dollar d = true) :
    LexesAs dollar .word text := by
  obtain ⟨blank, first, quote, decimal⟩ := plain_of_startsWord starts
  refine (lexesAs_iff rfl).mpr ⟨c, rest, ht, blank, lexeme_eq_item_iff.mpr ?_⟩
  refine .word first quote decimal starts ?_
  rw [List.takeWhile_eq_self_iff.mpr hr]

/-- A name is a word under its emitted spelling, too. -/
theorem lexesAs_mangle {name : String} (h : LexesAs dollar .word name) :
    LexesAs dollar .word (mangle name) := by
  by_cases added : (reserved.contains name || isUnderscored name) = true
  · have longer : mangle name = name ++ "_" := if_pos added
    rw [longer]
    have all := continuesWord_of_lexesAs h
    obtain ⟨c, rest, ht, -, hl⟩ := (lexesAs_iff rfl).mp h
    rw [ht] at all
    refine lexesAs_word c (rest ++ ['_']) (by simp [ht]) ?_ ?_
    · cases lexeme_eq_item_iff.mp hl with
      | word _ _ _ starts => exact starts
    · intro d hd
      rcases List.mem_append.mp hd with hd | hd
      · exact all d (List.mem_cons_of_mem _ hd)
      · rw [List.mem_singleton.mp hd]
        cases dollar <;> rfl
  · have kept : mangle name = name := if_neg added
    rw [kept]
    exact h

/-- The name of a loop is a word. -/
theorem lexesAs_labelName (label : Nat) : LexesAs dollar .word (labelName label) := by
  refine lexesAs_word '_' ("loop".toList ++ (toString label).toList) ?_ ?_ ?_
  · simp [labelName]
  · cases dollar <;> rfl
  · intro d hd
    rcases List.mem_append.mp hd with hd | hd
    · have letters : ∀ d ∈ "loop".toList, continuesWord dollar d = true :=
        forall_mem_of_all (by cases dollar <;> decide)
      exact letters d hd
    · have digit : d.isDigit = true := by
        refine Nat.isDigit_of_mem_toDigits (b := 10) (n := label) (by decide) (by decide) ?_
        simpa using hd
      have decimal : isDecimal d = true := by
        simpa [isDecimal, Char.isDigit, Char.le_def] using digit
      rw [continuesWord, decimal, Bool.or_true]

/-! ## Phrases -/

/-- The text begins with a character that goes on with no line break and no sign. -/
def Leads (text : String) : Prop :=
  ∃ c ∈ text.toList.head?, isBlank c = false ∧ c ≠ '\n' ∧ c ≠ '#' ∧ c ≠ '='

theorem Leads.append (h : Leads a) (b : String) : Leads (a ++ b) := by
  obtain ⟨c, hc, leads⟩ := h
  obtain ⟨rest, ht⟩ := List.head?_eq_some_iff.mp hc
  exact ⟨c, by simp [ht], leads⟩

theorem leads_of_lexesAs {kind : Token.Kind} (hk : keepsText kind = true)
    (h : LexesAs dollar kind text) : Leads text := by
  obtain ⟨d, hd, sign⟩ := head_of_lexesAs hk h
  obtain ⟨c, rest, ht, blank, hl⟩ := (lexesAs_iff hk).mp h
  have first := (lexeme_eq_item_iff.mp hl).first hk
  simp only [Bool.or_eq_false_iff, beq_eq_false_iff_ne] at first
  obtain rfl : c = d := by simpa [ht] using hd
  exact ⟨c, hd, blank, first.1, first.2, sign⟩

/-- In front of a separator, the text is read without landmarks. -/
structure Phrase (dollar : Bool) (text : String) : Prop where
  shows : ShowsSetOff dollar text []
  leads : Leads text

namespace Phrase

theorem lexeme {kind : Token.Kind} (hk : keepsText kind = true) (h : LexesAs dollar kind text)
    (plain : landmark? (kind, text) = none) : Phrase dollar text where
  shows := by
    refine ⟨[(kind, text)], ?_, by rw [List.filterMap_cons_none plain]; rfl⟩
    intro s qs hs hq
    exact .piece (p := (kind, text)) (lexesBefore_of_setOff hk h hs) hq
  leads := leads_of_lexesAs hk h

theorem name {x : String} (h : IsName dollar x) : Phrase dollar (mangle x) :=
  .lexeme rfl (lexesAs_mangle h.1) (landmark?_mangle h.2)

theorem number (h : LexesAs dollar .number text) : Phrase dollar text :=
  .lexeme rfl h (landmark?_literal (.inl rfl) text)

theorem quote (h : LexesAs dollar .quote text) : Phrase dollar text :=
  .lexeme rfl h (landmark?_literal (.inr rfl) text)

/-- Between brackets, and the like. -/
theorem between {inner : String} (ha : Shows dollar a []) (leads : Leads a)
    (hi : ShowsSetOff dollar inner []) (hb : Shows dollar b []) (sep : BeginsSetOff b) :
    Phrase dollar (a ++ inner ++ b) where
  shows := (ha.around hi hb sep).setOff
  leads := (leads.append inner).append b

theorem group (h : Phrase dollar text) : Phrase dollar ("(" ++ text ++ ")") := by
  refine .between ?_ ?_ h.shows ?_ ?_
  · exact .fixed (by decide)
  · exact ⟨'(', rfl, by decide⟩
  · exact .fixed (by decide)
  · exact ⟨')', rfl, by decide⟩

/-- An operator in front of its operand. -/
theorem sign (op : UnaryOp) (h : Phrase dollar text) : Phrase dollar (op.spelling ++ text) where
  shows := by
    obtain ⟨ps, reads, hm⟩ := h.shows
    obtain ⟨c, hc, -, -, -, sign⟩ := h.leads
    refine ⟨mark op.spelling :: ps, ?_, ?_⟩
    · intro s qs hs hq
      have apart : (text.toList ++ s).head? ≠ some '=' := by
        obtain ⟨rest, ht⟩ := List.head?_eq_some_iff.mp hc
        simpa [ht] using sign
      rw [String.toList_append, List.append_assoc]
      exact .piece (p := mark op.spelling) (lexesBefore_unary op apart) (reads s qs hs hq)
    · have plain : landmark? (mark op.spelling) = none := by cases op <;> decide
      rw [List.filterMap_cons_none plain, hm]
  leads := by
    apply Leads.append
    cases op with
    | not => exact ⟨'!', rfl, by decide⟩
    | bitNot => exact ⟨'~', rfl, by decide⟩
    | neg => exact ⟨'-', rfl, by decide⟩

/-- Two phrases with an operator and blanks between them. -/
theorem infixed {op : Connective} (mem : op ∈ Connective.all) (ha : Phrase dollar a)
    (hb : Phrase dollar b) : Phrase dollar (a ++ " " ++ op.spelling ++ " " ++ b) where
  shows := by
    have plain : ∀ op ∈ Connective.all, landmark? (mark op.spelling) = none := by decide
    have operator : Shows dollar (" " ++ op.spelling ++ " ") [] := by
      refine ⟨[mark op.spelling], ?_, by rw [List.filterMap_cons_none (plain op mem)]; rfl⟩
      intro s qs hq
      simpa using hq.operator (spelling_mem_marks op mem)
    have all := ((ha.shows.append operator ⟨' ', by simp, by decide⟩).append_setOff hb.shows)
    simpa [String.append_assoc] using all
  leads := by
    rw [String.append_assoc, String.append_assoc, String.append_assoc]
    exact ha.leads.append _

end Phrase

/-- Phrases with commas between them. -/
theorem showsSetOff_list {texts : List String} (h : ∀ t ∈ texts, Phrase dollar t) :
    ShowsSetOff dollar (String.intercalate ", " texts) [] := by
  induction texts with
  | nil => exact (Shows.fixed (by decide)).setOff
  | cons t rest ih =>
      have first := h t List.mem_cons_self
      have later := ih fun u hu => h u (List.mem_cons_of_mem _ hu)
      cases rest with
      | nil =>
          rw [String.intercalate_singleton]
          exact first.shows
      | cons u rest =>
          have comma : Shows dollar ", " [] := .fixed (by decide)
          have all := (first.shows.append comma ⟨',', rfl, by decide⟩).append_setOff later
          rw [String.intercalate_cons_cons]
          exact all

/-- The call of a helper. -/
theorem Phrase.helper (h : Helper) {args : List Code}
    (ha : ∀ t ∈ textsOf args, Phrase dollar t) : Phrase dollar (Code.helper h args).text := by
  have head : Shows dollar (h.name ++ "(") [] := by
    apply Shows.fixed
    cases h <;> decide
  have leads : Leads (h.name ++ "(") := by
    cases h with
    | floor => exact ⟨'M', rfl, by decide⟩
    | _ => exact ⟨'_', rfl, by decide⟩
  have close : Shows dollar ")" [] := .fixed (by decide)
  exact .between head leads (showsSetOff_list ha) close ⟨')', rfl, by decide⟩

/-! ## Expressions -/

theorem Phrase.operand {e : Expr} (h : Phrase dollar (code e).text) :
    Phrase dollar (e.asOperand (code e)).text := by
  unfold Expr.asOperand
  split
  · exact .group h
  · exact h

/-- An operator of the program as the target writes it. -/
theorem phrase_binaryCode (op : BinaryOp) {l r lhs rhs : Code} (hl : Phrase dollar l.text)
    (hr : Phrase dollar r.text) (hlhs : Phrase dollar lhs.text) (hrhs : Phrase dollar rhs.text) :
    Phrase dollar (binaryCode op l r lhs rhs).text := by
  have equal : Phrase dollar (Code.helper .equal [l, r]).text := by
    apply Phrase.helper
    simp [textsOf, hl, hr]
  have infixed (op : BinaryOp) : Phrase dollar (Code.binary op lhs rhs).text := by
    have joined := Phrase.infixed (binary_mem_all op) hlhs hrhs
    rwa [Connective.spelling, ← Code.text] at joined
  cases op with
  | eq => exact equal
  | ne =>
      rw [binaryCode, Code.text]
      exact .sign .not equal
  | floorDiv =>
      apply Phrase.helper
      simp [textsOf, infixed]
  | _ => exact infixed _

/-- The function that an update is given. -/
theorem phrase_updater (op : BinaryOp) {value : Code} (h : Phrase dollar value.text) :
    Phrase dollar (Code.updater op value).text := by
  have head : Shows dollar ("(" ++ updatedName ++ ") => ") [] :=
    .fixed (by decide)
  have old : Phrase dollar updatedName :=
    .lexeme rfl (lexesAs_word '_' _ rfl (by cases dollar <;> rfl)
      (forall_mem_of_all (by cases dollar <;> decide))) (by decide)
  have joined := Phrase.infixed (binary_mem_all op) old h
  have all := head.append_setOff joined.shows
  refine ⟨?_, ?_⟩
  · simpa [Code.text, Connective.spelling, String.append_assoc] using all
  · exact ⟨'(', by simp [Code.text], by decide⟩

theorem phrase_undefined : Phrase dollar Code.undefined.text :=
  .lexeme rfl (lexesAs_word 'u' _ rfl (by cases dollar <;> rfl)
    (forall_mem_of_all (by cases dollar <;> decide))) (by decide)

theorem phrase_array {items : List Code} (h : ∀ t ∈ textsOf items, Phrase dollar t) :
    Phrase dollar (Code.array items).text := by
  refine .between ?_ ⟨'[', rfl, by decide⟩ (showsSetOff_list h) ?_ ⟨']', rfl, by decide⟩
  · exact .fixed (by decide)
  · exact .fixed (by decide)

theorem phrase_newMap {entries : List (Code × Code)}
    (h : ∀ t ∈ entryTexts entries, Phrase dollar t) : Phrase dollar (Code.newMap entries).text := by
  cases entries with
  | nil =>
      have empty : Shows dollar "new Map()" [] := .fixed (by decide)
      exact ⟨empty.setOff, ⟨'n', rfl, by decide⟩⟩
  | cons entry rest =>
      refine .between ?_ ⟨'n', rfl, by decide⟩ (showsSetOff_list h) ?_ ⟨']', rfl, by decide⟩
      · exact .fixed (by decide)
      · exact .fixed (by decide)

theorem phrase_call {callee : Code} {args : List Code} (hc : Phrase dollar callee.text)
    (ha : ∀ t ∈ textsOf args, Phrase dollar t) : Phrase dollar (Code.call callee args).text where
  shows := by
    have opening : Shows dollar "(" [] := .fixed (by decide)
    have closing : Shows dollar ")" [] := .fixed (by decide)
    have all := (hc.shows.append opening ⟨'(', rfl, by decide⟩).append_setOff (showsSetOff_list ha)
    exact (all.append closing ⟨')', rfl, by decide⟩).setOff
  leads := by
    rw [Code.text, String.append_assoc, String.append_assoc]
    exact hc.leads.append _

theorem phrase_entry {key value : String} (hk : Phrase dollar key) (hv : Phrase dollar value) :
    Phrase dollar ("[" ++ key ++ ", " ++ value ++ "]") := by
  have opening : Shows dollar "[" [] := .fixed (by decide)
  have comma : Shows dollar ", " [] := .fixed (by decide)
  have closing : Shows dollar "]" [] := .fixed (by decide)
  have first := (opening.append_setOff hk.shows).append comma ⟨',', rfl, by decide⟩
  refine ⟨((first.append_setOff hv.shows).append closing ⟨']', rfl, by decide⟩).setOff, ?_⟩
  exact ⟨'[', by simp, by decide⟩

mutual

/-- An emitted expression is read without landmarks. -/
theorem phrase_code : ∀ e : Expr, e.WellFormed dollar → Phrase dollar (code e).text
  | .ident _, h => .name h
  | .number _, h => .number h
  | .str _, h => .quote h
  | .omitted, h => h.elim
  | .unary op operand, h => .sign op (phrase_code operand h).operand
  | .binary op lhs rhs, ⟨hl, hr⟩ => by
      have left := phrase_code lhs hl
      have right := phrase_code rhs hr
      exact phrase_binaryCode op left right left.operand right.operand
  | .assign op (.index target index) value, ⟨_, _, ⟨ht, hi⟩, hv⟩ => by
      have target := phrase_code target ht
      have index := phrase_code index hi
      have value := phrase_code value hv
      cases op with
      | none =>
          apply Phrase.helper
          simp [textsOf, target, index, value]
      | some op =>
          have updater := phrase_updater op value.operand
          apply Phrase.helper
          simp [textsOf, target, index, updater]
  | .assign op (.ident name) value, ⟨_, updates, ht, hv⟩ => by
      have assign := Phrase.infixed (assign_mem_all updates) (.name ht) (phrase_code value hv)
      cases op <;> exact assign
  | .call callee args, ⟨hc, ha⟩ =>
      phrase_call (phrase_code callee hc).operand (phrase_codes args ha)
  | .index target index, ⟨ht, hi⟩ => by
      apply Phrase.helper
      simp [textsOf, phrase_code target ht, phrase_code index hi]
  | .slice target start stop, ⟨ht, hs, he⟩ => by
      have start : Phrase dollar (code start).text := by
        rcases hs with rfl | hs
        · exact phrase_undefined
        · exact phrase_code start hs
      have stop : Phrase dollar (code stop).text := by
        rcases he with rfl | he
        · exact phrase_undefined
        · exact phrase_code stop he
      apply Phrase.helper
      simp [textsOf, phrase_code target ht, start, stop]
  | .map entries, h => phrase_newMap (phrase_entryCodes entries h)
  | .list items, h => phrase_array (phrase_codes items h)

theorem phrase_codes : ∀ es : List Expr, WellFormedExprs dollar es →
    ∀ t ∈ textsOf (codes es), Phrase dollar t
  | [], _ => nofun
  | e :: rest, ⟨he, hr⟩ => by
      intro t ht
      rcases List.mem_cons.mp ht with rfl | ht
      · exact phrase_code e he
      · exact phrase_codes rest hr t ht

theorem phrase_entryCodes : ∀ entries : List (Expr × Expr), WellFormedEntries dollar entries →
    ∀ t ∈ entryTexts (entryCodes entries), Phrase dollar t
  | [], _ => nofun
  | (key, value) :: rest, ⟨hk, hv, hr⟩ => by
      intro t ht
      rcases List.mem_cons.mp ht with rfl | ht
      · exact phrase_entry (phrase_code key hk) (phrase_code value hv)
      · exact phrase_entryCodes rest hr t ht

end

end ScriptLang.Target
