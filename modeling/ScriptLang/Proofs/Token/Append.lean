import ScriptLang.Proofs.Token.Coverage
import ScriptLang.Proofs.Token.Piece

/-!
# One text behind another

A line feed ends every lexeme but a newline run. So a text that ends in a line feed keeps
its tokens when another text is put behind it. Its last token is a newline run, which goes
on with the line feeds, blanks and comments that the other text begins with; and from
there on the tokens are those of the other text.
-/

namespace ScriptLang

namespace Lexer

variable {dollar : Bool} {c : Char} {kind : Token.Kind} {more line : Nat}
  {cs rest init s : List Char}

/-! ## Lexemes before a separator -/

theorem decimalRun_append_setOff (hs : SetOff s) (cs : List Char) :
    decimalRun (cs ++ s) = decimalRun cs := by
  have ends : ∀ c ∈ separators, inDigits c = false := forall_mem_of_all (by decide)
  have other : ∀ c ∈ separators, isDecimal c = false ∧ c ≠ '.' := forall_mem_of_all (by decide)
  rw [decimalRun, decimalRun, dropWhile_append_setOff ends hs, takeWhile_append_setOff ends hs]
  rcases cs.dropWhile inDigits with _ | ⟨x, _ | ⟨d, fraction⟩⟩
  · cases s with
    | nil => rfl
    | cons b s =>
        have point : b ≠ '.' := (other b (hs b rfl)).2
        simp [point]
  · cases s with
    | nil => rfl
    | cons b s =>
        have digit : isDecimal b = false := (other b (hs b rfl)).1
        by_cases point : x = '.'
        · subst point
          simp [digit]
        · simp [point]
  · by_cases point : x = '.'
    · subst point
      simp [takeWhile_append_setOff ends hs]
    · simp [point]

/-- What follows a separator does not matter to a number before it. -/
theorem numberRun_append_setOff (hs : SetOff s) (first : Char) (cs : List Char) :
    numberRun first (cs ++ s) = numberRun first cs := by
  have same : hasRadix first (cs ++ s) = hasRadix first cs := by
    cases cs with
    | nil => exact hasRadix_of_setOff hs
    | cons => rfl
  cases h : hasRadix first cs with
  | false =>
      rw [numberRun_eq_decimalRun h, numberRun_eq_decimalRun (same.trans h),
        decimalRun_append_setOff hs]
  | true =>
      cases cs with
      | nil => cases h
      | cons c digits =>
          have ends : ∀ c ∈ separators, inRadixDigits c = false := forall_mem_of_all (by decide)
          have again : hasRadix first (c :: (digits ++ s)) = true := h
          rw [numberRun_of_hasRadix h, List.cons_append, numberRun_of_hasRadix again,
            takeWhile_append_setOff ends hs]

/-- A closed string ends with its quote. -/
theorem getLast?_stringRun {quote : Char} {n : Nat} (h : stringRun quote cs = (true, n)) :
    (cs.take n).getLast? = some quote := by
  fun_induction stringRun quote cs generalizing n with
  | case1 | case2 | case4 => simp at h
  | case3 c cs closed m heq ih =>
      obtain ⟨rfl, rfl⟩ := by simpa using h
      simp [List.getLast?_cons, ih heq]
  | case5 c cs h1 h2 hn hq =>
      obtain rfl : 1 = n := by simpa using h
      simpa using hq
  | case6 c cs h1 h2 hn hq closed m heq ih =>
      obtain ⟨rfl, rfl⟩ := by simpa using h
      simp [List.getLast?_cons, ih heq]

theorem setOff_feed (s : List Char) : SetOff ('\n' :: s) := .cons (by decide) s

theorem operator?_append_setOff (hs : SetOff s) (cs : List Char) :
    operator? (cs ++ s) = operator? cs := by
  have other : ∀ b ∈ separators, ∀ op ∈ operators, b ∉ op.toList := forall_mem_of_all (by decide)
  cases s with
  | nil => rw [List.append_nil]
  | cons b s => exact operator?_append_cons (other b (hs b rfl)) cs s

theorem length_le_of_operator? {op : String} (found : operator? (c :: rest) = some op) :
    op.length - 1 ≤ rest.length := by
  have begins : _ = true := List.find?_some (p := fun op : String =>
    op.toList.isPrefixOf (c :: rest)) found
  have le := (List.isPrefixOf_iff_prefix.mp begins).length_le
  rw [String.length_toList, List.length_cons] at le
  omega

/-- A separator settles every lexeme before it, save newline runs. -/
theorem lexeme_append_setOff (hs : SetOff s) (h : lexeme dollar c rest = .item kind more)
    (other : kind ≠ .newline) :
    more ≤ rest.length ∧ lexeme dollar c (rest ++ s) = .item kind more := by
  rw [lexeme_eq_item_iff] at h ⊢
  cases h with
  | newline => exact absurd rfl other
  | quote first quote run =>
      obtain ⟨le, run⟩ := stringRun_take_append (rest.drop more ++ s) run
      rw [← List.append_assoc, List.take_append_drop] at run
      exact ⟨le, .quote first quote run⟩
  | number first quote decimal run literal =>
      subst run
      obtain ⟨le, -⟩ := numberRun_take_append .nil c rest
      refine ⟨le, .number first quote decimal (numberRun_append_setOff hs c rest) ?_⟩
      rwa [List.take_append_of_le_length le]
  | word first quote decimal starts run =>
      refine ⟨run ▸ (List.takeWhile_prefix _).length_le, .word first quote decimal starts ?_⟩
      rw [takeWhile_append_setOff (not_continuesWord_of_separators dollar) hs, run]
  | operator first quote decimal starts found =>
      refine ⟨length_le_of_operator? found, .operator first quote decimal starts ?_⟩
      rw [← List.cons_append, operator?_append_setOff hs, found]
  | character first quote decimal starts none control =>
      refine ⟨Nat.zero_le _, .character first quote decimal starts ?_ control⟩
      rw [← List.cons_append, operator?_append_setOff hs, none]

/-- No lexeme takes the line feed behind it, save newline runs. -/
theorem lexeme_of_append_feed (h : lexeme dollar c (init ++ ['\n']) = .item kind more)
    (other : kind ≠ .newline) : lexeme dollar c init = .item kind more := by
  rw [lexeme_eq_item_iff] at h ⊢
  cases h with
  | newline => exact absurd rfl other
  | quote first quote run =>
      have last := getLast?_stringRun run
      have before : more ≤ init.length := by
        by_contra beyond
        rw [List.take_of_length_le (by simp; omega), List.getLast?_concat] at last
        obtain rfl := Option.some.inj last
        cases first
      obtain ⟨-, run⟩ := stringRun_take_append (init.drop more) run
      rw [List.take_append_of_le_length before, List.take_append_drop] at run
      exact .quote first quote run
  | number first quote decimal run literal =>
      rw [numberRun_append_setOff (setOff_feed [])] at run
      obtain ⟨before, -⟩ := numberRun_take_append .nil c init
      rw [run] at before
      rw [List.take_append_of_le_length before] at literal
      exact .number first quote decimal run literal
  | word first quote decimal starts run =>
      rw [takeWhile_append_setOff (not_continuesWord_of_separators dollar) (setOff_feed [])] at run
      exact .word first quote decimal starts run
  | operator first quote decimal starts found =>
      rw [← List.cons_append, operator?_append_setOff (setOff_feed [])] at found
      exact .operator first quote decimal starts found
  | character first quote decimal starts none control =>
      rw [← List.cons_append, operator?_append_setOff (setOff_feed [])] at none
      exact .character first quote decimal starts none control

/-- A line feed settles every lexeme before it, save newline runs. -/
theorem lexeme_append_feed (h : lexeme dollar c (init ++ ['\n']) = .item kind more)
    (other : kind ≠ .newline) (s : List Char) :
    more ≤ init.length ∧ lexeme dollar c (init ++ '\n' :: s) = .item kind more :=
  lexeme_append_setOff (setOff_feed s) (lexeme_of_append_feed h other) other

/-! ## Newline runs -/

/-- A newline run that ends before the text does is not changed by what follows. -/
theorem newlineRun_append_of_lt {comment : Bool} (h : newlineRun comment cs < cs.length)
    (s : List Char) : newlineRun comment (cs ++ s) = newlineRun comment cs := by
  fun_induction newlineRun comment cs with
  | case1 => cases h
  | case2 comment c cs feed ih | case3 c cs feed ih | case4 comment c cs _ _ blank ih
  | case5 comment c cs _ _ _ mark ih =>
      have later := ih (by simpa using h)
      simp_all [newlineRun]
  | case6 => simp_all [newlineRun]

/-- A newline run up to a line feed at the end of the text goes on behind it. -/
theorem newlineRun_append_of_eq {comment : Bool} (h : newlineRun comment cs = cs.length)
    (ends : cs.getLast? = some '\n') (s : List Char) :
    newlineRun comment (cs ++ s) = cs.length + newlineRun false s := by
  fun_induction newlineRun comment cs with
  | case1 => cases ends
  | case2 comment c cs feed ih =>
      rw [List.cons_append, newlineRun, if_pos feed]
      cases cs with
      | nil => rw [List.nil_append, List.length_singleton, Nat.add_comm]
      | cons d cs =>
          rw [ih (by simpa using h) (by simpa [List.getLast?_cons] using ends)]
          simp only [List.length_cons]
          omega
  | case3 c cs feed ih | case4 comment c cs feed outside blank ih
  | case5 comment c cs feed outside blank mark ih =>
      -- the text does not end in this character
      cases cs with
      | nil => simp_all
      | cons d cs =>
          have later := ih (by simpa using h) (by simpa [List.getLast?_cons] using ends)
          simp_all [newlineRun]
          omega
  | case6 => simp at h

theorem newlineRun_le_length (comment : Bool) (cs : List Char) :
    newlineRun comment cs ≤ cs.length := by
  fun_induction newlineRun comment cs with
  | case1 | case6 => exact Nat.zero_le _
  | case2 _ _ _ _ ih | case3 _ _ _ ih | case4 _ _ _ _ _ _ ih | case5 _ _ _ _ _ _ _ ih =>
      exact Nat.succ_le_succ ih

/-- What begins a newline run goes on with it outside a comment. -/
theorem newlineRun_cons_of_first (first : (c == '\n' || c == '#') = true) (cs : List Char) :
    newlineRun false (c :: cs) = newlineRun (c == '#') cs + 1 := by
  rcases Bool.or_eq_true_iff.mp first with feed | mark
  · obtain rfl := beq_iff_eq.mp feed
    rfl
  · obtain rfl := beq_iff_eq.mp mark
    rfl

/-! ## Lexemes of a text that ends in a line feed -/

section Ends

variable (ends : (c :: rest).getLast? = some '\n') (h : lexeme dollar c rest = .item kind more)

include ends h

/-- A lexeme that does not reach the end of the text stays as it is. -/
theorem lexeme_append_of_lt (left : more < rest.length) (s : List Char) :
    lexeme dollar c (rest ++ s) = .item kind more := by
  by_cases newline : kind = .newline
  · subst newline
    cases lexeme_eq_item_iff.mp h with
    | newline first =>
        rw [lexeme, if_pos first, newlineRun_append_of_lt left]
  · rcases rest.eq_nil_or_concat' with rfl | ⟨init, b, rfl⟩
    · cases left
    · obtain rfl : b = '\n' := by simpa [List.getLast?_cons] using ends
      rw [List.append_assoc]
      exact (lexeme_append_feed h newline s).2

/-- Only a newline run reaches the end of the text, and it goes on behind it. -/
theorem lexeme_append_of_le (whole : rest.length ≤ more) (s : List Char) :
    kind = .newline ∧
      lexeme dollar c (rest ++ s) = .item .newline (rest.length + newlineRun false s) := by
  have newline : kind = .newline := by
    by_contra other
    rcases rest.eq_nil_or_concat' with rfl | ⟨init, b, rfl⟩
    · obtain rfl : c = '\n' := by simpa using ends
      exact other (Lexeme.item.inj h).1.symm
    · obtain rfl : b = '\n' := by simpa [List.getLast?_cons] using ends
      have before := (lexeme_append_feed h other []).1
      rw [List.length_append, List.length_singleton] at whole
      omega
  subst newline
  refine ⟨rfl, ?_⟩
  cases lexeme_eq_item_iff.mp h with
  | newline first =>
      have run := newlineRun_cons_of_first first rest
      have all := Nat.le_antisymm (newlineRun_le_length _ rest) whole
      have further := newlineRun_append_of_eq (by rw [run, all, List.length_cons]) ends s
      rw [List.cons_append, newlineRun_cons_of_first first, List.length_cons] at further
      rw [lexeme, if_pos first]
      exact congrArg (Lexeme.item .newline) (by omega)

end Ends

end Lexer

/-! ## Tokens -/

/-- The tokens without a newline token in front. -/
def Token.pastNewline : List Token → List Token
  | t :: rest => if t.kind = .newline then rest else t :: rest
  | [] => []

theorem Token.pastNewline_of_head {ts : List Token} (h : ∀ t ∈ ts.head?, t.kind ≠ .newline) :
    pastNewline ts = ts := by
  cases ts with
  | nil => rfl
  | cons t ts => exact if_neg (h t rfl)

namespace Lexer

open Token (pastNewline pastNewline_of_head)

/-- Behind the line feeds, blanks and comments that a text begins with are its tokens
without a newline token in front. -/
theorem tokensFrom_drop_newlineRun (dollar : Bool) (line : Nat) (cs : List Char) :
    tokensFrom dollar (line + (cs.take (newlineRun false cs)).count '\n')
        (cs.drop (newlineRun false cs)) =
      ⟨pastNewline (tokensFrom dollar line cs).tokens, (tokensFrom dollar line cs).fault⟩ := by
  obtain ⟨gap, parts, blank⟩ := exists_gap (rfl : cs.dropWhile isBlank = _)
  have nonblank : ∀ c ∈ (cs.dropWhile isBlank).head?, isBlank c = false := by
    intro c hc
    obtain ⟨rest, hd⟩ := List.head?_eq_some_iff.mp hc
    exact isBlank_of_dropWhile hd
  generalize cs.dropWhile isBlank = left at parts nonblank
  subst parts
  rw [newlineRun_blanks_append blank, List.take_length_add_append, List.drop_length_add_append,
    List.count_append, Covers.count_gap blank, Nat.zero_add,
    tokensFrom_congr (List.dropWhile_append_of_pos blank)]
  by_cases other : BeginsOther left
  · rw [newlineRun_of_beginsOther other, List.take_zero, List.drop_zero, List.count_nil,
      Nat.add_zero, pastNewline_of_head other.kind_ne]
  · cases left with
    | nil => exact absurd nofun other
    | cons c rest =>
        have start : (c :: rest).dropWhile isBlank = c :: rest := by simp [nonblank c rfl]
        have first : (c == '\n' || c == '#') = true := by
          by_contra plain
          refine other ?_
          rintro _ ⟨⟩
          exact ⟨nonblank c rfl, Bool.eq_false_of_not_eq_true plain⟩
        have run : lexeme dollar c rest = .item .newline (newlineRun (c == '#') rest) :=
          if_pos first
        rw [newlineRun_cons_of_first first, List.take_succ_cons, List.drop_succ_cons,
          tokensFrom_item start run]
        rfl

/-- A text that ends in a line feed keeps its tokens, up to its end, when another text is
put behind it. A newline token in front of the other text is part of its last one. -/
theorem tokensFrom_append (ends : cs.getLast? = some '\n')
    (h : (tokensFrom dollar line cs).fault = none) (s : List Char) :
    ∃ t front, (tokensFrom dollar line cs).tokens =
        t :: (front ++ [Token.endOfText (line + cs.count '\n')]) ∧
      tokensFrom dollar line (cs ++ s) =
        ⟨t :: (front ++ pastNewline (tokensFrom dollar (line + cs.count '\n') s).tokens),
          (tokensFrom dollar (line + cs.count '\n') s).fault⟩ := by
  fun_induction tokensFrom dollar line cs with
  | case1 line cs hd =>
      have blank := List.dropWhile_eq_nil_iff.mp hd
      cases blank '\n' (List.mem_of_getLast? ends)
  | case2 => cases h
  | case3 line cs c rest hd kind more hl slice after ih =>
      obtain ⟨gap, rfl, blank⟩ := exists_gap hd
      have ends : (c :: rest).getLast? = some '\n' := by
        rwa [List.getLast?_append_of_ne_nil _ (List.cons_ne_nil _ _)] at ends
      have start : (gap ++ c :: rest ++ s).dropWhile isBlank = c :: (rest ++ s) := by
        rw [List.append_assoc, List.dropWhile_append_of_pos blank]
        simp [isBlank_of_dropWhile hd]
      have feeds : (gap ++ c :: rest).count '\n' =
          slice.count '\n' + (rest.drop more).count '\n' := by
        rw [List.count_append, Covers.count_gap blank, Nat.zero_add, ← List.count_append,
          List.cons_append, List.take_append_drop]
      rw [feeds, ← Nat.add_assoc]
      rcases Nat.lt_or_ge more rest.length with left | whole
      · have same := lexeme_append_of_lt ends hl left s
        have ends : (rest.drop more).getLast? = some '\n' := by
          rwa [← List.take_append_drop more rest, ← List.cons_append,
            List.getLast?_append_of_ne_nil _ (List.drop_eq_nil_iff.not.mpr (by omega))] at ends
        obtain ⟨t, front, tokens, further⟩ := ih ends h
        refine ⟨⟨kind, tokenText kind slice, line⟩, t :: front, by rw [tokens]; rfl, ?_⟩
        rw [tokensFrom_item start same, List.take_append_of_le_length left.le,
          List.drop_append_of_le_length left.le, further]
        rfl
      · obtain ⟨rfl, further⟩ := lexeme_append_of_le ends hl whole s
        have taken : slice = c :: rest := congrArg (c :: ·) (List.take_of_length_le whole)
        have left : rest.drop more = [] := List.drop_of_length_le whole
        have stop : after = ⟨[Token.endOfText (line + slice.count '\n')], none⟩ :=
          tokensFrom_nil (by rw [left]; rfl)
        have behind := tokensFrom_drop_newlineRun dollar (line + slice.count '\n') s
        rw [left, List.count_nil, Nat.add_zero]
        refine ⟨⟨.newline, tokenText .newline slice, line⟩, [], by rw [stop]; rfl, ?_⟩
        rw [tokensFrom_item start further, List.take_length_add_append,
          List.drop_length_add_append, ← List.cons_append, List.count_append, ← taken,
          ← Nat.add_assoc, behind]
        rfl

end Lexer

end ScriptLang
