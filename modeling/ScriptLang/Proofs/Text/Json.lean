import ScriptLang.Proofs.Number.ReadBack
import ScriptLang.Proofs.Token.Lexeme
import ScriptLang.Text.Json
import ScriptLang.Token.Numeral

/-!
# The texts of a document

The grammar of RFC 8259, for the documents that program dumps are made of: what a text
has to begin with to denote a document, and what is left behind it. A text denotes at
most one document, and the layout of a document is a text that denotes it.
-/

namespace ScriptLang

namespace Json

/-! ## The grammar -/

/-- The characters that may stand around the structure of a document. -/
def blanks : List Char := [' ', '\t', '\n', '\r']

/-- The letters of escapes, each with the character it stands for. -/
def escapes : List (Char × Char) :=
  [('"', '"'), ('\\', '\\'), ('/', '/'), ('b', '\x08'), ('f', '\x0c'), ('n', '\n'), ('r', '\r'),
    ('t', '\t')]

/-- The value of hexadecimal digits. -/
def codeUnit? (digits : List Char) : Option Nat :=
  (digits.mapM (Numeral.digit? 16)).map fun values => values.foldl (fun n d => 16 * n + d) 0

/-- Any number of blanks, and what follows. -/
inductive Blanks : List Char → List Char → Prop where
  | nil {s : List Char} : Blanks s s
  | cons {c : Char} {s rest : List Char} : c ∈ blanks → Blanks s rest → Blanks (c :: s) rest

/-- One character between quotes. It stands for itself, or it is escaped by a letter, by
its code point, or by the two code units that make up its code point. -/
inductive Character : List Char → Char → List Char → Prop where
  | plain {c : Char} {rest : List Char} :
      0x20 ≤ c.toNat → c ≠ '"' → c ≠ '\\' → Character (c :: rest) c rest
  | letter {l c : Char} {rest : List Char} :
      (l, c) ∈ escapes → Character ('\\' :: l :: rest) c rest
  | unit {d₁ d₂ d₃ d₄ c : Char} {rest : List Char} :
      codeUnit? [d₁, d₂, d₃, d₄] = some c.toNat →
      Character ('\\' :: 'u' :: d₁ :: d₂ :: d₃ :: d₄ :: rest) c rest
  | pair {d₁ d₂ d₃ d₄ e₁ e₂ e₃ e₄ c : Char} {high low : Nat} {rest : List Char} :
      high < 0x400 → low < 0x400 → codeUnit? [d₁, d₂, d₃, d₄] = some (0xd800 + high) →
      codeUnit? [e₁, e₂, e₃, e₄] = some (0xdc00 + low) →
      c.toNat = 0x10000 + 0x400 * high + low →
      Character ('\\' :: 'u' :: d₁ :: d₂ :: d₃ :: d₄ ::
        '\\' :: 'u' :: e₁ :: e₂ :: e₃ :: e₄ :: rest) c rest

/-- Characters up to the closing quote. -/
inductive Characters : List Char → List Char → List Char → Prop where
  | nil {rest : List Char} : Characters ('"' :: rest) [] rest
  | cons {c : Char} {s t cs rest : List Char} :
      Character s c t → Characters t cs rest → Characters s (c :: cs) rest

/-- Decimal digits, and no zero in front of others. -/
def Number (s : List Char) (n : Nat) (rest : List Char) : Prop :=
  ∃ digits, s = digits ++ rest ∧ digits ≠ [] ∧ (∀ d ∈ digits, d.isDigit) ∧
    (digits.head? = some '0' → digits = ['0']) ∧ Nat.ofDigitChars 10 digits 0 = n

/-- What stands in brackets, one after the other. -/
inductive Item where
  | value
  | member

/-- What an item denotes. -/
def Item.Meaning : Item → Type
  | value => Json
  | member => String × Json

/-- The categories of the grammar. -/
inductive Category where
  | one (item : Item)
  | many (item : Item)

/-- What the texts of a category denote. -/
def Category.Meaning : Category → Type
  | one item => item.Meaning
  | many item => List item.Meaning

/-- A text of a category, what it denotes, and what follows it. -/
inductive Reads : (k : Category) → List Char → k.Meaning → List Char → Prop where
  | null {rest : List Char} :
      Reads (.one .value) ('n' :: 'u' :: 'l' :: 'l' :: rest) Json.null rest
  | nat {s rest : List Char} {n : Nat} :
      Number s n rest → Reads (.one .value) s (Json.nat n) rest
  | str {s rest : List Char} {text : String} :
      Characters s text.toList rest → Reads (.one .value) ('"' :: s) (Json.str text) rest
  | arr {s rest : List Char} {items : List Json} :
      Reads (.many .value) s items (']' :: rest) →
      Reads (.one .value) ('[' :: s) (Json.arr items) rest
  | obj {s rest : List Char} {fields : List (String × Json)} :
      Reads (.many .member) s fields ('\x7d' :: rest) →
      Reads (.one .value) ('\x7b' :: s) (Json.obj fields) rest
  | member {s t u v rest : List Char} {name : String} {j : Json} :
      Characters s name.toList t → Blanks t (':' :: u) → Blanks u v →
      Reads (.one .value) v j rest → Reads (.one .member) ('"' :: s) (name, j) rest
  | none {item : Item} {s rest : List Char} :
      Blanks s rest → Reads (.many item) s ([] : List item.Meaning) rest
  | last {item : Item} {s t u rest : List Char} {x : item.Meaning} :
      Blanks s t → Reads (.one item) t x u → Blanks u rest →
      Reads (.many item) s ([x] : List item.Meaning) rest
  | more {item : Item} {s t u v rest : List Char} {x y : item.Meaning} {ys : List item.Meaning} :
      Blanks s t → Reads (.one item) t x u → Blanks u (',' :: v) →
      Reads (.many item) v (y :: ys : List item.Meaning) rest →
      Reads (.many item) s (x :: y :: ys : List item.Meaning) rest

/-- The text denotes the document. Blanks may stand around it. -/
def Denotes (text : String) (j : Json) : Prop :=
  ∃ s rest, Blanks text.toList s ∧ Reads (.one .value) s j rest ∧ Blanks rest []

/-! ## A text denotes one document -/

/-- The text does not begin with a blank. -/
def NoBlank (s : List Char) : Prop := ∀ c ∈ s.head?, c ∉ blanks

/-- The text does not begin with a digit. -/
def NoDigit (s : List Char) : Prop := ∀ c ∈ s.head?, c.isDigit = false

theorem Blanks.unique {s r r' : List Char} (h : Blanks s r) (h' : Blanks s r')
    (solid : NoBlank r) (solid' : NoBlank r') : r = r' := by
  induction h with
  | nil =>
      cases h' with
      | nil => rfl
      | cons blank => exact absurd blank (solid _ rfl)
  | cons blank _ ih =>
      cases h' with
      | nil => exact absurd blank (solid' _ rfl)
      | cons _ rest => exact ih rest solid

/-- No blank is a digit. -/
theorem not_isDigit_of_mem_blanks : ∀ c ∈ blanks, c.isDigit = false := forall_mem_of_all (by decide)

/-- Blanks in front of what does not begin with a digit do not make it begin with one. -/
theorem Blanks.noDigit {s r : List Char} (h : Blanks s r) (apart : NoDigit r) : NoDigit s := by
  cases h with
  | nil => exact apart
  | cons blank =>
      intro c hc
      cases hc
      exact not_isDigit_of_mem_blanks _ blank

/-- No character has the code point of the first half of a pair. -/
theorem toNat_ne_surrogate {c : Char} {k : Nat} (h : k < 0x400) :
    c.toNat ≠ 0xd800 + k := by
  intro same
  have valid : c.toNat < 0xd800 ∨ 0xdfff < c.toNat ∧ c.toNat < 0x110000 := c.valid
  omega

theorem Character.unique {s r r' : List Char} {c c' : Char} (h : Character s c r)
    (h' : Character s c' r') : c = c' ∧ r = r' := by
  have noU : ∀ e ∈ escapes, e.1 ≠ 'u' := forall_mem_of_all (by decide)
  cases h with
  | plain _ _ apart =>
      cases h' with
      | plain => exact ⟨rfl, rfl⟩
      | letter | unit | pair => exact absurd rfl apart
  | letter escaped =>
      cases h' with
      | plain _ _ apart => exact absurd rfl apart
      | letter escaped' =>
          refine ⟨?_, rfl⟩
          have functional : ∀ e ∈ escapes, ∀ e' ∈ escapes, e.1 = e'.1 → e.2 = e'.2 := by decide
          exact functional _ escaped _ escaped' rfl
      | unit | pair => exact absurd rfl (noU _ escaped)
  | unit value =>
      cases h' with
      | plain _ _ apart => exact absurd rfl apart
      | letter escaped => exact absurd rfl (noU _ escaped)
      | unit value' =>
          have same := Option.some.inj (value.symm.trans value')
          exact ⟨Char.toNat_inj.mp same, rfl⟩
      | pair bound _ value' =>
          exact absurd (Option.some.inj (value.symm.trans value')) (toNat_ne_surrogate bound)
  | pair bound _ value value₂ code =>
      cases h' with
      | plain _ _ apart => exact absurd rfl apart
      | letter escaped => exact absurd rfl (noU _ escaped)
      | unit value' =>
          exact absurd (Option.some.inj (value'.symm.trans value)) (toNat_ne_surrogate bound)
      | pair _ _ value' value₂' code' =>
          have same := Option.some.inj (value.symm.trans value')
          have same₂ := Option.some.inj (value₂.symm.trans value₂')
          refine ⟨Char.toNat_inj.mp ?_, rfl⟩
          omega

theorem Characters.unique {s r r' cs cs' : List Char} (h : Characters s cs r)
    (h' : Characters s cs' r') : cs = cs' ∧ r = r' := by
  have noQuote {c : Char} {s t : List Char} : ¬ Character ('"' :: s) c t := by
    intro h
    cases h with
    | plain _ apart => exact apart rfl
  induction h generalizing cs' with
  | nil =>
      cases h' with
      | nil => exact ⟨rfl, rfl⟩
      | cons first => exact absurd first noQuote
  | cons first _ ih =>
      cases h' with
      | nil => exact absurd first noQuote
      | cons first' rest =>
          obtain ⟨rfl, rfl⟩ := first.unique first'
          obtain ⟨rfl, rfl⟩ := ih rest
          exact ⟨rfl, rfl⟩

/-- A number begins with a digit. -/
theorem Number.head {s rest : List Char} {n : Nat} {c : Char} (h : Number (c :: s) n rest) :
    c.isDigit := by
  obtain ⟨digits, text, some, digit, -⟩ := h
  cases digits with
  | nil => exact absurd rfl some
  | cons d ds =>
      obtain rfl := (List.cons.inj text).1
      exact digit _ List.mem_cons_self

theorem Number.unique {s r r' : List Char} {n n' : Nat} (h : Number s n r) (h' : Number s n' r')
    (apart : NoDigit r) (apart' : NoDigit r') : n = n' ∧ r = r' := by
  obtain ⟨ds, rfl, -, digit, -, rfl⟩ := h
  obtain ⟨ds', text, -, digit', -, rfl⟩ := h'
  have taken {ds r : List Char} (digit : ∀ d ∈ ds, d.isDigit) (apart : NoDigit r) :
      (ds ++ r).takeWhile Char.isDigit = ds := by
    rw [List.takeWhile_append_of_pos digit]
    cases r with
    | nil => simp
    | cons c r => simp [apart c rfl]
  have same : ds = ds' := by rw [← taken digit apart, text, taken digit' apart']
  subst same
  exact ⟨rfl, List.append_cancel_left text⟩

/-- What may follow a text of the category: no digit behind an item, and a closing
bracket behind all of them. -/
def Category.Ends : Category → List Char → Prop
  | .one _, rest => NoDigit rest
  | .many _, rest => ∃ c ∈ rest.head?, c = ']' ∨ c = '\x7d'

/-- An item begins with a character that is no blank and closes nothing. -/
theorem Reads.head {item : Item} {s rest : List Char} {x : item.Meaning}
    (h : Reads (.one item) s x rest) :
    ∃ c, s.head? = some c ∧ c ∉ blanks ∧ c ≠ ']' ∧ c ≠ '\x7d' := by
  cases h with
  | null => exact ⟨'n', rfl, by decide⟩
  | nat number =>
      obtain ⟨digits, rfl, some, digit, -⟩ := number
      cases digits with
      | nil => exact absurd rfl some
      | cons d ds =>
          have isDigit := digit d List.mem_cons_self
          refine ⟨d, rfl, fun blank => ?_, ?_, ?_⟩
          · rw [not_isDigit_of_mem_blanks d blank] at isDigit
            cases isDigit
          all_goals
            rintro rfl
            revert isDigit
            decide
  | str | member => exact ⟨'"', rfl, by decide⟩
  | arr => exact ⟨'[', rfl, by decide⟩
  | obj => exact ⟨'\x7b', rfl, by decide⟩

theorem Reads.noBlank {item : Item} {s rest : List Char} {x : item.Meaning}
    (h : Reads (.one item) s x rest) : NoBlank s := by
  obtain ⟨c, first, solid, -⟩ := h.head
  intro d hd
  rw [first] at hd
  cases hd
  exact solid

theorem Category.Ends.noBlank {item : Item} {rest : List Char}
    (h : (Category.many item).Ends rest) : NoBlank rest := by
  obtain ⟨c, first, closing⟩ := h
  intro d hd
  obtain rfl := Option.some.inj (hd.symm.trans first)
  rcases closing with rfl | rfl <;> decide

theorem Category.Ends.noDigit {item : Item} {rest : List Char}
    (h : (Category.many item).Ends rest) : NoDigit rest := by
  obtain ⟨c, first, closing⟩ := h
  intro d hd
  obtain rfl := Option.some.inj (hd.symm.trans first)
  rcases closing with rfl | rfl <;> rfl

/-- An item is nothing that could close the brackets. -/
theorem Reads.not_ends {item : Item} {s rest : List Char} {x : item.Meaning}
    (h : Reads (.one item) s x rest) : ¬ (Category.many item).Ends s := by
  obtain ⟨c, first, -, bracket, brace⟩ := h.head
  rintro ⟨d, hd, closing⟩
  obtain rfl := Option.some.inj (hd.symm.trans first)
  rcases closing with rfl | rfl
  · exact bracket rfl
  · exact brace rfl

theorem not_ends_comma {item : Item} {s : List Char} : ¬ (Category.many item).Ends (',' :: s) := by
  rintro ⟨c, ⟨⟩, closing⟩
  revert closing
  decide

theorem noBlank_comma {s : List Char} : NoBlank (',' :: s) := by
  rintro c ⟨⟩
  decide

theorem noDigit_comma {s : List Char} : NoDigit (',' :: s) := by
  rintro c ⟨⟩
  rfl

/-- A text of a category has one meaning and one end. -/
theorem Reads.unique {k : Category} {s r : List Char} {x : k.Meaning} (h : Reads k s x r) :
    ∀ {y : k.Meaning} {r' : List Char}, Reads k s y r' → k.Ends r → k.Ends r' →
      x = y ∧ r = r' := by
  induction h with
  | null =>
      intro y r' h' _ _
      cases h' with
      | null => exact ⟨rfl, rfl⟩
      | nat number => exact absurd number.head (by decide)
  | nat number =>
      intro y r' h' ends ends'
      cases h' with
      | nat number' =>
          obtain ⟨rfl, rfl⟩ := number.unique number' ends ends'
          exact ⟨rfl, rfl⟩
      | null | str | arr | obj => exact absurd number.head (by decide)
  | str text =>
      intro y r' h' _ _
      cases h' with
      | str text' =>
          obtain ⟨same, rfl⟩ := text.unique text'
          obtain rfl := String.toList_inj.mp same
          exact ⟨rfl, rfl⟩
      | nat number => exact absurd number.head (by decide)
  | arr _ ih =>
      intro y r' h' _ _
      cases h' with
      | arr items =>
          obtain ⟨rfl, same⟩ := ih items ⟨_, rfl, .inl rfl⟩ ⟨_, rfl, .inl rfl⟩
          exact ⟨rfl, (List.cons.inj same).2⟩
      | nat number => exact absurd number.head (by decide)
  | obj _ ih =>
      intro y r' h' _ _
      cases h' with
      | obj fields =>
          obtain ⟨rfl, same⟩ := ih fields ⟨_, rfl, .inr rfl⟩ ⟨_, rfl, .inr rfl⟩
          exact ⟨rfl, (List.cons.inj same).2⟩
      | nat number => exact absurd number.head (by decide)
  | member name colon space value ih =>
      intro y r' h' ends ends'
      cases h' with
      | member name' colon' space' value' =>
          obtain ⟨same, rfl⟩ := name.unique name'
          obtain rfl := String.toList_inj.mp same
          have noBlank {s : List Char} : NoBlank (':' :: s) := by
            rintro c ⟨⟩
            decide
          obtain ⟨-, rfl⟩ := List.cons.inj (colon.unique colon' noBlank noBlank)
          obtain rfl := space.unique space' value.noBlank value'.noBlank
          obtain ⟨rfl, rfl⟩ := ih value' ends ends'
          exact ⟨rfl, rfl⟩
  | none space =>
      intro y r' h' ends ends'
      cases h' with
      | none space' => exact ⟨rfl, space.unique space' ends.noBlank ends'.noBlank⟩
      | last space' first | more space' first =>
          obtain rfl := space.unique space' ends.noBlank first.noBlank
          exact absurd ends first.not_ends
  | last space first behind ih =>
      intro y r' h' ends ends'
      cases h' with
      | none space' =>
          obtain rfl := space.unique space' first.noBlank ends'.noBlank
          exact absurd ends' first.not_ends
      | last space' first' behind' =>
          obtain rfl := space.unique space' first.noBlank first'.noBlank
          obtain ⟨rfl, rfl⟩ := ih first' (behind.noDigit ends.noDigit) (behind'.noDigit ends'.noDigit)
          exact ⟨rfl, behind.unique behind' ends.noBlank ends'.noBlank⟩
      | more space' first' behind' =>
          obtain rfl := space.unique space' first.noBlank first'.noBlank
          obtain ⟨rfl, rfl⟩ :=
            ih first' (behind.noDigit ends.noDigit) (behind'.noDigit noDigit_comma)
          obtain rfl := behind.unique behind' ends.noBlank noBlank_comma
          exact absurd ends not_ends_comma
  | more space first behind rest ihFirst ihRest =>
      intro y r' h' ends ends'
      cases h' with
      | none space' =>
          obtain rfl := space.unique space' first.noBlank ends'.noBlank
          exact absurd ends' first.not_ends
      | last space' first' behind' =>
          obtain rfl := space.unique space' first.noBlank first'.noBlank
          obtain ⟨rfl, rfl⟩ :=
            ihFirst first' (behind.noDigit noDigit_comma) (behind'.noDigit ends'.noDigit)
          obtain rfl := behind'.unique behind ends'.noBlank noBlank_comma
          exact absurd ends' not_ends_comma
      | more space' first' behind' rest' =>
          obtain rfl := space.unique space' first.noBlank first'.noBlank
          obtain ⟨rfl, rfl⟩ := ihFirst first' (behind.noDigit noDigit_comma)
            (behind'.noDigit noDigit_comma)
          obtain ⟨-, rfl⟩ := List.cons.inj (behind.unique behind' noBlank_comma noBlank_comma)
          obtain ⟨same, rfl⟩ := ihRest rest' ends ends'
          obtain ⟨rfl, rfl⟩ := List.cons.inj same
          exact ⟨rfl, rfl⟩

theorem Denotes.unique {text : String} {j j' : Json} (h : Denotes text j) (h' : Denotes text j') :
    j = j' := by
  obtain ⟨s, rest, space, read, behind⟩ := h
  obtain ⟨s', rest', space', read', behind'⟩ := h'
  obtain rfl := space.unique space' read.noBlank read'.noBlank
  have nothing : NoDigit [] := by simp [NoDigit]
  exact (read.unique read' (behind.noDigit nothing) (behind'.noDigit nothing)).1

/-! ## The layout of a document -/

/-- A character is read back from the way it is quoted. -/
theorem character_quotedChar (c : Char) (rest : List Char) :
    Character (Text.quotedChar c ++ rest) c rest := by
  have short : ∀ e ∈ escapes, e.1 ≠ '/' → Text.quotedChar e.2 = ['\\', e.1] := by decide
  have code : ∀ n : Fin 0x20,
      codeUnit? ['0', '0', Nat.digitChar (n / 16), Nat.digitChar (n % 16)] = some n.val := by
    decide
  by_cases escaped : ∃ e ∈ escapes, e.1 ≠ '/' ∧ e.2 = c
  · obtain ⟨⟨l, c⟩, mem, slash, rfl⟩ := escaped
    rw [short _ mem slash]
    exact .letter mem
  · have others : c ≠ '"' ∧ c ≠ '\\' ∧ c ≠ '\n' ∧ c ≠ '\r' ∧ c ≠ '\t' ∧ c ≠ '\x08' ∧
        c ≠ '\x0c' := by
      refine ⟨?_, ?_, ?_, ?_, ?_, ?_, ?_⟩ <;>
        exact fun same => escaped (by subst same; decide)
    by_cases control : c.toNat < 0x20
    · simp only [Text.quotedChar, others, control, beq_iff_eq, if_true, if_false]
      exact .unit (code ⟨c.toNat, control⟩)
    · simp only [Text.quotedChar, others, control, beq_iff_eq, if_false]
      exact .plain (Nat.le_of_not_lt control) others.1 others.2.1

theorem characters_quoted (cs rest : List Char) :
    Characters (cs.flatMap Text.quotedChar ++ '"' :: rest) cs rest := by
  induction cs with
  | nil => exact .nil
  | cons c cs ih =>
      rw [List.flatMap_cons, List.append_assoc]
      exact .cons (character_quotedChar c _) ih

theorem number_toString (n : Nat) (rest : List Char) :
    Number ((toString n).toList ++ rest) n rest := by
  refine ⟨Nat.toDigits 10 n, ?_, Nat.toDigits_ne_nil, fun d hd => ?_, fun zero => ?_, ?_⟩
  · simp
  · exact Nat.isDigit_of_mem_toDigits (by decide) (by decide) hd
  · rcases Nat.eq_zero_or_pos n with rfl | positive
    · rfl
    · exact absurd zero (Number.head?_toDigits positive)
  · exact Nat.ofDigitChars_toDigits (by decide) (by decide)

theorem blanks_indentation (level : Nat) (rest : List Char) :
    Blanks ((indentation level).toList ++ rest) rest := by
  rw [indentation, String.toList_ofList]
  induction 2 * level with
  | zero => exact .nil
  | succ n ih => exact .cons (by decide) ih

theorem Reads.blank {item : Item} {c : Char} {s rest : List Char} {xs : List item.Meaning}
    (h : Reads (.many item) s xs rest) (blank : c ∈ blanks) :
    Reads (.many item) (c :: s) xs rest := by
  cases h with
  | none space => exact .none (.cons blank space)
  | last space first behind => exact .last (.cons blank space) first behind
  | more space first behind others => exact .more (.cons blank space) first behind others

/-- The text is read as the item, whatever follows it. -/
def Writes (item : Item) (text : String) (x : item.Meaning) : Prop :=
  ∀ rest, Reads (.one item) (text.toList ++ rest) x rest

/-- Items on lines of their own, with commas between them. -/
theorem reads_lines {item : Item} {texts : List String} {xs : List item.Meaning} {s rest : List Char}
    (level : Nat) (h : List.Forall₂ (Writes item) texts xs) (some : texts ≠ [])
    (behind : Blanks s rest) :
    Reads (.many item)
      ((String.intercalate ",\n" (texts.map fun text => indentation level ++ text)).toList ++ s)
      xs rest := by
  induction h with
  | nil => exact absurd rfl some
  | cons first others ih =>
      cases others with
      | nil =>
          rw [List.map_singleton, String.intercalate_singleton, String.toList_append,
            List.append_assoc]
          exact .last (blanks_indentation level _) (first _) behind
      | cons second others =>
          have next := (ih (List.cons_ne_nil _ _)).blank (c := '\n') (by decide)
          simp only [List.map_cons, String.intercalate_cons_cons, String.toList_append,
            List.append_assoc] at next ⊢
          exact .more (blanks_indentation level _) (first _) .nil next

/-- Items between brackets. -/
theorem reads_bracketed {item : Item} {texts : List String} {xs : List item.Meaning}
    (opening closing : String) (level : Nat) (h : List.Forall₂ (Writes item) texts xs)
    (rest : List Char) :
    ∃ s, (bracketed opening closing level texts).toList ++ rest = opening.toList ++ s ∧
      Reads (.many item) s xs (closing.toList ++ rest) := by
  cases h with
  | nil => exact ⟨closing.toList ++ rest, by simp [bracketed], .none .nil⟩
  | cons first others =>
      have lines := (reads_lines (level + 1) (.cons first others) (List.cons_ne_nil _ _)
        (.cons (c := '\n') (by decide) (blanks_indentation level (closing.toList ++ rest)))).blank
          (c := '\n') (by decide)
      refine ⟨_, ?_, lines⟩
      simp [bracketed]

mutual

theorem writes_pretty (level : Nat) : ∀ j : Json, Writes .value (j.pretty level) j
  | .null => fun rest => by
      rw [pretty]
      exact .null
  | .nat n => fun rest => .nat (number_toString n rest)
  | .str text => fun rest => by
      rw [pretty, Text.quoted, String.toList_ofList, List.append_assoc]
      exact .str (characters_quoted text.toList rest)
  | .arr items => fun rest => by
      obtain ⟨s, text, read⟩ :=
        reads_bracketed "[" "]" level (writes_prettyItems (level + 1) items) rest
      rw [pretty, text]
      exact .arr read
  | .obj fields => fun rest => by
      obtain ⟨s, text, read⟩ :=
        reads_bracketed "\x7b" "\x7d" level (writes_prettyFields (level + 1) fields) rest
      rw [pretty, text]
      exact .obj read

theorem writes_prettyItems (level : Nat) : ∀ items : List Json,
    List.Forall₂ (Writes .value) (prettyItems level items) items
  | [] => .nil
  | item :: items => .cons (writes_pretty level item) (writes_prettyItems level items)

theorem writes_prettyFields (level : Nat) : ∀ fields : List (String × Json),
    List.Forall₂ (Writes .member) (prettyFields level fields) fields
  | [] => .nil
  | (name, value) :: fields => by
      refine .cons (fun rest => ?_) (writes_prettyFields level fields)
      have colon : Blanks (':' :: ' ' :: ((value.pretty level).toList ++ rest))
          (':' :: ' ' :: ((value.pretty level).toList ++ rest)) := .nil
      have text := characters_quoted name.toList
        (':' :: ' ' :: ((value.pretty level).toList ++ rest))
      have read := Reads.member text colon (.cons (by decide) .nil)
        (writes_pretty level value rest)
      simpa [Text.quoted] using read

end

/-- The layout of a document denotes the document. -/
theorem denotes_pretty (level : Nat) (j : Json) : Denotes (j.pretty level) j := by
  have read := writes_pretty level j []
  rw [List.append_nil] at read
  exact ⟨_, _, .nil, read, .nil⟩

end Json

end ScriptLang
