import ScriptLang.Proofs.Machine.Resolution
import ScriptLang.Proofs.Parser.WellFormed
import ScriptLang.Proofs.Token.Longest

/-!
# Number literals that are evaluated

A number token is a literal of the grammar, and every literal has a value. What a run of a
program evaluates are pieces of the program, and the pieces of a well-formed program are
well formed, so the numbers among them are the texts of number tokens. The only place where
a run could report a number without a value is where such a text is evaluated, and so it
never does.
-/

namespace ScriptLang

variable {dollar : Bool} {program : List Stmt}

/-! ## Texts of number tokens -/

/-- What is read as one number is a literal. -/
theorem literal_of_lexesAs {text : String} (lexes : LexesAs dollar .number text) :
    Numeral.Literal text.toList := by
  obtain ⟨c, rest, chars, -, item⟩ := (lexesAs_iff rfl).mp lexes
  have longest := Lexer.isLongest_of_lexeme item
  rw [List.take_length, ← chars] at longest
  exact (longest.number rfl).2

theorem isSome_literal? {text : String} (lexes : LexesAs dollar .number text) :
    (Number.literal? text.toList).isSome = true := (literal_of_lexesAs lexes).isSome

/-! ## Pieces of well-formed programs -/

namespace Fragment

/-- The piece is well formed, wherever it stands; a bound of a slice may be left out. -/
def WellFormed (dollar : Bool) : Fragment → Prop
  | expr e => e = .omitted ∨ e.WellFormed dollar
  | exprs items => WellFormedExprs dollar items
  | entries es => WellFormedEntries dollar es
  | stmt s => ∃ place, s.WellFormed dollar place
  | stmts body | block body => ∃ place, WellFormedBlock dollar place body
  | alternative rest => ∃ place, rest.WellFormed dollar place
  | arms as => ∃ place, WellFormedArms dollar place as

/-- The parts of a well-formed piece are well formed. -/
theorem WellFormed.of_mem_parts {whole part : Fragment} (h : whole.WellFormed dollar)
    (hp : part ∈ whole.parts) : part.WellFormed dollar := by
  cases whole with
  | expr e =>
      rcases h with rfl | h
      · cases hp
      · cases e <;> grind [parts, WellFormed, Expr.WellFormed]
  | exprs items => cases items <;> grind [parts, WellFormed, WellFormedExprs]
  | entries es =>
      rcases es with _ | ⟨⟨key, value⟩, rest⟩ <;> grind [parts, WellFormed, WellFormedEntries]
  | stmt s =>
      obtain ⟨place, h⟩ := h
      cases s <;> grind [parts, WellFormed, Stmt.WellFormed]
  | stmts body =>
      obtain ⟨place, h⟩ := h
      cases body <;> grind [parts, WellFormed, WellFormedBlock]
  | block body => grind [parts, WellFormed]
  | alternative rest =>
      obtain ⟨place, h⟩ := h
      cases rest <;> grind [parts, WellFormed, Alternative.WellFormed]
  | arms as =>
      obtain ⟨place, h⟩ := h
      rcases as with _ | ⟨⟨patterns, body⟩, rest⟩ <;> grind [parts, WellFormed, WellFormedArms]

theorem WellFormed.of_within {piece root : Fragment} (h : root.WellFormed dollar)
    (hw : piece.Within root) : piece.WellFormed dollar := by
  induction hw with
  | refl => exact h
  | tail _ hp ih => exact ih.of_mem_parts hp

end Fragment

/-- The bodies of a well-formed program are well formed. -/
theorem Nest.wellFormed (h : WellFormed dollar program) {nest : List Function}
    (hn : Nest program nest) : ∀ f ∈ nest.head?, (Fragment.stmts f.body).WellFormed dollar := by
  induction hn with
  | program =>
      rintro _ ⟨⟩
      exact ⟨_, h⟩
  | @function f g outer _ defined ih =>
      rintro _ ⟨⟩
      obtain ⟨place, definition⟩ := (ih g rfl).of_within defined
      exact ⟨_, definition.2.2⟩

namespace State

/-- A number that is evaluated has a value. -/
theorem Sound.isSome_literal? {layout : Layout} {a : Activation} {s : State}
    (sound : Sound layout program a s) (h : WellFormed dollar program) {text : String}
    (hc : s.control = .eval (.number text)) : (Number.literal? text.toList).isSome = true := by
  obtain ⟨w, ground, -, pieces⟩ := sound
  have piece : (Fragment.expr (.number text)).Within a.code := by
    rw [hc] at pieces
    exact pieces _ (List.mem_singleton.mpr rfl)
  obtain ⟨nest, env⟩ := a
  obtain ⟨f, outer, rfl⟩ := List.exists_cons_of_ne_nil ground.body
  obtain ⟨_, _, _, -, -, hn, -⟩ := ground.frames.of_mem ground.active
  rcases (hn.wellFormed h f rfl).of_within piece with omitted | lexes
  · cases omitted
  · exact ScriptLang.isSome_literal? lexes

end State

/-! ## Reports of a number without a value -/

namespace Control

/-- A number without a value is reported. -/
def isUnreadNumber : Control → Bool
  | raise (.error (.misuse .readNumber _)) => true
  | _ => false

end Control

namespace State

/-- No number without a value is reported. -/
def ReadsNumbers (s : State) : Prop := s.control.isUnreadNumber = false

namespace ReadsNumbers

variable {s : State}

/-- The changes of a step make the report only where a number without a value is evaluated. -/
theorem of_does {j : Job} {w : Wait} {t : State} (d : j.Does w s t)
    (literal : ∀ text, s.control = .eval (.number text) →
      (Number.literal? text.toList).isSome = true) : ReadsNumbers t := by
  induction d with
  | @goto w s c _ quiet =>
      cases c with
      | raise => cases quiet
      | _ => rfl
  | raise raised =>
      cases raised with
      | number evaluated missing =>
          have value := literal _ evaluated
          rw [missing] at value
          cases value
      | @onValues e about =>
          cases e with
          | misuse attempt subject => cases attempt <;> first | rfl | cases about
          | _ => rfl
      | _ => rfl
  | push _ _ _ _ _ _ ih | bind _ _ _ ih | close _ _ ih | addList _ _ ih | addMap _ _ ih
  | write _ _ _ ih | print _ _ _ ih => exact ih literal

/-- A call makes no report of its own. -/
theorem enterBody (o : Options) (s : State) (frame : Frame) (outer : Env) (body : List Stmt) :
    ReadsNumbers (enterBody o s frame outer body) := by
  obtain ⟨statements, running⟩ := exists_control_enterBody o s frame outer body
  rw [ReadsNumbers, running]
  rfl

/-- A step makes the report only where it evaluates a number without a value. -/
theorem next (r : Run) (h : ReadsNumbers s)
    (literal : ∀ text, s.control = .eval (.number text) →
      (Number.literal? text.toList).isSome = true) : ReadsNumbers (s.next r) := by
  have step := advances_next r s
  generalize s.next r = t at step ⊢
  cases step with
  | ended | endless | pass => exact h
  | begin _ _ _ d => exact of_does d literal
  | use _ _ _ d => exact of_does d literal
  | call => exact enterBody _ _ _ _ _
  | overflow => rfl
  | leave _ _ ends =>
      rcases ends with ⟨v, rfl⟩ | ⟨-, rfl⟩
      · rfl
      · exact h

end ReadsNumbers

/-- A run of a well-formed program never reports a number without a value. -/
theorem readsNumbers_after (h : WellFormed dollar program) (r : Run) (n : Nat) :
    (after r program n).ReadsNumbers := by
  induction n with
  | zero => exact ReadsNumbers.enterBody _ _ _ _ _
  | succ n ih =>
      obtain ⟨layout, a, sound⟩ := exists_sound r program n
      exact ih.next r fun text hc => sound.isSome_literal? h hc

theorem control_ne_unreadNumber (h : WellFormed dollar program) (r : Run) (n : Nat)
    (text : String) : (after r program n).control ≠ .raise (.error (.misuse .readNumber text)) := by
  intro raised
  have quiet := readsNumbers_after h r n
  rw [ReadsNumbers, raised] at quiet
  cases quiet

end State

open Lexer

/-- Every token of a text is as long as it can be where it begins. Where that is at a digit,
the longest number there is the token if it is a literal and the fault if it is not. The
texts of number tokens have values, and no run of a program that is read from the text
reports one without. -/
theorem number_tokens_exact (dollar : Bool) (source : String) :
    (∃ segments rest, Covers dollar 1 source.toList (lex dollar source) segments rest ∧
      (∀ before s after, segments = before ++ s :: after → IsLongest dollar s.token.kind
        (s.slice ++ after.flatMap Segment.chars ++ rest) s.slice) ∧
      ∀ d, (lex dollar source).fault = some d → EndsInFault d rest) ∧
      (∀ text slice slice', LongestNumber text slice → LongestNumber text slice' →
        slice = slice') ∧
      (∀ t ∈ (lex dollar source).tokens, t.kind = .number →
        (Number.literal? t.text.toList).isSome = true) ∧
      ∀ o program, parse o source = .ok program → ∀ r n text,
        (State.after r program n).control ≠ .raise (.error (.misuse .readNumber text)) := by
  obtain ⟨segments, rest, covers, cuts⟩ := exists_covers_lexemes dollar 1 source.toList
  refine ⟨⟨segments, rest, covers, fun _ _ _ => cuts.isLongest, fun _ => covers.endsInFault⟩,
    fun _ _ _ => LongestNumber.unique, fun t ht number => ?_, fun o program parsed => ?_⟩
  · have lexes := lexesAs_of_mem ht (by rw [number]; rfl)
    rw [number] at lexes
    exact isSome_literal? lexes
  · obtain ⟨start, left, cursor, run⟩ := exists_run_of_parse parsed
    exact State.control_ne_unreadNumber
      (Parser.Yields.program _ start (genuine_cursor cursor) _ _ run).1

/-- A point before no digit is no part of a number, and a letter behind a radix prefix is. -/
example : lex false "1_0.x 0x1fg" =
    ⟨[⟨.number, "1_0", 1⟩, ⟨.punct, ".", 1⟩, ⟨.word, "x", 1⟩],
      some ⟨1, "0x1fg", .malformedNumber⟩⟩ := by
  cbv

end ScriptLang
