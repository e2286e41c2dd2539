import ScriptLang.Proofs.Machine.Literal
import ScriptLang.Proofs.Parser.Written
import ScriptLang.Proofs.Text.Quoted

/-!
# Data reads back

The text of data, with strings quoted, is a way to write down an expression, and
evaluating the expression makes a copy of the data. `ReadsBack` says both of one
value; it holds of plain values and goes from the parts of a container to the
container.
-/

namespace ScriptLang

open Heap State

variable {dollar : Bool} {r : Run} {h : Heap} {depth : Nat} {v : Value}

/-! ## Texts of lists and entries -/

theorem exists_forall₂ {α β : Type} {R : α → β → Prop} {l : List β}
    (each : ∀ b ∈ l, ∃ a, R a b) : ∃ as, List.Forall₂ R as l := by
  induction l with
  | nil => exact ⟨[], .nil⟩
  | cons b l ih =>
      obtain ⟨a, first⟩ := each b List.mem_cons_self
      obtain ⟨as, rest⟩ := ih fun b hb => each b (List.mem_cons_of_mem _ hb)
      exact ⟨a :: as, .cons first rest⟩

theorem WritesList.intercalate {α : Type} {text : α → String} {es : List Expr} {items : List α}
    (written : List.Forall₂ (fun e item => Writes dollar (text item) e) es items) :
    WritesList dollar (String.intercalate ", " (items.map text)) es := by
  induction written with
  | nil => exact .nil
  | cons first rest ih =>
      cases rest with
      | nil => exact .one first
      | cons => simpa only [List.map_cons, String.intercalate_cons_cons] using .cons first ih

theorem WritesEntries.intercalate {α : Type} {left right : α → String}
    {es : List (Expr × Expr)} {items : List α}
    (written : List.Forall₂ (fun e item => Writes dollar (left item) e.1 ∧
      Writes dollar (right item) e.2) es items) :
    WritesEntries dollar
      (String.intercalate ", " (items.map fun item => left item ++ ": " ++ right item)) es := by
  induction written with
  | nil => exact .nil
  | cons first rest ih =>
      cases rest with
      | nil => exact .one first.1 first.2
      | cons =>
          simpa only [List.map_cons, String.intercalate_cons_cons] using .cons first.1 first.2 ih

/-! ## Values -/

/-- The text of a plain value is a way to write down an expression for it. -/
theorem IsPlain.exists_expr (plain : IsPlain v) (dollar : Bool) (h : Heap) :
    ∃ e, Writes dollar (h.nestedText v) e ∧
      ∀ r, Evaluates r h e fun _ w => SamePlain v w := by
  have word (name : String) {v : Value} (hc : constant? name = some v) (hv : IsPlain v)
      (same : v.strictEq v = true) (alone : ∀ dollar, Piece.alone dollar (.word, name) = true)
      (free : Token.isKeyword name = false) :
      ∃ e, Writes dollar name e ∧ ∀ r, Evaluates r h e fun _ w => SamePlain v w := by
    have isName : IsName dollar name := ⟨Piece.lexesAs_of_alone rfl (alone dollar), free⟩
    exact ⟨.ident name, (WritesOperand.ident isName).writes,
      fun r => evaluates_constant hc hv same⟩
  cases plain with
  | null => exact word "null" rfl .null rfl (by decide) (by decide)
  | bool b =>
      cases b with
      | false => exact word "false" rfl (.bool false) rfl (by decide) (by decide)
      | true => exact word "true" rfl (.bool true) rfl (by decide) (by decide)
  | @num x finite =>
      obtain ⟨digits, y, lexes, read, written⟩ := Number.exists_literal dollar finite
      have operand := WritesOperand.number lexes
      rcases written with ⟨written, same, text⟩ | ⟨written, negated⟩
      · refine ⟨.number digits, ?_, fun r => evaluates_number finite read same text⟩
        rw [show h.nestedText (.num x) = digits from written]
        exact operand.writes
      · refine ⟨.unary .neg (.number digits), ?_,
          fun r => evaluates_negative finite read negated⟩
        rw [show h.nestedText (.num x) = "-" ++ digits from written]
        exact .unary .neg operand
  | str text =>
      exact ⟨_, (WritesOperand.str (lexesAs_quoted_text dollar text)).writes,
        fun r => evaluates_str (unquote_quoted text)⟩

/-- The text of data is a way to write down an expression that makes copies of it. -/
theorem IsData.exists_expr (hv : IsData h v) (within : h.Within depth v) (dollar : Bool) :
    ∃ e, Writes dollar (h.nestedText v) e ∧ ∀ r, EvaluatesCopy r h depth e v := by
  induction within with
  | plain plain =>
      obtain ⟨e, written, makes⟩ := plain.exists_expr dollar h
      exact ⟨e, written, fun r => (makes r).mono fun _ _ same => same.copies⟩
  | list at_ _ ih =>
      cases hv with
      | plain plain => cases plain
      | list at' data =>
          obtain rfl := Option.some.inj (at_.symm.trans at')
          obtain ⟨es, items⟩ := exists_forall₂ fun v hv => ih v hv (data v hv)
          refine ⟨.list es, ?_, fun r => .list at_ (items.imp fun e v item => item.2 r)⟩
          rw [nestedText_list at_ data]
          exact (WritesOperand.list (.intercalate (items.imp fun e v item => item.1))).writes
  | @map depth id entries at_ plain _ ih =>
      cases hv with
      | plain plain => cases plain
      | map at' _ apart data =>
          obtain rfl := Option.some.inj (at_.symm.trans at')
          have each : ∀ entry ∈ entries, ∃ e : Expr × Expr,
              (Writes dollar (h.nestedText entry.1) e.1 ∧
                Writes dollar (h.nestedText entry.2) e.2) ∧
              ∀ r, EvaluatesEntry r h depth e entry := fun entry hentry => by
            obtain ⟨key, keyWritten, keyMakes⟩ := (plain entry hentry).exists_expr dollar h
            obtain ⟨value, written, makes⟩ := ih entry hentry (data entry hentry)
            exact ⟨(key, value), ⟨keyWritten, written⟩, fun r => ⟨keyMakes r, makes r⟩⟩
          obtain ⟨es, written⟩ := exists_forall₂ each
          refine ⟨.map es, ?_, fun r => .map at_ apart (written.imp fun e v entry => entry.2 r)⟩
          rw [nestedText_map at_ plain data]
          exact (WritesOperand.map (.intercalate (written.imp fun e v entry => entry.1))).writes

/-- The text of data, by itself on a line, is one expression, and evaluating it wherever
the data is still there makes a value that equals the data and has the same text. -/
theorem nestedText_reads_back (r : Run) (hv : IsData h v) :
    ∃ e, parse r.options (h.nestedText v ++ "\n") = .ok [.expr e] ∧
      ∀ s : State, h.Extends s.heap → ∃ h' w, s.heap.Extends h' ∧
        Reaches r (s.goto (.eval e)) { s with control := .value w, heap := h' } ∧
        h'.deepEq v w = true ∧ h'.deepEq w v = true ∧
        h'.nestedText v = h.nestedText v ∧ h'.nestedText w = h.nestedText v := by
  obtain ⟨e, written, makes⟩ := hv.exists_expr hv.within r.options.dollarIdentifiers
  refine ⟨e, parse_of_writes written, fun s le => ?_⟩
  obtain ⟨h', w, copy, grown, run⟩ := makes r s le
  have all : h.Extends h' := le.trans grown
  have deep : h.size ≤ h'.size + 1 := all.size_le.trans (Nat.le_succ _)
  have text : h'.nestedText v = h.nestedText v := nestedText_extends hv all
  exact ⟨h', w, grown, run, deepEqWithin_mono copy.equal deep,
    deepEqWithin_mono copy.equal_symm deep, text, copy.text.trans text⟩

/-- The heap of `{"a\n\"\x01": [-1.5, null], 0.1: {}}`. -/
def nestedData : Heap where
  lists := #[#[.num (-1.5), .null]]
  maps := #[[], [(.str "a\n\"\x01", .list 0), (.num 0.1, .map 0)]]

theorem isData_nestedData : IsData nestedData (.map 1) := by
  have items : nestedData.lists[0]? = some #[.num (-1.5), .null] := rfl
  have none : nestedData.maps[0]? = some [] := rfl
  have entries : nestedData.maps[1]? =
      some [(.str "a\n\"\x01", .list 0), (.num 0.1, .map 0)] := rfl
  have list : IsData nestedData (.list 0) := by
    refine .list items ?_
    simpa using ⟨.plain (.num (by decide)), .plain .null⟩
  have empty : IsData nestedData (.map 0) := .map none (by simp) .nil (by simp)
  refine .map entries ?_ ?_ ?_
  · simpa using ⟨.str "a\n\"\x01", .num (by decide)⟩
  · simp [Value.strictEq]
  · simpa using ⟨list, empty⟩

theorem nestedText_reads_back_nestedData :
    IsData nestedData (.map 1) ∧
    ∃ e, parse {} (nestedData.nestedText (.map 1) ++ "\n") = .ok [.expr e] ∧
      ∀ s : State, nestedData.Extends s.heap → ∃ h' w, s.heap.Extends h' ∧
        Reaches { file := "a", options := {}, maxDepth := 1 } (s.goto (.eval e)) { s with control := .value w, heap := h' } ∧
        h'.deepEq (.map 1) w = true ∧ h'.deepEq w (.map 1) = true ∧
        h'.nestedText (.map 1) = nestedData.nestedText (.map 1) ∧
        h'.nestedText w = nestedData.nestedText (.map 1) :=
  ⟨isData_nestedData, nestedText_reads_back { file := "a", options := {}, maxDepth := 1 } isData_nestedData⟩

-- the text that is read back
example : nestedData.nestedText (.map 1) =
    "\x7b\"a\\n\\\"\\u0001\": [-1.5, null], 0.1: \x7b\x7d\x7d" := by
  decide +kernel

end ScriptLang
