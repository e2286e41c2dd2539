import ScriptLang.Proofs.Parser.WellFormed
import ScriptLang.Proofs.Target.Lines
import ScriptLang.Proofs.Target.Reparse

/-!
# Jumps of emitted text

Emitted text has the outline of the program that it was emitted for. Since the text is
read with a label for each loop and a jump is read only if it names the innermost loop,
every jump goes where it goes in the program; and the labels are numbered in the order
in which their loops stand in the text.

Emission numbers loops by counting them. `Numbers` is the contract of a piece of
emission: from whatever number it goes on, its own loops have the numbers that follow.
-/

namespace ScriptLang

namespace Target

open Lexer Piece

/-! ## Emission -/

/-- However many loops were written before, the emission comes to something of the kind
with the labels that follow. -/
def Numbers {α : Type} (x : Emission α) (P : List Nat → α → Prop) : Prop :=
  ∀ n, ∃ k, (x.run n).2 = n + k ∧ P (List.range' (n + 1) k) (x.run n).1

namespace Numbers

variable {α β : Type} {x : Emission α} {f : α → Emission β} {P : List Nat → α → Prop}
  {Q : List Nat → β → Prop}

theorem pure {a : α} (h : P [] a) : Numbers (pure a) P :=
  fun _ => ⟨0, rfl, h⟩

theorem bind (hx : Numbers x P)
    (hf : ∀ labels a, P labels a → Numbers (f a) fun later b => Q (labels ++ later) b) :
    Numbers (x >>= f) Q := by
  intro n
  obtain ⟨k, count, hp⟩ := hx n
  obtain ⟨k', count', hq⟩ := hf _ _ hp (n + k)
  refine ⟨k + k', ?_, ?_⟩
  · show ((f (x.run n).1).run (x.run n).2).2 = _
    rw [count, count', Nat.add_assoc]
  · show Q _ ((f (x.run n).1).run (x.run n).2).1
    have ranges : List.range' (n + 1) (k + k') =
        List.range' (n + 1) k ++ List.range' (n + k + 1) k' := by
      rw [← List.range'_append_1, Nat.add_right_comm]
    rw [count, ranges]
    exact hq

theorem map {g : α → β} (hx : Numbers x P) (h : ∀ labels a, P labels a → Q labels (g a)) :
    Numbers (x >>= fun a => Pure.pure (g a)) Q := by
  refine hx.bind fun labels a ha => .pure ?_
  rw [List.append_nil]
  exact h labels a ha

theorem newLabel {f : Nat → Emission β}
    (hf : ∀ label, Numbers (f label) fun later b => Q (label :: later) b) :
    Numbers (Target.newLabel >>= f) Q := by
  have counts : Numbers Target.newLabel fun labels label => labels = [label] :=
    fun n => ⟨1, rfl, rfl⟩
  refine counts.bind ?_
  rintro _ label rfl
  exact hf label

end Numbers

/-- At whatever depth they are written, the items are read with some outlines. -/
def Draws (dollar : Bool) (current : Option Nat) (outlines : List Outline) (labels : List Nat)
    (items : List Item) : Prop :=
  ∀ depth, Depicts dollar current labels outlines (blockLines depth items)

variable {dollar : Bool} {current : Option Nat} {labels labels' : List Nat}
  {outlines outlines' : List Outline} {items items' : List Item} {a b t : String}
  {ms ms' : List Landmark} {r : Role}

namespace Draws

theorem nil : Draws dollar current [] [] [] := fun _ => .nil

theorem append (h : Draws dollar current outlines labels items)
    (h' : Draws dollar current outlines' labels' items') :
    Draws dollar current (outlines ++ outlines') (labels ++ labels') (items ++ items') := by
  intro depth
  rw [blockLines_append]
  exact (h depth).append (h' depth)

theorem one {item : Item} (h : ∀ depth, Depicts dollar current labels outlines (item.lines depth)) :
    Draws dollar current outlines labels [item] := by
  intro depth
  rw [blockLines, blockLines, List.append_nil]
  exact h depth

theorem plain {item : Item} {text : String} (hl : ∀ depth, item.lines depth = [⟨depth, text⟩])
    (h : HasRole dollar text .plain) : Draws dollar current [] [] [item] := by
  apply one
  intro depth
  rw [hl]
  exact .plain depth h

theorem of_forall (plain : ∀ item ∈ items, Draws dollar current [] [] [item]) :
    Draws dollar current [] [] items := by
  induction items with
  | nil => exact nil
  | cons item rest ih =>
      have first := plain item List.mem_cons_self
      exact first.append (ih fun item hitem => plain item (List.mem_cons_of_mem _ hitem))

end Draws

/-! ## Lines -/

theorem shows_semicolon : Shows dollar ";" [] := .fixed (by decide)

theorem shows_opening : Shows dollar ") \x7b" [.opening] := .fixed (by decide)

/-- An expression as a statement of its own. -/
theorem hasRole_run (h : Phrase dollar t) : HasRole dollar (t ++ ";") .plain :=
  .of_shows (h.shows.append shows_semicolon ⟨';', rfl, by decide⟩) (h.leads.append _) rfl

/-- An expression behind a word. -/
theorem hasRole_after (ha : Shows dollar a []) (leads : Leads a) (h : Phrase dollar t) :
    HasRole dollar (a ++ t ++ ";") .plain :=
  .of_shows (ha.around h.shows shows_semicolon ⟨';', rfl, by decide⟩)
    ((leads.append t).append _) rfl

/-- An expression in parentheses that opens something. -/
theorem hasRole_head (ha : Shows dollar a ms) (leads : Leads a) (h : ShowsSetOff dollar t [])
    (hr : roleOf? (ms ++ [.opening]) = some r) : HasRole dollar (a ++ t ++ ") \x7b") r :=
  .of_shows (ha.around h shows_opening ⟨')', rfl, by decide⟩) ((leads.append t).append _) hr

theorem shows_null : Shows dollar " = null;" [] := .fixed (by decide)

theorem draws_declare {name : String} (h : Phrase dollar name) :
    Draws dollar current [] [] [.declare name] := by
  have word : Shows dollar "let " [] := .fixed (by decide)
  refine .plain (fun _ => rfl) (.of_shows (word.around h.shows shows_null ⟨' ', rfl, by decide⟩)
    ⟨'l', by simp, by decide⟩ rfl)

theorem draws_guard {param : String} (h : Phrase dollar param) :
    Draws dollar current [] [] [.guard param] := by
  have condition : Shows dollar "if (" [] := .fixed (by decide)
  have undefined : Shows dollar " === undefined) " [] := .fixed (by decide)
  have first := condition.around h.shows undefined ⟨' ', rfl, by decide⟩
  exact .plain (fun _ => rfl) (.of_shows (first.around h.shows shows_null ⟨' ', rfl, by decide⟩)
    ⟨'i', by simp, by decide⟩ rfl)

/-- The guards and declarations of a body. -/
theorem draws_prologue {params : List String} {body : List Stmt} {place : Parser.Place}
    (hp : ∀ x ∈ params, IsName dollar x) (hb : WellFormedBlock dollar place body) :
    Draws dollar current [] [] (prologue params body) := by
  apply Draws.of_forall
  intro item hitem
  simp only [prologue, List.mem_append, List.mem_map] at hitem
  rcases hitem with ⟨p, hmem, rfl⟩ | ⟨x, hmem, rfl⟩
  · exact draws_guard (.name (hp p hmem))
  · exact draws_declare (.name (isName_of_locals hb hmem))

theorem hasRole_closing : HasRole dollar "\x7d" .closes :=
  .fixed (by decide) ⟨'\x7d', rfl, by decide⟩

/-- The head of a function, with what stands before it on the line. -/
theorem hasRole_function {name : String} {params : List String} (ha : Shows dollar a [])
    (leads : Leads (a ++ "function ")) (hn : Phrase dollar name)
    (hp : ∀ p ∈ params, Phrase dollar p) :
    HasRole dollar (a ++ functionHead name params) (.opens .function) := by
  have keyword : Shows dollar "function " [.function] := .fixed (by decide)
  have opening : Shows dollar "(" [] := .fixed (by decide)
  have head := (ha.append keyword).around hn.shows opening ⟨'(', rfl, by decide⟩
  have line := head.around (showsSetOff_list hp) shows_opening ⟨')', rfl, by decide⟩
  have text : a ++ functionHead name params = a ++ "function " ++ name ++ "(" ++
      String.intercalate ", " params ++ ") \x7b" := by
    simp [functionHead, String.append_assoc]
  rw [text]
  exact .of_shows line ((((leads.append _).append _).append _).append _) rfl

theorem draws_while {label : Nat} {test : Code} (ht : Phrase dollar test.text)
    (hb : Draws dollar (some label) outlines labels items) :
    Draws dollar current [.loop outlines] (label :: labels) [.whileLoop label test items] := by
  apply Draws.one
  intro depth
  refine .loop depth ?_ (hb (depth + 1)) hasRole_closing
  have head : Reads dollar ": while (" [mark ":", word "while", mark "("] :=
    reads_fixed (by decide)
  have tail := ht.shows.append shows_opening ⟨')', rfl, by decide⟩
  have line := hasRole_loop label (.inl rfl) (by decide) (by decide) head ⟨':', rfl, by decide⟩ tail
  simpa [String.append_assoc] using line

theorem draws_doWhile {label : Nat} {test : Code} (ht : Phrase dollar test.text)
    (hb : Draws dollar (some label) outlines labels items) :
    Draws dollar current [.loop outlines] (label :: labels) [.doWhile label items test] := by
  apply Draws.one
  intro depth
  refine .loop depth ?_ (hb (depth + 1)) ?_
  · have head : Reads dollar ": do " [mark ":", word "do"] :=
      reads_fixed (by decide)
    have tail : Shows dollar "\x7b" [.opening] := .fixed (by decide)
    have line := hasRole_loop label (.inr (.inl rfl)) (by decide) (by decide) head
      ⟨':', rfl, by decide⟩ tail
    simpa [String.append_assoc] using line
  · have head : Shows dollar "\x7d while (" [.closing, .while] :=
      .fixed (by decide)
    have tail : Shows dollar ");" [] := .fixed (by decide)
    exact .of_shows (head.around ht.shows tail ⟨')', rfl, by decide⟩)
      ⟨'\x7d', by simp, by decide⟩ rfl

/-- What a loop ranges over. -/
theorem showsSetOff_loopRange {header : LoopHeader} {iterable : Code}
    (hh : ∀ x ∈ header.names, IsName dollar x) (hi : Phrase dollar iterable.text) :
    ShowsSetOff dollar (loopRange (emittedHeader header) iterable) [] := by
  have items (h : Helper) : Phrase dollar (Code.helper h [iterable]).text := by
    apply Phrase.helper
    simp [textsOf, hi]
  have range : Shows dollar " of " [] := .fixed (by decide)
  cases header with
  | single name =>
      have isName := Phrase.name (hh name (by simp [LoopHeader.names]))
      exact (isName.shows.append range ⟨' ', rfl, by decide⟩).append_setOff (items .iterate).shows
  | keyed key value =>
      have pair : Phrase dollar ("[" ++ mangle key ++ ", " ++ mangle value ++ "]") :=
        phrase_entry (.name (hh key (by simp [LoopHeader.names])))
          (.name (hh value (by simp [LoopHeader.names])))
      have head := pair.shows.append range ⟨' ', rfl, by decide⟩
      have all := head.append_setOff (items .entries).shows
      simpa [loopRange, emittedHeader, String.append_assoc] using all

theorem draws_forOf {label : Nat} {header : LoopHeader} {iterable : Code}
    (hh : ∀ x ∈ header.names, IsName dollar x) (hi : Phrase dollar iterable.text)
    (hb : Draws dollar (some label) outlines labels items) :
    Draws dollar current [.loop outlines] (label :: labels)
      [.forOf label (emittedHeader header) iterable items] := by
  apply Draws.one
  intro depth
  refine .loop depth ?_ (hb (depth + 1)) hasRole_closing
  have head : Reads dollar ": for (" [mark ":", word "for", mark "("] :=
    reads_fixed (by decide)
  have tail := (showsSetOff_loopRange hh hi).append shows_opening ⟨')', rfl, by decide⟩
  have line := hasRole_loop label (.inr (.inr rfl)) (by decide) (by decide) head
    ⟨':', rfl, by decide⟩ tail
  simpa [String.append_assoc] using line

theorem draws_jump (keyword : Jump) (label : Nat) :
    Draws dollar (some label) [.jump keyword] [] [.jump keyword (some label)] :=
  .one fun depth => .jump depth (hasRole_jump keyword label)

theorem draws_cond {test : Code} {rest : Branch} (ht : Phrase dollar test.text)
    (hb : Draws dollar current outlines labels items)
    (hr : ∀ depth, Completes dollar current labels' outlines' (rest.lines depth)) :
    Draws dollar current (outlines ++ outlines') (labels ++ labels') [.cond test items rest] := by
  have condition : Shows dollar "if (" [] := .fixed (by decide)
  apply Draws.one
  intro depth
  exact .block depth (hasRole_head condition ⟨'i', rfl, by decide⟩ ht.shows rfl)
    (hb (depth + 1)) (hr depth)

theorem completes_otherwise (hb : Draws dollar current outlines labels items) (depth : Nat) :
    Completes dollar current labels outlines ((Branch.otherwise items).lines depth) := by
  have head : HasRole dollar "\x7d else \x7b" .reopens :=
    .fixed (by decide) ⟨'\x7d', rfl, by decide⟩
  have all := Completes.reopen depth head (hb (depth + 1)) (.close depth hasRole_closing)
  rwa [List.append_nil, List.append_nil] at all

theorem completes_elseIf {test : Code} {rest : Branch} (ht : Phrase dollar test.text)
    (hb : Draws dollar current outlines labels items)
    (hr : ∀ depth, Completes dollar current labels' outlines' (rest.lines depth)) (depth : Nat) :
    Completes dollar current (labels ++ labels') (outlines ++ outlines')
      ((Branch.elseIf test items rest).lines depth) := by
  have condition : Shows dollar "\x7d else if (" [.closing] := .fixed (by decide)
  exact .reopen depth (hasRole_head condition ⟨'\x7d', rfl, by decide⟩ ht.shows rfl)
    (hb (depth + 1)) (hr depth)

theorem draws_tryCatch {items' : List Item} {name : String} (hn : Phrase dollar name)
    (hb : Draws dollar current outlines labels items)
    (hh : Draws dollar current outlines' labels' items') :
    Draws dollar current (outlines ++ outlines') (labels ++ labels')
      [.tryCatch items name items'] := by
  have head : HasRole dollar "try \x7b" (.opens .block) :=
    .fixed (by decide) ⟨'t', rfl, by decide⟩
  have handler : HasRole dollar ("\x7d catch (" ++ caughtName ++ ") \x7b") .reopens :=
    .fixed (by decide) ⟨'\x7d', rfl, by decide⟩
  have value :
      Shows dollar (" = " ++ ((Code.helper .caught [.literal caughtName]).text ++ ";")) [] :=
    .fixed (by decide)
  have caught : HasRole dollar
      (name ++ " = " ++ (Code.helper .caught [.literal caughtName]).text ++ ";") .plain := by
    rw [String.append_assoc, String.append_assoc]
    exact .of_shows (hn.shows.append value ⟨' ', rfl, by decide⟩) (hn.leads.append _) rfl
  apply Draws.one
  intro depth
  have body := (Depicts.plain (depth + 1) caught).append (hh (depth + 1))
  have tail := Completes.reopen depth handler body (.close depth hasRole_closing)
  rw [List.nil_append, List.nil_append, List.append_nil, List.append_nil] at tail
  exact .block depth head (hb (depth + 1)) tail

theorem draws_function {name : String} {params : List String} (hn : Phrase dollar name)
    (hp : ∀ p ∈ params, Phrase dollar p) (hb : Draws dollar none outlines labels items) :
    Draws dollar current [.function outlines] labels [.function name params items] := by
  have head : HasRole dollar ("" ++ functionHead name params) (.opens .function) :=
    hasRole_function (.fixed (by decide)) ⟨'f', rfl, by decide⟩ hn hp
  rw [String.empty_append] at head
  exact .one fun depth => .function depth head (hb (depth + 1)) hasRole_closing

theorem draws_assignFunction {name : String} {params : List String} (hn : Phrase dollar name)
    (hp : ∀ p ∈ params, Phrase dollar p) (hb : Draws dollar none outlines labels items) :
    Draws dollar current [.function outlines] labels [.assignFunction name params items] := by
  have equals : Shows dollar " = " [] := .fixed (by decide)
  have head : HasRole dollar (name ++ " = " ++ functionHead name params) (.opens .function) := by
    refine hasRole_function (hn.shows.append equals ⟨' ', rfl, by decide⟩) ?_ hn hp
    rw [String.append_assoc]
    exact hn.leads.append _
  have close : HasRole dollar "\x7d;" .closes :=
    .fixed (by decide) ⟨'\x7d', rfl, by decide⟩
  exact .one fun depth => .function depth head (hb (depth + 1)) close

/-- An arm: its patterns, its body and the `break` that ends it. -/
theorem depicts_arm (hb : Draws dollar current outlines labels items) (depth : Nat) :
    ∀ patterns : List Code, (∀ t ∈ textsOf patterns, Phrase dollar t) →
      Depicts dollar current labels [.arm outlines]
        (patternLines depth patterns ++ (blockLines (depth + 1) items ++
          [⟨depth + 1, "break;"⟩, ⟨depth, "\x7d"⟩])) := by
  have leave : HasRole dollar "break;" .leave :=
    .fixed (by decide) ⟨'b', rfl, by decide⟩
  have arm {head : String} (hh : HasRole dollar head (.opens .arm)) :
      Depicts dollar current labels [.arm outlines] (⟨depth, head⟩ ::
        (blockLines (depth + 1) items ++ [⟨depth + 1, "break;"⟩, ⟨depth, "\x7d"⟩])) :=
    .arm depth hh (hb (depth + 1)) leave hasRole_closing
  have case_ : Shows dollar "case " [.case] := .fixed (by decide)
  have word : Leads "case " := ⟨'c', rfl, by decide⟩
  intro patterns hp
  induction patterns with
  | nil => exact arm (.fixed (by decide) ⟨'d', rfl, by decide⟩)
  | cons p rest ih =>
      have first := hp p.text List.mem_cons_self
      have later := ih fun t ht => hp t (List.mem_cons_of_mem _ ht)
      cases rest with
      | nil =>
          have opening : Shows dollar ": \x7b" [.colon, .opening] :=
            .fixed (by decide)
          exact arm (.of_shows (case_.around first.shows opening ⟨':', rfl, by decide⟩)
            ((word.append _).append _) rfl)
      | cons q rest =>
          have colon : Shows dollar ":" [.colon] := .fixed (by decide)
          have line : HasRole dollar ("case " ++ p.text ++ ":") .plain :=
            .of_shows (case_.around first.shows colon ⟨':', rfl, by decide⟩)
              ((word.append _).append _) rfl
          exact (Depicts.plain depth line).append later

theorem draws_switch {subject : Code} {cases : List Case} (hs : Phrase dollar subject.text)
    (hc : ∀ depth, Depicts dollar current labels outlines (armLines depth cases)) :
    Draws dollar current outlines labels [.switch subject cases] := by
  have word : Shows dollar "switch (" [] := .fixed (by decide)
  apply Draws.one
  intro depth
  have all := Depicts.block depth (hasRole_head word ⟨'s', rfl, by decide⟩ hs.shows rfl) (hc depth)
    (.close depth hasRole_closing)
  rwa [List.append_nil, List.append_nil] at all

/-! ## Programs -/

theorem Numbers.inBlock {functions others : Emission (List Item)}
    (hf : Numbers functions (Draws dollar current outlines))
    (ho : Numbers others (Draws dollar current outlines')) :
    Numbers (inBlock functions others) (Draws dollar current (outlines ++ outlines')) :=
  .bind hf fun _ _ hf => .map ho fun _ _ ho => hf.append ho

/-- The names of parameters are phrases. -/
theorem phrases_params {params : List String} (h : ∀ x ∈ params, IsName dollar x) :
    ∀ p ∈ params.map mangle, Phrase dollar p := by
  intro p hp
  obtain ⟨x, hx, rfl⟩ := List.mem_map.mp hp
  exact .name (h x hx)

mutual

theorem draws_emit (s : Setting) (place : Parser.Place) (current : Option Nat)
    (inside : place.inLoop = true → current.isSome = true) : ∀ stmt : Stmt,
    stmt.WellFormed dollar place → Numbers (emit s current stmt) (Draws dollar current stmt.outline)
  | .expr e, h => by
      rw [emit]
      exact .pure (.plain (fun _ => rfl) (hasRole_run (phrase_code e h)))
  | .cond test body rest, ⟨ht, hb, hr⟩ => by
      rw [emit]
      refine .bind (.inBlock (draws_emitFunctions s place current body hb)
        (draws_emitOthers s place current inside body hb)) fun labels items h => ?_
      refine .map (draws_emitBranch s place current inside rest hr) fun labels' branch hr => ?_
      exact draws_cond (phrase_code test ht) h hr
  | .whileLoop test body, ⟨ht, hb⟩ => by
      rw [emit]
      refine .newLabel fun label => .map (.inBlock (draws_emitFunctions s _ (some label) body hb)
        (draws_emitOthers s _ (some label) (fun _ => rfl) body hb)) fun labels items h => ?_
      exact draws_while (phrase_code test ht) h
  | .doWhile test body, ⟨ht, hb⟩ => by
      rw [emit]
      refine .newLabel fun label => .map (.inBlock (draws_emitFunctions s _ (some label) body hb)
        (draws_emitOthers s _ (some label) (fun _ => rfl) body hb)) fun labels items h => ?_
      exact draws_doWhile (phrase_code test ht) h
  | .forEach header iterable body, ⟨hh, hi, hb⟩ => by
      rw [emit]
      refine .newLabel fun label => .map (.inBlock (draws_emitFunctions s _ (some label) body hb)
        (draws_emitOthers s _ (some label) (fun _ => rfl) body hb)) fun labels items h => ?_
      exact draws_forOf hh (phrase_code iterable hi) h
  | .select subject arms, ⟨hs, ha⟩ => by
      rw [emit]
      refine .map (draws_emitArms s place current inside arms ha) fun labels cases h => ?_
      exact draws_switch (phrase_code subject hs) h
  | .func name params body, ⟨hn, hp, hb⟩ => by
      rw [emit]
      refine .map (draws_emitBody s s.implicitReturn ⟨true, false⟩ rfl body hb)
        fun labels items h => ?_
      exact draws_function (.name hn) (phrases_params hp) ((draws_prologue hp hb).append h)
  | .ret value, ⟨_, h⟩ => by
      have word : Shows dollar "return " [] := .fixed (by decide)
      rw [emit]
      exact .pure (.plain (fun _ => rfl)
        (hasRole_after word ⟨'r', rfl, by decide⟩ (phrase_code value h)))
  | .outer _, _ => by
      rw [emit]
      exact .pure .nil
  | .break, h => by
      obtain ⟨label, rfl⟩ := Option.isSome_iff_exists.mp (inside h)
      rw [emit]
      exact .pure (draws_jump .break label)
  | .continue, h => by
      obtain ⟨label, rfl⟩ := Option.isSome_iff_exists.mp (inside h)
      rw [emit]
      exact .pure (draws_jump .continue label)
  | .assert test line, h => by
      have place := Phrase.quote (lexesAs_quoted_text dollar (s.file ++ ":" ++ toString line))
      have check : Phrase dollar (Code.helper .assert [code test,
          .literal (Text.quoted (s.file ++ ":" ++ toString line))]).text := by
        apply Phrase.helper
        exact List.forall_mem_cons.mpr ⟨phrase_code test h, List.forall_mem_cons.mpr ⟨place, nofun⟩⟩
      rw [emit]
      exact .pure (.plain (fun _ => rfl) (hasRole_run check))
  | .throw value, h => by
      have word : Shows dollar "throw " [] := .fixed (by decide)
      rw [emit]
      exact .pure (.plain (fun _ => rfl)
        (hasRole_after word ⟨'t', rfl, by decide⟩ (phrase_code value h)))
  | .attempt body name handler, ⟨hb, hn, hh⟩ => by
      rw [emit]
      refine .bind (.inBlock (draws_emitFunctions s place current body hb)
        (draws_emitOthers s place current inside body hb)) fun labels items h => ?_
      refine .map (.inBlock (draws_emitFunctions s place current handler hh)
        (draws_emitOthers s place current inside handler hh)) fun labels' items' h' => ?_
      exact draws_tryCatch (.name hn) h h'

theorem draws_emitBranch (s : Setting) (place : Parser.Place) (current : Option Nat)
    (inside : place.inLoop = true → current.isSome = true) : ∀ rest : Alternative,
    rest.WellFormed dollar place → Numbers (emitBranch s current rest) fun labels branch =>
      ∀ depth, Completes dollar current labels rest.outline (branch.lines depth)
  | .none, _ => by
      rw [emitBranch]
      exact .pure fun depth => .close depth hasRole_closing
  | .otherwise body, hb => by
      rw [emitBranch]
      refine .map (.inBlock (draws_emitFunctions s place current body hb)
        (draws_emitOthers s place current inside body hb)) fun labels items h depth => ?_
      exact completes_otherwise h depth
  | .elif test body rest, ⟨ht, hb, hr⟩ => by
      rw [emitBranch]
      refine .bind (.inBlock (draws_emitFunctions s place current body hb)
        (draws_emitOthers s place current inside body hb)) fun labels items h => ?_
      refine .map (draws_emitBranch s place current inside rest hr)
        fun labels' branch hr depth => ?_
      exact completes_elseIf (phrase_code test ht) h hr depth

theorem draws_emitArms (s : Setting) (place : Parser.Place) (current : Option Nat)
    (inside : place.inLoop = true → current.isSome = true) : ∀ arms : List Arm,
    WellFormedArms dollar place arms → Numbers (emitArms s current arms) fun labels cases =>
      ∀ depth, Depicts dollar current labels (armOutlines arms) (armLines depth cases)
  | [], _ => by
      rw [emitArms]
      exact .pure fun _ => .nil
  | .mk patterns body :: rest, ⟨hp, hb, _, hr⟩ => by
      rw [emitArms]
      refine .bind (.inBlock (draws_emitFunctions s place current body hb)
        (draws_emitOthers s place current inside body hb)) fun labels items h => ?_
      refine .bind (draws_emitArms s place current inside rest hr)
        fun labels' cases hr => .pure fun depth => ?_
      have first := depicts_arm h depth (codes patterns) (phrase_codes patterns hp)
      rw [List.append_nil, armOutlines]
      simpa [armLines, List.append_assoc] using first.append (hr depth)

theorem draws_emitFunctions (s : Setting) (place : Parser.Place) (current : Option Nat) :
    ∀ body : List Stmt, WellFormedBlock dollar place body →
      Numbers (emitFunctions s body) (Draws dollar current (functionOutlines body))
  | [], _ => by
      rw [emitFunctions]
      exact .pure .nil
  | .func name params body :: rest, ⟨⟨hn, hp, hb⟩, hr⟩ => by
      rw [emitFunctions]
      refine .bind (draws_emitBody s s.implicitReturn ⟨true, false⟩ rfl body hb)
        fun labels items h => ?_
      refine .map (draws_emitFunctions s place current rest hr) fun labels' items' hr => ?_
      exact (draws_assignFunction (.name hn) (phrases_params hp)
        ((draws_prologue hp hb).append h)).append hr
  | .expr _ :: rest, ⟨_, hr⟩ | .cond .. :: rest, ⟨_, hr⟩ | .whileLoop .. :: rest, ⟨_, hr⟩
  | .doWhile .. :: rest, ⟨_, hr⟩ | .forEach .. :: rest, ⟨_, hr⟩ | .select .. :: rest, ⟨_, hr⟩
  | .ret _ :: rest, ⟨_, hr⟩ | .outer _ :: rest, ⟨_, hr⟩ | .break :: rest, ⟨_, hr⟩
  | .continue :: rest, ⟨_, hr⟩ | .assert .. :: rest, ⟨_, hr⟩ | .throw _ :: rest, ⟨_, hr⟩
  | .attempt .. :: rest, ⟨_, hr⟩ => by
      rw [emitFunctions, functionOutlines]
      exact draws_emitFunctions s place current rest hr
      all_goals exact fun _ _ _ h => Stmt.noConfusion h

theorem draws_emitOthers (s : Setting) (place : Parser.Place) (current : Option Nat)
    (inside : place.inLoop = true → current.isSome = true) : ∀ body : List Stmt,
    WellFormedBlock dollar place body →
      Numbers (emitOthers s current body) (Draws dollar current (otherOutlines body))
  | [], _ => by
      rw [emitOthers]
      exact .pure .nil
  | stmt :: rest, ⟨hs, hr⟩ => by
      rw [emitOthers, otherOutlines]
      cases hf : stmt.isFunction with
      | true =>
          refine .bind (.pure (P := Draws dollar current []) .nil) fun labels items h => ?_
          refine .map (draws_emitOthers s place current inside rest hr)
            fun labels' items' hr => ?_
          exact h.append hr
      | false =>
          refine .bind (draws_emit s place current inside stmt hs) fun labels items h => ?_
          refine .map (draws_emitOthers s place current inside rest hr)
            fun labels' items' hr => ?_
          exact h.append hr

theorem draws_emitBody (s : Setting) (returns : Bool) (place : Parser.Place)
    (outside : place.inLoop = false) : ∀ body : List Stmt, WellFormedBlock dollar place body →
      Numbers (emitBody s returns body) (Draws dollar none (bodyOutline body))
  | [], _ => by
      rw [emitBody]
      exact .pure .nil
  | stmt :: rest, ⟨hs, hr⟩ => by
      by_cases last : ∃ e, stmt = .expr e ∧ rest = []
      · obtain ⟨e, rfl, rfl⟩ := last
        have phrase := phrase_code e hs
        have word : Shows dollar "return " [] := .fixed (by decide)
        rw [emitBody]
        refine .pure ?_
        cases returns with
        | true => exact .plain (fun _ => rfl) (hasRole_after word ⟨'r', rfl, by decide⟩ phrase)
        | false => exact .plain (fun _ => rfl) (hasRole_run phrase)
      · have nowhere : place.inLoop = true → (none : Option Nat).isSome = true := by
          rw [outside]
          exact nofun
        rw [emitBody_cons last]
        refine .bind (draws_emit s place none nowhere stmt hs) fun labels items h => ?_
        refine .map (draws_emitBody s returns place outside rest hr)
          fun labels' items' hr => ?_
        exact h.append hr

end

/-- The text that is emitted for a well-formed program is read with its outline. -/
theorem readOutline_generate {o : Options} {program : List Stmt} (file : String)
    (h : WellFormed o.dollarIdentifiers program) :
    readOutline (lex o.dollarIdentifiers (generate o file program)) =
      some (bodyOutline program,
        (List.range' 1 (loopsIn (bodyOutline program))).map labelName) := by
  obtain ⟨n, -, body⟩ := draws_emitBody ⟨file, o.implicitReturn⟩ false {} rfl program h 0
  have start : Draws o.dollarIdentifiers none [] [] (prologue [] program) := draws_prologue nofun h
  have read := readOutline_render ((start.append body) 0)
  have count := length_labels_of_readOutline read
  rw [List.nil_append, List.nil_append, List.length_map, List.length_range'] at count
  rw [← count]
  exact read

end Target

/-- The text that is emitted for a program has the outline of the program: the loops,
functions and arms are nested in the same way, with the same jumps inside of them, and each
jump names the innermost loop around it. The loops are labelled in the order in which they
are written. -/
theorem emitted_jumps {o : Options} {source : String} {program : List Stmt}
    (h : parse o source = .ok program) (file : String) :
    Target.readOutline (lex o.dollarIdentifiers (generate o file program)) =
      some (bodyOutline program,
        (List.range' 1 (loopsIn (bodyOutline program))).map Target.labelName) := by
  obtain ⟨start, rest, hc, hr⟩ := exists_run_of_parse h
  exact Target.readOutline_generate file
    (Parser.Yields.program _ start (genuine_cursor hc) _ _ hr).1

/-- A loop whose arm leaves it, around a loop and a function with a loop of its own. -/
def nestedJumps : List Stmt :=
  [.whileLoop (.ident "a")
    [.select (.ident "b") [.mk [.number "1"] [.break]],
      .doWhile (.ident "c")
        [.func "f" [] [.whileLoop (.ident "d") [.continue]], .continue],
      .break]]

theorem emitted_jumps_nestedJumps :
    parse {} ("while a\n case b\n | 1\n  break\n end\n dowhile c\n" ++
        "  fn f()\n   while d\n    continue\n   end\n  end\n  continue\n end\n break\nend\n") =
          .ok nestedJumps ∧
      Target.readOutline (lex false (generate {} "a" nestedJumps)) =
        some ([.loop [.arm [.jump .break],
            .loop [.function [.loop [.jump .continue]], .jump .continue], .jump .break]],
          ["_loop1", "_loop2", "_loop3"]) := by
  refine (and_iff_left_of_imp fun h => emitted_jumps h "a").mpr ?_
  cbv

end ScriptLang
