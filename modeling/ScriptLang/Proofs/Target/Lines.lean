import ScriptLang.Proofs.Target.Reading
import ScriptLang.Proofs.Token.Spaced

/-!
# Emitted lines

Every line of emitted text has a role, which its fixed parts decide, since the
expressions and names in it have no landmarks. Reading the lines one after the other
then comes down to their roles: `Depicts` says which outline lines are read as wherever
they stand inside of a loop, with one rule for each way of putting lines together, and
`readOutline_render` goes from the lines to the text.
-/

namespace ScriptLang.Target

open Lexer Piece

variable {dollar : Bool} {text : String} {r : Role} {ms : List Landmark}

/-- Whatever follows, the text is read as a line with this role. -/
structure HasRole (dollar : Bool) (text : String) (r : Role) : Prop where
  reads : ∃ ps, Reads dollar text ps ∧ role? ps = some r
  leads : Leads text

namespace HasRole

theorem fixed (h : ∀ dollar, (fixedPieces dollar text.length text.toList).bind role? = some r)
    (leads : Leads text) : HasRole dollar text r where
  reads := by
    obtain ⟨ps, fixed, role⟩ := Option.bind_eq_some_iff.mp (h dollar)
    exact ⟨ps, fun _ _ hq => lexesTo_fixedPieces fixed hq, role⟩
  leads := leads

/-- Most roles are settled by the landmarks alone. -/
theorem of_shows (h : Shows dollar text ms) (leads : Leads text) (hr : roleOf? ms = some r) :
    HasRole dollar text r where
  reads := by
    obtain ⟨ps, reads, rfl⟩ := h
    exact ⟨ps, reads, role?_of_roleOf? hr⟩
  leads := leads

end HasRole

/-! ## Lines of the emission -/

theorem landmark?_labelName (label : Nat) : landmark? (word (labelName label)) = none := by
  have letters : ∀ m ∈ landmarks, m.1.2.toList.head? ≠ some '_' := by decide
  refine List.lookup_eq_none_iff.mpr fun m hm => bne_iff_ne.mpr fun same => ?_
  apply letters m hm
  rw [← same]
  simp [word, labelName]

theorem reads_labelName (label : Nat) :
    ReadsSetOff dollar (labelName label) [word (labelName label)] :=
  fun _ _ hs hq =>
    .piece (p := word (labelName label)) (lexesBefore_of_setOff rfl (lexesAs_labelName label) hs) hq

theorem leads_labelName (label : Nat) : Leads (labelName label) :=
  ⟨'_', by simp [labelName], by decide⟩

/-- The header of a loop: its label, the keyword behind a colon, and the rest. -/
theorem hasRole_loop (label : Nat) {keyword : Piece} {head tail : String} {m : Landmark}
    {ps : List Piece} (hm : m = .while ∨ m = .do ∨ m = .for) (hk : landmark? keyword = some m)
    (hp : ps.filterMap landmark? = []) (hh : Reads dollar head (mark ":" :: keyword :: ps))
    (sep : BeginsSetOff head) (ht : Shows dollar tail [.opening]) :
    HasRole dollar (labelName label ++ head ++ tail) (.opens (.loop (labelName label))) where
  reads := by
    obtain ⟨qs, hq, hqm⟩ := ht
    refine ⟨_, ((reads_labelName label).append hh sep).append hq, ?_⟩
    have colon : landmark? (mark ":") = some .colon := by decide
    have loop : loop? (word (labelName label) :: mark ":" :: keyword :: (ps ++ qs)) =
        some (.opens (.loop (labelName label))) := by
      rw [word, loop?, if_pos ⟨colon, by rw [hk]; rfl⟩]
    have landmarks : (word (labelName label) :: mark ":" :: keyword :: (ps ++ qs)).filterMap
        landmark? = [.colon, m, .opening] := by
      simp [landmark?_labelName, colon, hk, hp, hqm]
    show role? (word (labelName label) :: mark ":" :: keyword :: (ps ++ qs)) = _
    simp only [role?, landmarks]
    rcases hm with rfl | rfl | rfl <;> exact loop
  leads := by
    rw [String.append_assoc]
    exact (leads_labelName label).append _

/-- A jump out of a loop. -/
theorem hasRole_jump (keyword : Jump) (label : Nat) :
    HasRole dollar (keyword.keyword ++ " " ++ labelName label ++ ";")
      (.jump keyword (labelName label)) where
  reads := by
    have first : Reads dollar (keyword.keyword ++ " ") [word keyword.keyword] := by
      apply reads_fixed
      cases keyword <;> decide
    have last : Reads dollar ";" [mark ";"] := reads_fixed (by decide)
    refine ⟨_, (first.append_setOff (reads_labelName label)).append last ⟨';', rfl, by decide⟩, ?_⟩
    have landmarks : [word keyword.keyword, word (labelName label), mark ";"].filterMap landmark? =
        [.jump keyword] := by
      have kw : landmark? (word keyword.keyword) = some (.jump keyword) := by
        cases keyword <;> decide
      have semicolon : landmark? (mark ";") = none := by decide
      simp [kw, landmark?_labelName, semicolon]
    show role? [word keyword.keyword, word (labelName label), mark ";"] = _
    simp only [role?, landmarks]
    exact if_pos ⟨rfl, rfl⟩
  leads := by
    rw [String.append_assoc, String.append_assoc]
    apply Leads.append
    cases keyword with
    | «break» => exact ⟨'b', rfl, by decide⟩
    | «continue» => exact ⟨'c', rfl, by decide⟩

/-! ## Outlines of lines -/

/-- The roles of the lines, one by one. -/
def HaveRoles (dollar : Bool) (lines : List Line) (roles : List Role) : Prop :=
  List.Forall₂ (fun l r => HasRole dollar l.text r) lines roles

/-- The lines are read with some outlines inside of the loop `current`, whatever stands around
them, and the loops in them have these labels. -/
def Depicts (dollar : Bool) (current : Option Nat) (labels : List Nat) (outlines : List Outline)
    (lines : List Line) : Prop :=
  ∃ roles, HaveRoles dollar lines roles ∧
    roles.filterMap Role.label? = labels.map labelName ∧
    ∀ rest items opened, Opened.innermost? opened = current.map labelName →
      readRoles (roles ++ rest) items opened = readRoles rest (items ++ outlines) opened

/-- The lines go on with a block that is open until they close it. -/
def Completes (dollar : Bool) (current : Option Nat) (labels : List Nat) (outlines : List Outline)
    (lines : List Line) : Prop :=
  ∃ roles, HaveRoles dollar lines roles ∧
    roles.filterMap Role.label? = labels.map labelName ∧
    ∀ rest items before opened, Opened.innermost? opened = current.map labelName →
      readRoles (roles ++ rest) items ((.block, before) :: opened) =
        readRoles rest (before ++ items ++ outlines) opened

variable {current : Option Nat} {labels labels' : List Nat} {outlines outlines' : List Outline}
  {lines lines' : List Line} {head last : String} (depth : Nat)

namespace Depicts

theorem nil : Depicts dollar current [] [] [] := by
  refine ⟨[], .nil, rfl, ?_⟩
  intro rest items opened _
  rw [List.append_nil, List.nil_append]

theorem append (h : Depicts dollar current labels outlines lines)
    (h' : Depicts dollar current labels' outlines' lines') :
    Depicts dollar current (labels ++ labels') (outlines ++ outlines') (lines ++ lines') := by
  obtain ⟨roles, lined, labelled, reads⟩ := h
  obtain ⟨roles', lined', labelled', reads'⟩ := h'
  refine ⟨roles ++ roles', List.rel_append lined lined', ?_, ?_⟩
  · rw [List.filterMap_append, labelled, labelled', List.map_append]
  · intro rest items opened inside
    rw [List.append_assoc, reads _ _ _ inside, reads' _ _ _ inside, List.append_assoc]

theorem plain (h : HasRole dollar text .plain) :
    Depicts dollar current [] [] [⟨depth, text⟩] := by
  refine ⟨[.plain], .cons h .nil, rfl, ?_⟩
  intro rest items opened _
  rw [List.append_nil]
  rfl

theorem jump {keyword : Jump} {label : Nat}
    (h : HasRole dollar text (.jump keyword (labelName label))) :
    Depicts dollar (some label) [] [.jump keyword] [⟨depth, text⟩] := by
  refine ⟨[.jump keyword (labelName label)], .cons h .nil, rfl, ?_⟩
  intro rest items opened inside
  exact if_pos inside

/-- A block, up to where its last part is closed. -/
theorem block (opens : HasRole dollar head (.opens .block))
    (body : Depicts dollar current labels outlines lines)
    (tail : Completes dollar current labels' outlines' lines') :
    Depicts dollar current (labels ++ labels') (outlines ++ outlines')
      (⟨depth, head⟩ :: (lines ++ lines')) := by
  obtain ⟨roles, lined, labelled, reads⟩ := body
  obtain ⟨roles', lined', labelled', reads'⟩ := tail
  refine ⟨.opens .block :: (roles ++ roles'), .cons opens (List.rel_append lined lined'), ?_, ?_⟩
  · rw [List.map_append, ← labelled, ← labelled', ← List.filterMap_append]
    rfl
  · intro rest items opened inside
    have inner : Opened.innermost? ((.block, items) :: opened) = current.map labelName := inside
    rw [List.cons_append, readRoles, List.append_assoc, reads _ _ _ inner, reads' _ _ _ _ inside]
    simp

/-- A loop or a function, around its body. -/
theorem enclose {opener : Opener} {inner : Option Nat} {closed : List Outline}
    (opens : HasRole dollar head (.opens opener))
    (body : Depicts dollar inner labels outlines lines)
    (closes : HasRole dollar last .closes) (before : List Nat)
    (innermost : ∀ items opened, Opened.innermost? ((opener, items) :: opened) =
      inner.map labelName)
    (label : (Role.opens opener).label?.toList = before.map labelName)
    (closing : opener.close? outlines = some closed) :
    Depicts dollar current (before ++ labels) closed
      (⟨depth, head⟩ :: (lines ++ [⟨depth, last⟩])) := by
  obtain ⟨roles, lined, labelled, reads⟩ := body
  refine ⟨.opens opener :: (roles ++ [.closes]),
    .cons opens (List.rel_append lined (.cons closes .nil)), ?_, ?_⟩
  · have unlabelled : Role.closes.label? = none := rfl
    rw [List.map_append, ← label, ← labelled]
    cases hl : (Role.opens opener).label? <;> simp [hl, unlabelled]
  · intro rest items opened _
    rw [List.cons_append, readRoles, List.append_assoc, reads _ _ _ (innermost items opened)]
    simp [readRoles, closing]

theorem loop {label : Nat} (opens : HasRole dollar head (.opens (.loop (labelName label))))
    (body : Depicts dollar (some label) labels outlines lines)
    (closes : HasRole dollar last .closes) :
    Depicts dollar current (label :: labels) [.loop outlines]
      (⟨depth, head⟩ :: (lines ++ [⟨depth, last⟩])) :=
  .enclose depth opens body closes [label] (fun _ _ => rfl) rfl rfl

theorem function (opens : HasRole dollar head (.opens .function))
    (body : Depicts dollar none labels outlines lines)
    (closes : HasRole dollar last .closes) :
    Depicts dollar current labels [.function outlines]
      (⟨depth, head⟩ :: (lines ++ [⟨depth, last⟩])) :=
  .enclose depth opens body closes [] (fun _ _ => rfl) rfl rfl

/-- An arm, with the `break` at its end. -/
theorem arm {jump : String} (opens : HasRole dollar head (.opens .arm))
    (body : Depicts dollar current labels outlines lines)
    (leaves : HasRole dollar jump .leave) (closes : HasRole dollar last .closes) :
    Depicts dollar current labels [.arm outlines]
      (⟨depth, head⟩ :: (lines ++ [⟨depth + 1, jump⟩, ⟨depth, last⟩])) := by
  obtain ⟨roles, lined, labelled, reads⟩ := body
  refine ⟨.opens .arm :: (roles ++ [.leave, .closes]),
    .cons opens (List.rel_append lined (.cons leaves (.cons closes .nil))), ?_, ?_⟩
  · rw [List.filterMap_cons_none rfl, List.filterMap_append, labelled]
    exact List.append_nil _
  · intro rest items opened inside
    have inner : Opened.innermost? ((.arm, items) :: opened) = current.map labelName := inside
    rw [List.cons_append, readRoles, List.append_assoc, reads _ _ _ inner]
    rfl

end Depicts

namespace Completes

theorem close (h : HasRole dollar text .closes) :
    Completes dollar current [] [] [⟨depth, text⟩] := by
  refine ⟨[.closes], .cons h .nil, rfl, ?_⟩
  intro rest items before opened _
  rw [List.append_nil]
  rfl

/-- Another part of the block. -/
theorem reopen (reopens : HasRole dollar head .reopens)
    (body : Depicts dollar current labels outlines lines)
    (tail : Completes dollar current labels' outlines' lines') :
    Completes dollar current (labels ++ labels') (outlines ++ outlines')
      (⟨depth, head⟩ :: (lines ++ lines')) := by
  obtain ⟨roles, lined, labelled, reads⟩ := body
  obtain ⟨roles', lined', labelled', reads'⟩ := tail
  refine ⟨.reopens :: (roles ++ roles'), .cons reopens (List.rel_append lined lined'), ?_, ?_⟩
  · rw [List.map_append, ← labelled, ← labelled', ← List.filterMap_append]
    rfl
  · intro rest items before opened inside
    have inner : Opened.innermost? ((.block, before ++ items) :: opened) = current.map labelName :=
      inside
    rw [List.cons_append, readRoles, List.append_assoc, reads _ _ _ inner, reads' _ _ _ _ inside]
    simp

end Completes

/-! ## The text -/

/-- The characters of some lines. -/
def textOf (lines : List Line) : List Char := (String.join (lines.map Line.render)).toList

theorem Leads.beginsOther {text : String} (h : Leads text) (s : List Char) :
    BeginsOther (text.toList ++ s) := by
  obtain ⟨c, hc, blank, feed, comment, -⟩ := h
  obtain ⟨rest, ht⟩ := List.head?_eq_some_iff.mp hc
  rw [ht]
  rintro _ ⟨⟩
  exact ⟨blank, by simp [feed, comment]⟩

/-- Lines that are each read as pieces of some kind, whatever follows, are read so together. -/
theorem exists_pieces {α : Type} {kind : List Piece → α → Prop} {xs : List α}
    (h : List.Forall₂ (fun l x => (∃ ps, Reads dollar l.text ps ∧ kind ps x) ∧ Leads l.text)
      lines xs) :
    ∃ pss n s, List.Forall₂ kind pss xs ∧
      textOf lines = List.replicate n ' ' ++ s ∧ BeginsOther s ∧
        LexesTo dollar s (pss.flatMap fun ps => ps ++ [.lineBreak]) := by
  induction h with
  | nil => exact ⟨[], 0, [], .nil, rfl, nofun, .nil⟩
  | @cons l x lines xs h _ ih =>
      obtain ⟨pss, n, s, hr, ht, first, lexes⟩ := ih
      obtain ⟨⟨ps, reads, kind⟩, leads⟩ := h
      have text : textOf (l :: lines) =
          List.replicate (4 * l.depth) ' ' ++ (l.text.toList ++ '\n' :: textOf lines) := by
        simp [textOf, Line.render, String.join_cons]
      refine ⟨ps :: pss, 4 * l.depth, _, .cons kind hr, text, leads.beginsOther _, ?_⟩
      have read := reads _ _ (lexes.lineBreak_blanks n first)
      rw [ht, List.flatMap_cons, List.append_assoc]
      exact read

theorem lineBreak_not_mem {ps : List Piece} (h : role? ps = some r) : Piece.lineBreak ∉ ps := by
  intro hm
  have found : Landmark.lineBreak ∈ ps.filterMap landmark? :=
    List.mem_filterMap.mpr ⟨_, hm, by decide⟩
  unfold role? at h
  split at h
  case h_5 =>
    unfold roleOf? at h
    split at h
    case h_10 => cases h
    all_goals
      rename_i hl
      rw [hl] at found
      simp at found
  all_goals
    rename_i hl
    rw [hl] at found
    simp at found

/-- The text of lines is read with the roles of the lines. -/
theorem rolesOf_textOf {roles : List Role} (h : HaveRoles dollar lines roles) :
    (lex dollar (String.join (lines.map Line.render))).fault = none ∧
      rolesOf (lex dollar (String.join (lines.map Line.render))).tokens =
        some (roles ++ [.plain]) := by
  obtain ⟨pss, n, s, hr, ht, -, lexes⟩ :=
    exists_pieces (h.imp fun _ _ h => ⟨h.reads, h.leads⟩)
  have whole := lexes.blanks n
  rw [← ht] at whole
  obtain ⟨tokens, fault⟩ := whole 1
  refine ⟨fault, ?_⟩
  have pieces : (lex dollar (String.join (lines.map Line.render))).tokens.map Token.piece =
      pss.flatMap (fun ps => ps ++ [.lineBreak]) ++ [.eof] := tokens
  rw [rolesOf, pieces]
  clear pieces whole tokens lexes ht h
  induction hr with
  | nil => rfl
  | @cons ps r pss roles role hr ih =>
      rw [List.flatMap_cons, List.append_assoc, List.append_assoc, List.singleton_append,
        List.splitOn_append_cons_self_of_not_mem (lineBreak_not_mem role), List.mapM_cons, role,
        ih]
      rfl

/-- The text of lines is read with the outlines and labels of the lines. -/
theorem readOutline_render (h : Depicts dollar none labels outlines lines) :
    readOutline (lex dollar (String.join (lines.map Line.render))) =
      some (outlines, labels.map labelName) := by
  obtain ⟨roles, lined, labelled, reads⟩ := h
  obtain ⟨fault, read⟩ := rolesOf_textOf lined
  have outline : readRoles (roles ++ [Role.plain]) [] [] = some outlines :=
    reads [.plain] [] [] rfl
  have labels : (roles ++ [Role.plain]).filterMap Role.label? = labels.map labelName := by
    rw [List.filterMap_append, labelled]
    exact List.append_nil _
  rw [readOutline, fault, read]
  dsimp only
  rw [outline, labels]
  rfl

end ScriptLang.Target
