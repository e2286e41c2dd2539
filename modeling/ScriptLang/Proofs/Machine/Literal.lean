import Mathlib.Logic.Relation
import ScriptLang.Machine.Step
import ScriptLang.Proofs.Value.Copy

/-!
# Evaluating literals

`Evaluates r h e P` says that wherever everything in the heap is still there, a run
that evaluates the expression ends with a value as described. It changes nothing but
the heap, which it only extends. There is one rule for each kind of literal; the
items of a list and the entries of a map are evaluated one after the other, and what
has been found so far stays as it was found while the heap grows.
-/

namespace ScriptLang

open Heap

namespace State

/-- The run gets from one state to another. -/
def Reaches (r : Run) : State → State → Prop :=
  Relation.ReflTransGen fun s t => s.step r = some t

variable {r : Run} {s t : State} {h h' : Heap} {e : Expr}

theorem reaches_next (going : s.isOver = false) : Reaches r s (s.next r) :=
  .single (by simp [step, going])

/-- What was awaited is used. -/
theorem reaches_resume (r : Run) (s : State) (p : Pending) (w : Value) :
    Reaches r { s with control := .value w, pending := p :: s.pending }
      (resume r { s with control := .value w } w p) :=
  reaches_next rfl

end State

open State

/-- Wherever everything in the heap is still there, evaluating the expression ends with
a value as described. -/
def Evaluates (r : Run) (h : Heap) (e : Expr) (P : Heap → Value → Prop) : Prop :=
  ∀ s : State, h.Extends s.heap → ∃ h' w, P h' w ∧ s.heap.Extends h' ∧
    Reaches r (s.goto (.eval e)) { s with control := .value w, heap := h' }

namespace Evaluates

variable {r : Run} {h : Heap} {e : Expr} {P Q : Heap → Value → Prop} {v : Value}

theorem mono (he : Evaluates r h e P) (weaken : ∀ h' w, P h' w → Q h' w) :
    Evaluates r h e Q := by
  intro s le
  obtain ⟨h', w, hw, grown, run⟩ := he s le
  exact ⟨h', w, weaken h' w hw, grown, run⟩

/-- An expression whose value is at hand. -/
theorem of_give (given : ∀ s : State, s.eval e = s.give v) (hv : ∀ h', h.Extends h' → P h' v) :
    Evaluates r h e P := by
  intro s le
  refine ⟨s.heap, v, hv s.heap le, .refl _, ?_⟩
  have step : Reaches r (s.goto (.eval e)) ((s.goto (.eval e)).eval e) := reaches_next rfl
  rwa [given] at step

/-- Evaluating for the sake of pending work. -/
theorem await (he : Evaluates r h e P) {s : State} (le : h.Extends s.heap) (p : Pending) :
    ∃ h' w, P h' w ∧ s.heap.Extends h' ∧
      Reaches r (s.await p e) (resume r { s with control := .value w, heap := h' } w p) := by
  obtain ⟨h', w, hw, grown, run⟩ := he { s with pending := p :: s.pending } le
  exact ⟨h', w, hw, grown, run.trans (reaches_resume r { s with heap := h' } p w)⟩

theorem unary (op : UnaryOp) (he : Evaluates r h e fun h' w => P h' (Value.unary op w)) :
    Evaluates r h (.unary op e) P := by
  intro s le
  obtain ⟨h', w, hw, grown, run⟩ := he.await (s := s) le (.unary op)
  exact ⟨h', _, hw, grown, (reaches_next (s := s.goto (.eval (.unary op e))) rfl).trans run⟩

end Evaluates

/-- Evaluating the expression makes a copy of the value. -/
def EvaluatesCopy (r : Run) (h : Heap) (depth : Nat) (e : Expr) (v : Value) : Prop :=
  Evaluates r h e fun h' w => Copies h' depth v w

/-- Evaluating the expressions makes a copy of the entry. -/
def EvaluatesEntry (r : Run) (h : Heap) (depth : Nat) (e : Expr × Expr)
    (entry : Value × Value) : Prop :=
  Evaluates r h e.1 (fun _ w => SamePlain entry.1 w) ∧ EvaluatesCopy r h depth e.2 entry.2

variable {r : Run} {h : Heap} {depth id : Nat}

/-! ## Plain values -/

/-- A word that stands for a value. -/
theorem evaluates_constant {name : String} {v : Value} (hc : constant? name = some v)
    (hv : IsPlain v) (same : v.strictEq v = true) :
    Evaluates r h (.ident name) fun _ w => SamePlain v w :=
  .of_give (fun s => by simp only [eval, hc]) fun _ _ => ⟨hv, hv, same, fun _ => rfl⟩

theorem evaluates_str {literal text : String} (read : unquote literal = text) :
    Evaluates r h (.str literal) fun _ w => SamePlain (.str text) w :=
  .of_give (fun s => congrArg (fun text => s.give (.str text)) read) fun _ _ =>
    ⟨.str text, .str text, by simp [Value.strictEq], fun _ => rfl⟩

/-- A number as written. -/
theorem evaluates_literal {digits : String} {y : Float}
    (read : Number.literal? digits.toList = some y) :
    Evaluates r h (.number digits) fun _ w => w = .num y :=
  .of_give (fun s => by simp only [eval, read]) fun _ _ => rfl

theorem evaluates_number {digits : String} {x y : Float} (hx : x.isFinite = true)
    (read : Number.literal? digits.toList = some y) (same : (x == y) = true)
    (text : Number.text y = Number.text x) :
    Evaluates r h (.number digits) fun _ w => SamePlain (.num x) w := by
  refine (evaluates_literal read).mono ?_
  rintro h' _ rfl
  exact ⟨.num hx, .num (Number.isFinite_of_beq hx same), same, fun h => by
    simp [nestedText, nestedTextWithin, text]⟩

/-- A number below zero is the negation of a literal. -/
theorem evaluates_negative {digits : String} {x y : Float} (hx : x.isFinite = true)
    (read : Number.literal? digits.toList = some y) (negated : -y = x) :
    Evaluates r h (.unary .neg (.number digits)) fun _ w => SamePlain (.num x) w := by
  refine .unary .neg ((evaluates_literal read).mono ?_)
  rintro h' _ rfl
  have value : Value.unary .neg (.num y) = .num x := congrArg Value.num negated
  rw [value]
  exact ⟨.num hx, .num hx, Number.beq_self hx, fun _ => rfl⟩

/-! ## Lists -/

/-- One item is evaluated, while the copies that have been found stay. -/
theorem reaches_item {s : State} {rest : List Expr} {done found : List Value} {e : Expr}
    {v : Value} (le : h.Extends s.heap) (written : EvaluatesCopy r h depth e v)
    (copied : List.Forall₂ (Copies s.heap depth) done found.reverse) :
    ∃ h' w, List.Forall₂ (Copies h' depth) (done ++ [v]) (w :: found).reverse ∧
      s.heap.Extends h' ∧
      Reaches r (s.await (.listItem found rest) e)
        (resume r { s with control := .value w, heap := h' } w (.listItem found rest)) := by
  obtain ⟨h', w, copy, grown, run⟩ := written.await le (.listItem found rest)
  refine ⟨h', w, ?_, grown, run⟩
  rw [List.reverse_cons]
  exact List.rel_append (copied.imp fun _ _ old => old.grow grown) (.cons copy .nil)

/-- The rest of the items is evaluated one after the other. -/
theorem reaches_items {s : State} {es : List Expr} {done vs found : List Value} {e : Expr}
    {v : Value} (le : h.Extends s.heap)
    (written : List.Forall₂ (EvaluatesCopy r h depth) (e :: es) (v :: vs))
    (copied : List.Forall₂ (Copies s.heap depth) done found.reverse) :
    ∃ h' ws, List.Forall₂ (Copies h' depth) (done ++ v :: vs) ws ∧ s.heap.Extends h' ∧
      Reaches r (s.await (.listItem found es) e)
        ({ s with heap := h' }.produce (.list ws.toArray)) := by
  induction es generalizing s done vs found e v with
  | nil =>
      obtain ⟨here, rest⟩ := List.forall₂_cons.mp written
      obtain rfl := List.forall₂_nil_left_iff.mp rest
      obtain ⟨h', w, copies, grown, run⟩ := reaches_item le here copied
      exact ⟨h', (w :: found).reverse, copies, grown, run⟩
  | cons e' es ih =>
      obtain ⟨here, rest⟩ := List.forall₂_cons.mp written
      obtain ⟨v', vs, next, later, rfl⟩ := List.forall₂_cons_left_iff.mp rest
      obtain ⟨h', w, copied', grown, run⟩ := reaches_item le here copied
      obtain ⟨h'', ws, copies, grown', run'⟩ :=
        ih (s := { s with control := .value w, heap := h' }) (le.trans grown)
          (.cons next later) copied'
      exact ⟨h'', ws, by simpa using copies, grown.trans grown', run.trans run'⟩

/-- A list of expressions that make copies makes a copy of a list. -/
theorem EvaluatesCopy.list {items : Array Value} {es : List Expr}
    (at_ : h.lists[id]? = some items)
    (copies : List.Forall₂ (EvaluatesCopy r h depth) es items.toList) :
    EvaluatesCopy r h (depth + 1) (.list es) (.list id) := by
  intro s le
  have made {s : State} {ws : List Value} (le : h.Extends s.heap)
      (copied : List.Forall₂ (Copies s.heap depth) items.toList ws) :
      Copies (s.heap.addList ws.toArray) (depth + 1) (.list id) s.heap.nextList := by
    have grown := Extends.addList s.heap ws.toArray
    refine .list (grown.lists (le.lists at_)) ?_ (copied.imp fun _ _ copy => copy.grow grown)
    simp [addList]
  have first :
      Reaches r (s.goto (.eval (.list es))) ((s.goto (.eval (.list es))).eval (.list es)) :=
    reaches_next rfl
  cases es with
  | nil =>
      have none := List.forall₂_nil_left_iff.mp copies
      exact ⟨_, _, made le (by rw [none]; exact .nil), .addList _ _, first⟩
  | cons e es =>
      obtain ⟨v, vs, item, rest, all⟩ := List.forall₂_cons_left_iff.mp copies
      have none : List.Forall₂ (Copies s.heap depth) [] [].reverse := .nil
      obtain ⟨h', ws, copied, grown, run⟩ := reaches_items le (.cons item rest) none
      rw [List.nil_append, ← all] at copied
      exact ⟨_, _, made (s := { s with heap := h' }) (le.trans grown) copied,
        grown.trans (.addList _ _), first.trans run⟩

/-! ## Maps -/

/-- One entry is evaluated, its key first. A key that is none of those before puts the
entry at the end, while the copies that have been found stay. -/
theorem reaches_entry {s : State} {rest : List (Expr × Expr)}
    {done found : List (Value × Value)} {key value : Expr} {entry : Value × Value}
    (le : h.Extends s.heap) (written : EvaluatesEntry r h depth (key, value) entry)
    (apart : (done ++ [entry]).Pairwise (fun a b => a.1.strictEq b.1 = false))
    (copied : List.Forall₂ (CopiesEntry s.heap depth) done found) :
    ∃ h' k w, List.Forall₂ (CopiesEntry h' depth) (done ++ [entry]) (setEntry k w found) ∧
      s.heap.Extends h' ∧
      Reaches r (s.await (.mapKey found value rest) key)
        (resume r { s with control := .value w, heap := h' } w (.mapValue found k rest)) := by
  obtain ⟨keyWritten, valueWritten⟩ := written
  obtain ⟨h₁, k, same, grown₁, run₁⟩ := keyWritten.await le (.mapKey found value rest)
  obtain ⟨h₂, w, copy, grown₂, run₂⟩ :=
    valueWritten.await (s := { s with control := .value k, heap := h₁ }) (le.trans grown₁)
      (.mapValue found k rest)
  have grown : s.heap.Extends h₂ := grown₁.trans grown₂
  have all : List.Forall₂ (CopiesEntry h₂ depth) (done ++ [entry]) (found ++ [(k, w)]) :=
    List.rel_append (copied.imp fun _ _ old => old.grow grown) (.cons ⟨same, copy⟩ .nil)
  have new : ∀ old ∈ found, old.1.strictEq k = false := fun old hold =>
    (List.pairwise_append.mp (keys_apart apart all)).2.2 old hold (k, w) List.mem_cons_self
  refine ⟨h₂, k, w, ?_, grown, run₁.trans run₂⟩
  rw [setEntry_of_new new]
  exact all

/-- The rest of the entries is evaluated one after the other. -/
theorem reaches_entries {s : State} {es : List (Expr × Expr)}
    {done entries found : List (Value × Value)} {key value : Expr} {entry : Value × Value}
    (le : h.Extends s.heap)
    (written : List.Forall₂ (EvaluatesEntry r h depth) ((key, value) :: es) (entry :: entries))
    (apart : (done ++ entry :: entries).Pairwise (fun a b => a.1.strictEq b.1 = false))
    (copied : List.Forall₂ (CopiesEntry s.heap depth) done found) :
    ∃ h' made, List.Forall₂ (CopiesEntry h' depth) (done ++ entry :: entries) made ∧
      s.heap.Extends h' ∧
      Reaches r (s.await (.mapKey found value es) key)
        ({ s with heap := h' }.produceMap made) := by
  have front {done entries : List (Value × Value)} {entry : Value × Value} :
      List.Sublist (done ++ [entry]) (done ++ entry :: entries) :=
    (List.cons_sublist_cons.mpr (List.nil_sublist entries)).append_left done
  induction es generalizing s done entries found key value entry with
  | nil =>
      obtain ⟨here, rest⟩ := List.forall₂_cons.mp written
      obtain rfl := List.forall₂_nil_left_iff.mp rest
      obtain ⟨h', k, w, copies, grown, run⟩ := reaches_entry le here (apart.sublist front) copied
      exact ⟨h', setEntry k w found, copies, grown, run⟩
  | cons e' es ih =>
      obtain ⟨here, rest⟩ := List.forall₂_cons.mp written
      obtain ⟨entry', entries, next, later, rfl⟩ := List.forall₂_cons_left_iff.mp rest
      obtain ⟨h', k, w, copied', grown, run⟩ := reaches_entry le here (apart.sublist front) copied
      rw [List.append_cons] at apart ⊢
      obtain ⟨h'', made, copies, grown', run'⟩ :=
        ih (s := { s with control := .value w, heap := h' }) (le.trans grown)
          (.cons next later) apart copied'
      exact ⟨h'', made, copies, grown.trans grown', run.trans run'⟩

/-- Entries of expressions that make copies make a copy of a map. -/
theorem EvaluatesCopy.map {entries : List (Value × Value)} {es : List (Expr × Expr)}
    (at_ : h.maps[id]? = some entries)
    (apart : entries.Pairwise (fun a b => a.1.strictEq b.1 = false))
    (copies : List.Forall₂ (EvaluatesEntry r h depth) es entries) :
    EvaluatesCopy r h (depth + 1) (.map es) (.map id) := by
  intro s le
  have made {s : State} {found : List (Value × Value)} (le : h.Extends s.heap)
      (copied : List.Forall₂ (CopiesEntry s.heap depth) entries found) :
      Copies (s.heap.addMap found) (depth + 1) (.map id) s.heap.nextMap := by
    have grown := Extends.addMap s.heap found
    refine .map (grown.maps (le.maps at_)) ?_ apart (copied.imp fun _ _ copy => copy.grow grown)
    simp [addMap]
  have first : Reaches r (s.goto (.eval (.map es))) ((s.goto (.eval (.map es))).eval (.map es)) :=
    reaches_next rfl
  cases es with
  | nil =>
      obtain rfl := List.forall₂_nil_left_iff.mp copies
      exact ⟨_, _, made le .nil, .addMap _ _, first⟩
  | cons e es =>
      obtain ⟨entry, rest, here, later, rfl⟩ := List.forall₂_cons_left_iff.mp copies
      have none : List.Forall₂ (CopiesEntry s.heap depth) [] [] := .nil
      obtain ⟨h', found, copied, grown, run⟩ :=
        reaches_entries le (.cons here later) apart none
      exact ⟨_, _, made (s := { s with heap := h' }) (le.trans grown) copied,
        grown.trans (.addMap _ _), first.trans run⟩

end ScriptLang
