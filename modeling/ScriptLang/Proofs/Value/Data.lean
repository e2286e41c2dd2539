import ScriptLang.Proofs.Value.Nesting
import ScriptLang.Value.Text

/-!
# Data

Values that are built from null, truth values, finite numbers and strings by putting
them into lists and into maps with plain keys, without cycles. No container of such a
value stands inside itself, so it nests no deeper than there are containers, and its
text and its equality with other values are those of its parts.
-/

namespace ScriptLang

/-- Values without parts that equal themselves. -/
inductive IsPlain : Value → Prop where
  | null : IsPlain .null
  | bool (b : Bool) : IsPlain (.bool b)
  | num {x : Float} (finite : x.isFinite = true) : IsPlain (.num x)
  | str (text : String) : IsPlain (.str text)

/-- Values without functions, cycles and numbers that are not finite. Maps have plain
keys, no two of them equal. -/
inductive IsData (h : Heap) : Value → Prop where
  | plain {v : Value} : IsPlain v → IsData h v
  | list {id : Nat} {items : Array Value} : h.lists[id]? = some items →
      (∀ v ∈ items.toList, IsData h v) → IsData h (.list id)
  | map {id : Nat} {entries : List (Value × Value)} : h.maps[id]? = some entries →
      (∀ entry ∈ entries, IsPlain entry.1) →
      entries.Pairwise (fun a b => a.1.strictEq b.1 = false) →
      (∀ entry ∈ entries, IsData h entry.2) → IsData h (.map id)

namespace Heap

variable {h : Heap}

/-- Containers of the value nest at most so deep. -/
inductive Within (h : Heap) : Nat → Value → Prop where
  | plain {depth : Nat} {v : Value} : IsPlain v → Within h depth v
  | list {depth id : Nat} {items : Array Value} : h.lists[id]? = some items →
      (∀ v ∈ items.toList, Within h depth v) → Within h (depth + 1) (.list id)
  | map {depth id : Nat} {entries : List (Value × Value)} : h.maps[id]? = some entries →
      (∀ entry ∈ entries, IsPlain entry.1) →
      (∀ entry ∈ entries, Within h depth entry.2) → Within h (depth + 1) (.map id)

end Heap

open Heap

variable {h : Heap} {v : Value}

theorem IsPlain.isContainer (hv : IsPlain v) : v.isContainer = false := by
  cases hv <;> rfl

/-- Data has no cycles. -/
theorem IsData.isAcyclic (hv : IsData h v) : IsAcyclic h v := by
  induction hv with
  | plain plain => exact .scalar plain.isContainer
  | list at_ _ ih => exact .list at_ ih
  | map at_ _ apart _ ih => exact .map at_ apart ih

/-- Data nests no deeper than there are containers. -/
theorem IsData.within (hv : IsData h v) : h.Within h.size v := by
  refine hv.isAcyclic.of_depth (P := fun depth v => IsData h v → h.Within depth v) ?_ ?_ ?_ hv
  · intro depth v scalar data
    cases data with
    | plain plain => exact .plain plain
    | list | map => cases scalar
  · intro depth id items at_ within data
    cases data with
    | plain plain => cases plain
    | list at' data =>
        obtain rfl := Option.some.inj (at_.symm.trans at')
        exact .list at_ fun w hw => within w hw (data w hw)
  · intro depth id entries at_ _ within data
    cases data with
    | plain plain => cases plain
    | map at' plain _ data =>
        obtain rfl := Option.some.inj (at_.symm.trans at')
        exact .map at_ plain fun entry hentry => within entry hentry (data entry hentry)

namespace Heap

/-! ## Text -/

theorem nestedTextWithin_plain (plain : IsPlain v) (depth deeper : Nat) :
    h.nestedTextWithin depth v = h.nestedTextWithin deeper v := by
  cases plain <;> simp [nestedTextWithin]

/-- The text of a value is complete where it is cut off no earlier than the value nests. -/
theorem nestedTextWithin_eq {depth deeper : Nat} (hv : h.Within depth v) (le : depth ≤ deeper) :
    h.nestedTextWithin deeper v = h.nestedTextWithin depth v := by
  induction hv generalizing deeper with
  | plain plain => exact nestedTextWithin_plain plain _ _
  | list at_ _ ih =>
      obtain ⟨deeper, rfl⟩ : ∃ d, deeper = d + 1 := ⟨deeper - 1, by omega⟩
      rw [nestedTextWithin, nestedTextWithin, items_eq at_]
      congr 3
      exact List.map_congr_left fun w hw => ih w hw (by omega)
  | @map depth id entries at_ plain _ ih =>
      obtain ⟨deeper, rfl⟩ : ∃ d, deeper = d + 1 := ⟨deeper - 1, by omega⟩
      rw [nestedTextWithin, nestedTextWithin, entries_eq at_]
      congr 3
      refine List.map_congr_left fun entry hentry => ?_
      simp only
      rw [nestedTextWithin_plain (plain entry hentry) deeper depth, ih entry hentry (by omega)]

/-- One level of cutting off less makes no difference to data. -/
theorem nestedTextWithin_size (hv : IsData h v) : h.nestedTextWithin h.size v = h.nestedText v :=
  (nestedTextWithin_eq hv.within (Nat.le_succ _)).symm

/-- The text of a list of data is the texts of its items. -/
theorem nestedText_list {id : Nat} {items : Array Value} (at_ : h.lists[id]? = some items)
    (data : ∀ v ∈ items.toList, IsData h v) :
    h.nestedText (.list id) =
      "[" ++ String.intercalate ", " (items.toList.map h.nestedText) ++ "]" := by
  have texts : items.toList.map (h.nestedTextWithin h.size) = items.toList.map h.nestedText :=
    List.map_congr_left fun w hw => nestedTextWithin_size (data w hw)
  rw [nestedText, nestedTextWithin, items_eq at_, texts]

/-- The text of a map of data is the texts of its keys and values. -/
theorem nestedText_map {id : Nat} {entries : List (Value × Value)}
    (at_ : h.maps[id]? = some entries) (plain : ∀ entry ∈ entries, IsPlain entry.1)
    (data : ∀ entry ∈ entries, IsData h entry.2) :
    h.nestedText (.map id) =
      "\x7b" ++ String.intercalate ", " (entries.map fun entry =>
        h.nestedText entry.1 ++ ": " ++ h.nestedText entry.2) ++ "\x7d" := by
  rw [nestedText, nestedTextWithin, entries_eq at_]
  congr 3
  refine List.map_congr_left fun entry hentry => ?_
  simp only
  rw [nestedTextWithin_size (.plain (plain entry hentry)),
    nestedTextWithin_size (data entry hentry)]

/-! ## Equality -/

/-- Following contents deeper finds no difference where none was found before. -/
theorem deepEqWithin_succ {depth : Nat} {v w : Value} (same : h.deepEqWithin depth v w = true) :
    h.deepEqWithin (depth + 1) v w = true := by
  induction depth generalizing v w with
  | zero =>
      unfold deepEqWithin at same ⊢
      rw [same, Bool.true_or]
  | succ depth ih =>
      unfold deepEqWithin at same ⊢
      rw [Bool.or_eq_true] at same ⊢
      refine same.imp_right fun contents => ?_
      split at contents
      next i j =>
        simp only [Bool.and_eq_true, List.all_eq_true] at contents ⊢
        exact ⟨contents.1, fun p hp => ih (contents.2 p hp)⟩
      next i j =>
        simp only [Bool.and_eq_true, List.all_eq_true] at contents ⊢
        refine ⟨contents.1, fun p hp => ?_⟩
        have found := contents.2 p hp
        split at found
        next value entry => exact ih found
        next => exact found
      next => exact contents

theorem deepEqWithin_mono {depth deeper : Nat} {v w : Value}
    (same : h.deepEqWithin depth v w = true) (le : depth ≤ deeper) :
    h.deepEqWithin deeper v w = true := by
  induction le with
  | refl => exact same
  | step _ ih => exact deepEqWithin_succ ih

end Heap

end ScriptLang
