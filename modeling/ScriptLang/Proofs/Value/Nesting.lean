import Mathlib.Data.Finset.Card
import Mathlib.Data.Finset.Image
import Mathlib.Logic.Relation
import ScriptLang.Value.Equality

/-!
# How deep values nest

A value without cycles stands in no container that stands in it. On the way down from such
a value no container is met twice, so it nests no deeper than there are containers. What
follows contents to a depth has followed them all, if the depth is the number of the
containers: `IsAcyclic.of_depth` goes from the parts of a container, followed to a depth, to
the container, followed one level deeper, and from there to every value without cycles.
-/

namespace ScriptLang

namespace Value

/-- Lists and maps, whose contents are in the heap. -/
def isContainer : Value → Bool
  | list _ | map _ => true
  | _ => false

end Value

/-- Values without cycles in which no two keys of a map are equal. Keys are compared by
identity, so it does not matter what stands in them. -/
inductive IsAcyclic (h : Heap) : Value → Prop where
  | scalar {v : Value} : v.isContainer = false → IsAcyclic h v
  | list {id : Nat} {items : Array Value} : h.lists[id]? = some items →
      (∀ v ∈ items.toList, IsAcyclic h v) → IsAcyclic h (.list id)
  | map {id : Nat} {entries : List (Value × Value)} : h.maps[id]? = some entries →
      entries.Pairwise (fun a b => a.1.strictEq b.1 = false) →
      (∀ entry ∈ entries, IsAcyclic h entry.2) → IsAcyclic h (.map id)

namespace Heap

variable {h : Heap}

theorem items_eq {id : Nat} {items : Array Value} (at_ : h.lists[id]? = some items) :
    h.items id = items := by
  simp [Heap.items, Array.getD_eq_getD_getElem?, at_]

theorem entries_eq {id : Nat} {entries : List (Value × Value)}
    (at_ : h.maps[id]? = some entries) : h.entries id = entries := by
  simp [Heap.entries, Array.getD_eq_getD_getElem?, at_]

/-- The value stands in the container. -/
inductive Holds (h : Heap) : Value → Value → Prop where
  | item {id : Nat} {items : Array Value} {v : Value} : h.lists[id]? = some items →
      v ∈ items.toList → Holds h (.list id) v
  | entry {id : Nat} {entries : List (Value × Value)} {entry : Value × Value} :
      h.maps[id]? = some entries → entry ∈ entries → Holds h (.map id) entry.2

/-- The value stands in the container, or in one that stands in it. -/
def Above (h : Heap) : Value → Value → Prop := Relation.TransGen h.Holds

/-- The containers of a heap. -/
def containers (h : Heap) : Finset Value :=
  (Finset.range h.lists.size).image .list ∪ (Finset.range h.maps.size).image .map

theorem card_containers_le (h : Heap) : h.containers.card ≤ h.size := by
  refine le_trans (Finset.card_union_le _ _) (Nat.add_le_add ?_ ?_)
  · exact Finset.card_image_le.trans (Finset.card_range _).le
  · exact Finset.card_image_le.trans (Finset.card_range _).le

theorem list_mem_containers {id : Nat} {items : Array Value} (at_ : h.lists[id]? = some items) :
    .list id ∈ h.containers := by
  obtain ⟨lt, -⟩ := Array.getElem?_eq_some_iff.mp at_
  exact Finset.mem_union_left _ (Finset.mem_image_of_mem _ (Finset.mem_range.mpr lt))

theorem map_mem_containers {id : Nat} {entries : List (Value × Value)}
    (at_ : h.maps[id]? = some entries) : .map id ∈ h.containers := by
  obtain ⟨lt, -⟩ := Array.getElem?_eq_some_iff.mp at_
  exact Finset.mem_union_right _ (Finset.mem_image_of_mem _ (Finset.mem_range.mpr lt))

end Heap

open Heap

variable {h : Heap} {v : Value}

/-- A value without cycles does not stand in itself. -/
theorem IsAcyclic.not_above (hv : IsAcyclic h v) : ¬h.Above v v := by
  have acc : Acc (Function.swap h.Holds) v := by
    induction hv with
    | scalar scalar =>
        refine ⟨_, fun w held => ?_⟩
        cases held <;> cases scalar
    | list at_ _ ih =>
        refine ⟨_, fun w held => ?_⟩
        cases held with
        | item at' mem =>
            obtain rfl := Option.some.inj (at_.symm.trans at')
            exact ih w mem
    | map at_ _ _ ih =>
        refine ⟨_, fun w held => ?_⟩
        cases held with
        | entry at' mem =>
            obtain rfl := Option.some.inj (at_.symm.trans at')
            exact ih _ mem
  have irreflexive {w : Value} (acc : Acc (Relation.TransGen (Function.swap h.Holds)) w) :
      ¬Relation.TransGen (Function.swap h.Holds) w w := by
    induction acc with
    | intro w _ ih => exact fun itself => ih w itself itself
  exact fun itself => irreflexive acc.transGen (Relation.transGen_swap.mpr itself)

/-- One more container around leaves one less. -/
theorem exists_depth {around : Finset Value} {u : Value} (new : u ∉ around)
    (inside : insert u around ⊆ h.containers) : ∃ depth,
      h.size - around.card = depth + 1 ∧ h.size - (insert u around).card = depth := by
  have room := (Finset.card_le_card inside).trans h.card_containers_le
  rw [Finset.card_insert_of_notMem new] at room ⊢
  exact ⟨h.size - (around.card + 1), by omega, rfl⟩

theorem above_insert {around : Finset Value} {u w : Value} (held : h.Holds u w)
    (above : ∀ t ∈ around, h.Above t u) : ∀ t ∈ insert u around, h.Above t w := by
  intro t ht
  rcases Finset.mem_insert.mp ht with rfl | ht
  · exact .single held
  · exact (above t ht).tail held

section

variable {P : Nat → Value → Prop}
  (scalar : ∀ depth v, v.isContainer = false → P depth v)
  (list : ∀ depth id items, h.lists[id]? = some items → (∀ v ∈ items.toList, P depth v) →
    P (depth + 1) (.list id))
  (map : ∀ depth id entries, h.maps[id]? = some entries →
    entries.Pairwise (fun a b => a.1.strictEq b.1 = false) → (∀ entry ∈ entries, P depth entry.2) →
    P (depth + 1) (.map id))

include scalar list map

/-- Below as many different containers as there are around it, what goes from parts to
containers holds of a value to the depth of the further containers. -/
theorem IsAcyclic.of_depth_above (hv : IsAcyclic h v) (around : Finset Value)
    (mem : around ⊆ h.containers) (above : ∀ u ∈ around, h.Above u v) :
    P (h.size - around.card) v := by
  induction hv generalizing around with
  | scalar plain => exact scalar _ _ plain
  | list at_ parts ih =>
      have new := fun old => (IsAcyclic.list at_ parts).not_above (above _ old)
      have inside := Finset.insert_subset (list_mem_containers at_) mem
      obtain ⟨depth, here, below⟩ := exists_depth new inside
      rw [here]
      refine list _ _ _ at_ fun w hw => ?_
      rw [← below]
      exact ih w hw _ inside (above_insert (.item at_ hw) above)
  | map at_ apart parts ih =>
      have new := fun old => (IsAcyclic.map at_ apart parts).not_above (above _ old)
      have inside := Finset.insert_subset (map_mem_containers at_) mem
      obtain ⟨depth, here, below⟩ := exists_depth new inside
      rw [here]
      refine map _ _ _ at_ apart fun entry hentry => ?_
      rw [← below]
      exact ih entry hentry _ inside (above_insert (.entry at_ hentry) above)

/-- What goes from parts to containers, one level deeper, holds of a value without cycles to
the depth of all containers. -/
theorem IsAcyclic.of_depth (hv : IsAcyclic h v) : P h.size v := by
  simpa using hv.of_depth_above scalar list map ∅ (Finset.empty_subset _) (by simp)

end

end ScriptLang
