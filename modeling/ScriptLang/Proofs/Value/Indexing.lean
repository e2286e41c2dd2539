import ScriptLang.Machine.Step
import ScriptLang.Proofs.Number.Whole
import ScriptLang.Proofs.Value.Copy

/-!
# Indices of lists and strings

A list and a string are sequences: of items, and of characters. An item is read by its
index, a whole number from zero, and what is no index of an item reads as null, whatever it
is. The views of a sequence agree: what is read by an index is what a loop visits in that
place, under a key that equals the index, and there are as many as the length says.

A list is written by an index too, and at its end it grows by one item. Nothing else can be
written, and then nothing is.
-/

namespace ScriptLang

/-- The value is the number `i`. -/
def Value.IsIndex (key : Value) (i : Nat) : Prop :=
  ∃ x, key = .num x ∧ Number.rational? x = some (i : ℚ)

namespace Heap

/-- The items of a list and the characters of a string. -/
inductive IsSequence (h : Heap) : Value → List Value → Prop where
  | list {id : Nat} {items : Array Value} : h.lists[id]? = some items →
      IsSequence h (.list id) items.toList
  | str (text : String) : IsSequence h (.str text) (text.toList.map ofChar)

end Heap

open Heap

variable {h h' : Heap} {v key value : Value} {items : List Value} {i j n id : Nat}

/-! ## Indices -/

theorem Value.IsIndex.unique (hi : key.IsIndex i) (hj : key.IsIndex j) : i = j := by
  obtain ⟨x, rfl, number⟩ := hi
  obtain ⟨y, same, number'⟩ := hj
  cases same
  exact_mod_cast Option.some.inj (number.symm.trans number')

/-- The indices of a sequence are the numbers below its length. -/
theorem Value.index?_eq_some_iff : key.index? n = some i ↔ key.IsIndex i ∧ i < n := by
  cases key with
  | num x =>
      have whole : Number.integer? x = some (.ofNat i) ↔ Value.IsIndex (.num x) i := by
        rw [Number.integer?_eq_some_iff]
        refine ⟨fun number => ⟨x, rfl, number⟩, ?_⟩
        rintro ⟨y, same, number⟩
        cases same
        exact number
      rw [← whole, Value.index?]
      split
      next k number =>
        rw [number]
        split <;> simp <;> omega
      next other =>
        refine iff_of_false (by simp) ?_
        rintro ⟨number, -⟩
        exact other i number
  | _ =>
      refine iff_of_false (by simp [Value.index?]) ?_
      rintro ⟨⟨x, same, -⟩, -⟩
      cases same

/-- The key that a loop over a sequence gives to an item equals the index of the item. -/
theorem Value.IsIndex.strictEq (hi : key.IsIndex i) :
    (Value.num (Float.ofNat i)).strictEq key = true := by
  obtain ⟨x, rfl, number⟩ := hi
  exact Number.ofNat_beq number

/-- The numbers below two to the fifty-third are indices. -/
theorem isIndex_ofNat (lt : i < 2 ^ 53) : (Value.num (Float.ofNat i)).IsIndex i :=
  ⟨_, rfl, Number.rational?_ofNat lt⟩

/-! ## Reading -/

namespace Heap.IsSequence

theorem visited (seq : h.IsSequence v items) : h.visited v = .ok items := by
  cases seq with
  | list at_ => rw [Heap.visited, items_eq at_]
  | str text => rfl

theorem visitedEntries (seq : h.IsSequence v items) :
    h.visitedEntries v = .ok (items.zipIdx.map fun (item, i) => (.num (Float.ofNat i), item)) := by
  have all := seq.visited
  cases seq with
  | list | str =>
      simp only [Heap.visitedEntries, all]
      rfl

theorem length (seq : h.IsSequence v items) : h.length v = .ok items.length := by
  cases seq with
  | list at_ => rw [Heap.length, items_eq at_, Array.length_toList]
  | str text => rw [Heap.length, List.length_map, String.length_toList]

theorem get (seq : h.IsSequence v items) (key : Value) :
    h.get v key = .ok (((key.index? items.length).bind (items[·]?)).getD .null) := by
  cases seq with
  | list at_ => simp [Heap.get, items_eq at_]
  | str text => simp [Heap.get, Option.map_bind]

/-- What is read by an index is in that place. -/
theorem get_of_isIndex (seq : h.IsSequence v items) (hi : key.IsIndex i) :
    h.get v key = .ok (items[i]?.getD .null) := by
  rw [seq.get]
  by_cases lt : i < items.length
  · rw [Value.index?_eq_some_iff.mpr ⟨hi, lt⟩]
    rfl
  · have none : key.index? items.length = none := by
      refine Option.eq_none_iff_forall_ne_some.mpr fun j found => ?_
      obtain ⟨hj, lt'⟩ := Value.index?_eq_some_iff.mp found
      exact lt (hi.unique hj ▸ lt')
    rw [none, List.getElem?_eq_none (Nat.le_of_not_lt lt)]
    rfl

/-- What is no index of an item reads as null. -/
theorem get_eq_null (seq : h.IsSequence v items) (out : ∀ i, key.IsIndex i → items.length ≤ i) :
    h.get v key = .ok .null := by
  have none : key.index? items.length = none := by
    refine Option.eq_none_iff_forall_ne_some.mpr fun i found => ?_
    obtain ⟨hi, lt⟩ := Value.index?_eq_some_iff.mp found
    exact Nat.not_le_of_lt lt (out i hi)
  rw [seq.get, none]
  rfl

end Heap.IsSequence

/-- All views of a sequence are those of its items. -/
structure Heap.ReadsItems (h : Heap) (v : Value) (items : List Value) : Prop where
  visited : h.visited v = .ok items
  length : h.length v = .ok items.length
  entries : ∃ entries, h.visitedEntries v = .ok entries ∧ entries.length = items.length ∧
    ∀ key i, key.IsIndex i → i < items.length →
      ∃ k item, entries[i]? = some (k, item) ∧ k.strictEq key = true ∧
        items[i]? = some item ∧ h.get v key = .ok item
  get_eq_null : ∀ key, (∀ i, key.IsIndex i → items.length ≤ i) → h.get v key = .ok .null
  /-- What is taken for an index is one of an item. -/
  inRange : ∀ (key : Value) (i : Nat), key.index? items.length = some i → i < items.length

theorem Heap.IsSequence.readsItems (seq : h.IsSequence v items) : h.ReadsItems v items where
  visited := seq.visited
  length := seq.length
  entries := by
    refine ⟨_, seq.visitedEntries, by simp, fun key i hi lt => ?_⟩
    refine ⟨.num (Float.ofNat i), items[i], ?_, hi.strictEq, List.getElem?_eq_getElem lt, ?_⟩
    · rw [List.getElem?_map, List.getElem?_zipIdx, List.getElem?_eq_getElem lt]
      simp
    · rw [seq.get_of_isIndex hi, List.getElem?_eq_getElem lt]
      rfl
  get_eq_null _ out := seq.get_eq_null out
  inRange _ _ found := (Value.index?_eq_some_iff.mp found).2

/-! ## Writing -/

/-- The items with another one in a place, which may be the one behind the last. -/
def replaced (items : List Value) (i : Nat) (value : Value) : List Value :=
  items.take i ++ value :: items.drop (i + 1)

theorem toList_setItem {items : Array Value} (le : i ≤ items.size) :
    (setItem i value items).toList = replaced items.toList i value := by
  unfold setItem replaced
  split
  next lt =>
    rw [Array.toList_setIfInBounds, List.set_eq_take_append_cons_drop, if_pos (by simpa using lt)]
  next not =>
    obtain rfl : i = items.size := by omega
    rw [Array.toList_push, List.take_of_length_le (by simp), List.drop_of_length_le (by simp)]

theorem getElem?_replaced (le : i ≤ items.length) (j : Nat) :
    (replaced items i value)[j]? = if j = i then some value else items[j]? := by
  have size : (items.take i).length = i := by rw [List.length_take, min_eq_left le]
  rcases Nat.lt_trichotomy j i with lt | rfl | gt
  · rw [replaced, List.getElem?_append_left (by omega), List.getElem?_take_of_lt lt,
      if_neg (by omega)]
  · rw [replaced, List.getElem?_append_right size.le, size, Nat.sub_self, if_pos rfl]
    rfl
  · obtain ⟨k, rfl⟩ : ∃ k, j = i + k + 1 := ⟨j - i - 1, by omega⟩
    rw [replaced, List.getElem?_append_right (by omega), size, if_neg (by omega),
      show i + k + 1 - i = k + 1 by omega, List.getElem?_cons_succ, List.getElem?_drop]
    congr 1
    omega

theorem length_replaced (le : i ≤ items.length) :
    (replaced items i value).length = max items.length (i + 1) := by
  simp only [replaced, List.length_append, List.length_take, List.length_cons, List.length_drop]
  omega

/-- The value is set in the place `i` of the list: there it is read, everything else reads
as before, and the list is long enough for it. -/
structure Heap.SetsItem (id i : Nat) (value : Value) (h h' : Heap) : Prop where
  get : ∀ key, key.IsIndex i → h'.get (.list id) key = .ok value
  get_other : ∀ key, ¬key.IsIndex i → h'.get (.list id) key = h.get (.list id) key
  length : ∃ n, h.length (.list id) = .ok n ∧ h'.length (.list id) = .ok (max n (i + 1))
  visited : ∃ items, h.visited (.list id) = .ok items ∧
    h'.visited (.list id) = .ok (replaced items i value)
  lists : ∀ other, other ≠ id → h'.lists[other]? = h.lists[other]?
  maps : h'.maps = h.maps
  closures : h'.closures = h.closures

/-- To set an item of a list is to do so in a place of the list, the end included, or to
fail and leave everything as it is. -/
structure Heap.SetsOrFails (h : Heap) (id : Nat) (key value : Value) (n : Nat) : Prop where
  succeeds_iff : (∃ h', h.set (.list id) key value = .ok h') ↔ ∃ i ≤ n, key.IsIndex i
  sets : ∀ h', h.set (.list id) key value = .ok h' →
    (∃ i ≤ n, key.IsIndex i ∧ h.SetsItem id i value h') ∧
    ∀ s : State, s.heap = h →
      s.store (.list id) key value = { s with control := .value value, heap := h' }
  fails : ∀ e, h.set (.list id) key value = .error e →
    e = .misuse .assignPastEnd "list" ∧
    ∀ s : State, s.heap = h →
      s.store (.list id) key value = { s with control := .raise (.error e) }

section

variable {items : Array Value}

theorem Heap.setsItem_write (at_ : h.lists[id]? = some items) (le : i ≤ items.size)
    (value : Value) : SetsItem id i value h (h.write (.item id i) value) := by
  have before : h.IsSequence (.list id) items.toList := .list at_
  have after : (h.write (.item id i) value).IsSequence (.list id)
      (replaced items.toList i value) := by
    rw [← toList_setItem le]
    refine .list ?_
    rw [write, Array.getElem?_modify, if_pos rfl, at_]
    rfl
  refine ⟨fun key hi => ?_, fun key other => ?_, ?_, ⟨_, before.visited, after.visited⟩,
    fun other ne => ?_, rfl, rfl⟩
  · rw [after.get_of_isIndex hi, getElem?_replaced (by simpa using le), if_pos rfl]
    rfl
  · by_cases index : ∃ j, key.IsIndex j
    · obtain ⟨j, hj⟩ := index
      have ne : j ≠ i := fun same => other (same ▸ hj)
      rw [after.get_of_isIndex hj, before.get_of_isIndex hj,
        getElem?_replaced (by simpa using le), if_neg ne]
    · have none := not_exists.mp index
      rw [after.get_eq_null fun j hj => absurd hj (none j),
        before.get_eq_null fun j hj => absurd hj (none j)]
  · refine ⟨_, before.length, ?_⟩
    rw [after.length, length_replaced (by simpa using le)]
  · rw [write, Array.getElem?_modify, if_neg ne.symm]

theorem Heap.setsOrFails (at_ : h.lists[id]? = some items) (key value : Value) :
    h.SetsOrFails id key value items.size := by
  cases found : key.index? (items.size + 1) with
  | some i =>
      obtain ⟨hi, lt⟩ := Value.index?_eq_some_iff.mp found
      have place : h.place (.list id) key = .ok (.item id i) := by
        simp only [Heap.place, items_eq at_, found]
      have set : h.set (.list id) key value = .ok (h.write (.item id i) value) := by
        rw [Heap.set, place]
        rfl
      have le := Nat.le_of_lt_succ lt
      refine ⟨iff_of_true ⟨_, set⟩ ⟨i, le, hi⟩, fun h' done => ?_, fun e failed => ?_⟩
      · rw [set] at done
        cases done
        refine ⟨⟨i, le, hi, setsItem_write at_ le value⟩, ?_⟩
        rintro s rfl
        rw [State.store, place]
      · rw [set] at failed
        cases failed
  | none =>
      have place : h.place (.list id) key = .error (.misuse .assignPastEnd "list") := by
        simp only [Heap.place, items_eq at_, found]
        rfl
      have set : h.set (.list id) key value = .error (.misuse .assignPastEnd "list") := by
        rw [Heap.set, place]
        rfl
      refine ⟨iff_of_false ?_ ?_, fun h' done => ?_, fun e failed => ?_⟩
      · rintro ⟨h', done⟩
        rw [set] at done
        cases done
      · rintro ⟨i, le, hi⟩
        have index := Value.index?_eq_some_iff.mpr ⟨hi, Nat.lt_succ_of_le le⟩
        rw [found] at index
        cases index
      · rw [set] at done
        cases done
      · rw [set] at failed
        cases failed
        refine ⟨rfl, ?_⟩
        rintro s rfl
        rw [State.store, place]
        rfl

end

/-- Indexing is total: a list is set at an index up to its length, and at nothing else, and
the items of a list and the characters of a string are read at the indices below their
number, the same ones that loops visit, and null at everything else. -/
theorem indexing_total (h : Heap) :
    (∀ id items key value, h.lists[id]? = some items →
      h.SetsOrFails id key value items.size) ∧
      ∀ v items, h.IsSequence v items → h.ReadsItems v items :=
  ⟨fun _ _ key value at_ => Heap.setsOrFails at_ key value, fun _ _ seq => seq.readsItems⟩

end ScriptLang
