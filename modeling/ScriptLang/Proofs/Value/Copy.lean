import Mathlib.Data.List.Forall2
import ScriptLang.Proofs.Number.ReadBack
import ScriptLang.Proofs.Value.Data
import ScriptLang.Value.Container

/-!
# Copies of data

A heap grows without losing anything, and what is data keeps its text and its equality
with other data while it does. A copy of a value is data that equals it both ways and
has the same text; lists and maps of copies are copies, entries in the same order.
-/

namespace ScriptLang

namespace Heap

/-! ## Growing heaps -/

/-- Everything in the heap is still there. -/
structure Extends (h h' : Heap) : Prop where
  lists : ∀ {id : Nat} {items : Array Value}, h.lists[id]? = some items →
    h'.lists[id]? = some items
  maps : ∀ {id : Nat} {entries : List (Value × Value)}, h.maps[id]? = some entries →
    h'.maps[id]? = some entries

namespace Extends

variable {h h' h'' : Heap}

theorem refl (h : Heap) : h.Extends h := ⟨id, id⟩

theorem trans (le : h.Extends h') (le' : h'.Extends h'') : h.Extends h'' :=
  ⟨le'.lists ∘ le.lists, le'.maps ∘ le.maps⟩

theorem addList (h : Heap) (items : Array Value) : h.Extends (h.addList items) where
  lists at_ := by
    obtain ⟨lt, -⟩ := Array.getElem?_eq_some_iff.mp at_
    rw [Heap.addList, Array.getElem?_push_lt lt, ← Array.getElem?_eq_getElem lt, at_]
  maps := id

theorem addMap (h : Heap) (entries : List (Value × Value)) : h.Extends (h.addMap entries) where
  lists := id
  maps at_ := by
    obtain ⟨lt, -⟩ := Array.getElem?_eq_some_iff.mp at_
    rw [Heap.addMap, Array.getElem?_push_lt lt, ← Array.getElem?_eq_getElem lt, at_]

theorem size_le (le : h.Extends h') : h.size ≤ h'.size := by
  have kept {α : Type} {xs ys : Array α}
      (here : ∀ {id : Nat} {a : α}, xs[id]? = some a → ys[id]? = some a) : xs.size ≤ ys.size := by
    refine Nat.le_of_not_lt fun lt => ?_
    obtain ⟨stays, -⟩ := Array.getElem?_eq_some_iff.mp (here (Array.getElem?_eq_getElem lt))
    exact Nat.lt_irrefl _ stays
  exact Nat.add_le_add (kept le.lists) (kept le.maps)

end Extends

end Heap

open Heap

variable {h h' : Heap} {v w : Value}

theorem IsData.extends (hv : IsData h v) (le : h.Extends h') : IsData h' v := by
  induction hv with
  | plain plain => exact .plain plain
  | list at_ _ ih => exact .list (le.lists at_) ih
  | map at_ plain apart _ ih => exact .map (le.maps at_) plain apart ih

namespace Heap

theorem nestedText_plain (plain : IsPlain v) (h h' : Heap) :
    h'.nestedText v = h.nestedText v := by
  cases plain <;> simp [nestedText, nestedTextWithin]

theorem nestedText_extends (hv : IsData h v) (le : h.Extends h') :
    h'.nestedText v = h.nestedText v := by
  induction hv with
  | plain plain => exact nestedText_plain plain h h'
  | list at_ data ih =>
      rw [nestedText_list at_ data,
        nestedText_list (le.lists at_) fun w hw => (data w hw).extends le, List.map_congr_left ih]
  | map at_ plain apart data ih =>
      rw [nestedText_map at_ plain data,
        nestedText_map (le.maps at_) plain fun entry hentry => (data entry hentry).extends le]
      congr 3
      refine List.map_congr_left fun entry hentry => ?_
      rw [nestedText_plain (plain entry hentry) h h', ih entry hentry]

/-- What is found under a key is the value of an entry. -/
theorem mem_of_findEntry {key value : Value} {entries : List (Value × Value)}
    (found : findEntry key entries = some value) : ∃ k, (k, value) ∈ entries := by
  induction entries with
  | nil => cases found
  | cons entry rest ih =>
      obtain ⟨k, v⟩ := entry
      rw [findEntry] at found
      split at found
      · cases found
        exact ⟨k, List.mem_cons_self⟩
      · obtain ⟨k', mem⟩ := ih found
        exact ⟨k', List.mem_cons_of_mem _ mem⟩

theorem all_congr_of_mem {α : Type} {l : List α} {f g : α → Bool} (same : ∀ a ∈ l, f a = g a) :
    l.all f = l.all g := by
  rw [Bool.eq_iff_iff, List.all_eq_true, List.all_eq_true]
  exact forall₂_congr fun a ha => by rw [same a ha]

theorem deepEqWithin_extends (le : h.Extends h') (depth : Nat) (hv : IsData h v)
    (hw : IsData h w) : h'.deepEqWithin depth v w = h.deepEqWithin depth v w := by
  induction depth generalizing v w with
  | zero => unfold deepEqWithin; rfl
  | succ depth ih =>
      cases hv with
      | plain plain => cases plain <;> simp [deepEqWithin]
      | list at_ data =>
          cases hw with
          | plain plain => cases plain <;> simp [deepEqWithin]
          | map => simp [deepEqWithin]
          | list at' data' =>
              simp only [deepEqWithin, items_eq at_, items_eq at', items_eq (le.lists at_),
                items_eq (le.lists at')]
              congr 2
              refine all_congr_of_mem fun p hp => ?_
              exact ih (data p.1 (List.of_mem_zip hp).1) (data' p.2 (List.of_mem_zip hp).2)
      | map at_ plain apart data =>
          cases hw with
          | plain plain => cases plain <;> simp [deepEqWithin]
          | list => simp [deepEqWithin]
          | map at' plain' apart' data' =>
              simp only [deepEqWithin, entries_eq at_, entries_eq at', entries_eq (le.maps at_),
                entries_eq (le.maps at')]
              congr 2
              refine all_congr_of_mem fun p hp => ?_
              split
              next value found =>
                obtain ⟨k, mem⟩ := mem_of_findEntry found
                exact ih (data p hp) (data' _ mem)
              next => rfl

end Heap

/-! ## Keys -/

/-- Equality by identity goes both ways. -/
theorem strictEq_symm (same : v.strictEq w = true) : w.strictEq v = true := by
  cases v <;> cases w <;> simp_all [Value.strictEq]
  exact BEq.symm same

theorem strictEq_trans {u : Value} (same : u.strictEq v = true) (same' : v.strictEq w = true) :
    u.strictEq w = true := by
  cases u <;> cases v <;> simp [Value.strictEq] at same <;> cases w <;>
    simp_all [Value.strictEq]
  exact BEq.trans same same'

/-- Among keys that differ, a key is found by what equals it. -/
theorem findEntry_of_mem {key k value : Value} {entries : List (Value × Value)}
    (apart : entries.Pairwise (fun a b => a.1.strictEq b.1 = false))
    (mem : (k, value) ∈ entries) (same : k.strictEq key = true) :
    findEntry key entries = some value := by
  induction entries with
  | nil => cases mem
  | cons entry rest ih =>
      obtain ⟨k', v'⟩ := entry
      obtain ⟨first, apart⟩ := List.pairwise_cons.mp apart
      rw [findEntry]
      rcases List.mem_cons.mp mem with here | later
      · cases here
        rw [if_pos same]
      · have other : k'.strictEq key = false := by
          rw [Bool.eq_false_iff]
          intro equal
          have := strictEq_trans equal (strictEq_symm same)
          rw [first _ later] at this
          exact Bool.noConfusion this
        rw [if_neg (by simp [other]), ih apart later]

/-- An entry with a new key is put at the end. -/
theorem setEntry_of_new {key value : Value} {entries : List (Value × Value)}
    (new : ∀ entry ∈ entries, entry.1.strictEq key = false) :
    setEntry key value entries = entries ++ [(key, value)] := by
  induction entries with
  | nil => rfl
  | cons entry rest ih =>
      obtain ⟨k, v⟩ := entry
      rw [setEntry, if_neg (by simp [new (k, v) List.mem_cons_self]),
        ih fun entry hentry => new entry (List.mem_cons_of_mem _ hentry)]
      rfl

/-! ## Copies -/

/-- Values without parts that are equal by identity and have the same text. -/
structure SamePlain (v w : Value) : Prop where
  left : IsPlain v
  right : IsPlain w
  equal : v.strictEq w = true
  text : ∀ h : Heap, h.nestedText w = h.nestedText v

/-- The second value is data that equals the first one, whichever is compared with the
other, contents being followed to a depth, and that has the same text. -/
structure Copies (h : Heap) (depth : Nat) (v w : Value) : Prop where
  left : IsData h v
  right : IsData h w
  equal : h.deepEqWithin depth v w = true
  equal_symm : h.deepEqWithin depth w v = true
  text : h.nestedText w = h.nestedText v

/-- The second entry has a copy of the value under the same key. -/
structure CopiesEntry (h : Heap) (depth : Nat) (a b : Value × Value) : Prop where
  key : SamePlain a.1 b.1
  value : Copies h depth a.2 b.2

/-- What equals by identity equals by content. -/
theorem Heap.deepEqWithin_of_strictEq {depth : Nat} (same : v.strictEq w = true) :
    h.deepEqWithin depth v w = true :=
  deepEqWithin_mono (h := h) (v := v) (by unfold deepEqWithin; exact same) (Nat.zero_le depth)

theorem SamePlain.copies {depth : Nat} (same : SamePlain v w) : Copies h depth v w where
  left := .plain same.left
  right := .plain same.right
  equal := deepEqWithin_of_strictEq same.equal
  equal_symm := deepEqWithin_of_strictEq (strictEq_symm same.equal)
  text := same.text h

theorem Copies.grow {depth : Nat} (copy : Copies h depth v w) (le : h.Extends h') :
    Copies h' depth v w where
  left := copy.left.extends le
  right := copy.right.extends le
  equal := by rw [deepEqWithin_extends le depth copy.left copy.right, copy.equal]
  equal_symm := by rw [deepEqWithin_extends le depth copy.right copy.left, copy.equal_symm]
  text := by rw [nestedText_extends copy.right le, nestedText_extends copy.left le, copy.text]

theorem CopiesEntry.grow {depth : Nat} {a b : Value × Value} (copy : CopiesEntry h depth a b)
    (le : h.Extends h') : CopiesEntry h' depth a b :=
  ⟨copy.key, copy.value.grow le⟩

/-! ## Copies of containers -/

theorem exists_of_mem_forall₂ {α β : Type} {R : α → β → Prop} {l : List α} {l' : List β} {b : β}
    (related : List.Forall₂ R l l') (mem : b ∈ l') : ∃ a ∈ l, R a b := by
  induction related with
  | nil => cases mem
  | cons first _ ih =>
      rcases List.mem_cons.mp mem with rfl | later
      · exact ⟨_, List.mem_cons_self, first⟩
      · obtain ⟨a, ha, related⟩ := ih later
        exact ⟨a, List.mem_cons_of_mem _ ha, related⟩

section Containers

variable {depth i j : Nat}

/-- A list of copies is a copy of a list. -/
theorem Copies.list {xs ys : Array Value} (hx : h.lists[i]? = some xs)
    (hy : h.lists[j]? = some ys)
    (copies : List.Forall₂ (Copies h depth) xs.toList ys.toList) :
    Copies h (depth + 1) (.list i) (.list j) := by
  obtain ⟨length, pairs⟩ := List.forall₂_iff_zip.mp copies
  obtain ⟨length', pairs'⟩ := List.forall₂_iff_zip.mp copies.flip
  have left : ∀ v ∈ xs.toList, IsData h v := fun v hv => by
    obtain ⟨_, -, copy⟩ := exists_of_mem_forall₂ copies.flip hv
    exact copy.left
  have right : ∀ w ∈ ys.toList, IsData h w := fun w hw => by
    obtain ⟨_, -, copy⟩ := exists_of_mem_forall₂ copies hw
    exact copy.right
  have texts : ys.toList.map h.nestedText = xs.toList.map h.nestedText := by
    rw [← List.forall₂_eq_eq_eq, List.forall₂_map_left_iff, List.forall₂_map_right_iff]
    exact copies.flip.imp fun _ _ copy => copy.text
  refine ⟨.list hx left, .list hy right, ?_, ?_, ?_⟩
  · simp only [deepEqWithin, items_eq hx, items_eq hy, Bool.or_eq_true, Bool.and_eq_true,
      beq_iff_eq, List.all_eq_true]
    exact .inr ⟨length, fun p hp => (pairs hp).equal⟩
  · simp only [deepEqWithin, items_eq hx, items_eq hy, Bool.or_eq_true, Bool.and_eq_true,
      beq_iff_eq, List.all_eq_true]
    exact .inr ⟨length', fun p hp => (pairs' hp).equal_symm⟩
  · rw [nestedText_list hx left, nestedText_list hy right, texts]

/-- Keys that equal different keys are different. -/
theorem keys_apart {xs ys : List (Value × Value)}
    (apart : xs.Pairwise (fun a b => a.1.strictEq b.1 = false))
    (copies : List.Forall₂ (CopiesEntry h depth) xs ys) :
    ys.Pairwise (fun a b => a.1.strictEq b.1 = false) := by
  induction copies with
  | nil => exact .nil
  | cons first rest ih =>
      obtain ⟨new, apart⟩ := List.pairwise_cons.mp apart
      refine List.pairwise_cons.mpr ⟨fun entry hentry => ?_, ih apart⟩
      obtain ⟨entry', hentry', copy⟩ := exists_of_mem_forall₂ rest hentry
      rw [Bool.eq_false_iff]
      intro equal
      have := strictEq_trans first.key.equal (strictEq_trans equal (strictEq_symm copy.key.equal))
      rw [new entry' hentry'] at this
      exact Bool.noConfusion this

/-- A map of copies is a copy of a map. -/
theorem Copies.map {xs ys : List (Value × Value)} (hx : h.maps[i]? = some xs)
    (hy : h.maps[j]? = some ys)
    (apart : xs.Pairwise (fun a b => a.1.strictEq b.1 = false))
    (copies : List.Forall₂ (CopiesEntry h depth) xs ys) :
    Copies h (depth + 1) (.map i) (.map j) := by
  have apart' := keys_apart apart copies
  have left : ∀ entry ∈ xs, IsPlain entry.1 ∧ IsData h entry.2 := fun entry hentry => by
    obtain ⟨_, -, copy⟩ := exists_of_mem_forall₂ copies.flip hentry
    exact ⟨copy.key.left, copy.value.left⟩
  have right : ∀ entry ∈ ys, IsPlain entry.1 ∧ IsData h entry.2 := fun entry hentry => by
    obtain ⟨_, -, copy⟩ := exists_of_mem_forall₂ copies hentry
    exact ⟨copy.key.right, copy.value.right⟩
  have texts : ys.map (fun entry => h.nestedText entry.1 ++ ": " ++ h.nestedText entry.2) =
      xs.map (fun entry => h.nestedText entry.1 ++ ": " ++ h.nestedText entry.2) := by
    rw [← List.forall₂_eq_eq_eq, List.forall₂_map_left_iff, List.forall₂_map_right_iff]
    exact copies.flip.imp fun _ _ copy => by rw [copy.key.text h, copy.value.text]
  have plain := fun entry hentry => (left entry hentry).1
  have plain' := fun entry hentry => (right entry hentry).1
  have data := fun entry hentry => (left entry hentry).2
  have data' := fun entry hentry => (right entry hentry).2
  refine ⟨.map hx plain apart data, .map hy plain' apart' data', ?_, ?_, ?_⟩
  · simp only [deepEqWithin, entries_eq hx, entries_eq hy, Bool.or_eq_true, Bool.and_eq_true,
      beq_iff_eq, List.all_eq_true]
    refine .inr ⟨copies.length_eq, fun entry hentry => ?_⟩
    obtain ⟨entry', hentry', copy⟩ := exists_of_mem_forall₂ copies.flip hentry
    rw [findEntry_of_mem apart' hentry' (strictEq_symm copy.key.equal)]
    exact copy.value.equal
  · simp only [deepEqWithin, entries_eq hx, entries_eq hy, Bool.or_eq_true, Bool.and_eq_true,
      beq_iff_eq, List.all_eq_true]
    refine .inr ⟨copies.length_eq.symm, fun entry hentry => ?_⟩
    obtain ⟨entry', hentry', copy⟩ := exists_of_mem_forall₂ copies hentry
    rw [findEntry_of_mem apart hentry' copy.key.equal]
    exact copy.value.equal_symm
  · rw [nestedText_map hx plain data, nestedText_map hy plain' data', texts]

end Containers

end ScriptLang
