import ScriptLang.Proofs.Value.Dictionary

/-!
# Equality of contents

Two values have the same contents if they are equal by identity, or if they are containers
of the same kind and size with the same contents throughout: lists item by item, maps key
by key. `SameContents` says so without a bound for how deep contents are followed, and for
values without cycles it is what `deepEq` decides.

It is an equivalence, but for not-a-number, which does not equal itself. A map asks of
another one only that its own keys are there; since both have as many keys and no two of
one map are equal, the other one's keys are then there as well. The order in which the
entries of a map stand is of no account.
-/

namespace ScriptLang

variable {key k value : Value} {xs ys : List (Value × Value)}

/-! ## Finding entries -/

/-- What is found stands under an equal key. -/
theorem exists_of_findEntry (found : findEntry key xs = some value) :
    ∃ k, (k, value) ∈ xs ∧ k.strictEq key = true := by
  induction xs with
  | nil => cases found
  | cons entry rest ih =>
      obtain ⟨k, v⟩ := entry
      rw [findEntry] at found
      split at found
      next same =>
        cases found
        exact ⟨k, List.mem_cons_self, same⟩
      next =>
        obtain ⟨k', mem, same⟩ := ih found
        exact ⟨k', List.mem_cons_of_mem _ mem, same⟩

/-- Equal keys find the same. -/
theorem findEntry_congr (same : key.strictEq k = true) (xs : List (Value × Value)) :
    findEntry key xs = findEntry k xs := by
  induction xs with
  | nil => rfl
  | cons entry rest ih => rw [findEntry, findEntry, strictEq_congr same, ih]

/-- Where no two keys are equal, the order of the entries does not matter. -/
theorem findEntry_perm (same : xs.Perm ys)
    (apart : ys.Pairwise fun a b => a.1.strictEq b.1 = false) (key : Value) :
    findEntry key xs = findEntry key ys := by
  have apart' : xs.Pairwise fun a b => a.1.strictEq b.1 = false := by
    refine (same.pairwise_iff fun {a b} h => ?_).mpr apart
    rw [Bool.eq_false_iff] at h ⊢
    exact fun equal => h (strictEq_symm equal)
  refine Option.ext fun v => ⟨fun found => ?_, fun found => ?_⟩
  · obtain ⟨k, mem, equal⟩ := exists_of_findEntry found
    exact findEntry_of_mem apart (same.mem_iff.mp mem) equal
  · obtain ⟨k, mem, equal⟩ := exists_of_findEntry found
    exact findEntry_of_mem apart' (same.mem_iff.mpr mem) equal

/-- Where no two keys of the first entries are equal and each is a key of the second ones,
of which there are as many, each key of the second ones is one of the first. -/
theorem exists_key_of_apart (size : ys.length ≤ xs.length)
    (apart : xs.Pairwise fun a b => a.1.strictEq b.1 = false)
    (there : ∀ x ∈ xs, ∃ y ∈ ys, x.1.strictEq y.1 = true) :
    ∀ y ∈ ys, ∃ x ∈ xs, x.1.strictEq y.1 = true := by
  induction xs generalizing ys with
  | nil =>
      obtain rfl : ys = [] := List.length_eq_zero_iff.mp (Nat.le_zero.mp size)
      simp
  | cons x rest ih =>
      obtain ⟨new, apart⟩ := List.pairwise_cons.mp apart
      obtain ⟨y, hy, same⟩ := there x List.mem_cons_self
      obtain ⟨before, after, rfl⟩ := List.append_of_mem hy
      -- the other keys are found elsewhere, for they differ from the first one
      have elsewhere : ∀ x' ∈ rest, ∃ y' ∈ before ++ after, x'.1.strictEq y'.1 = true := by
        intro x' hx'
        obtain ⟨y', hy', same'⟩ := there x' (List.mem_cons_of_mem _ hx')
        rcases List.mem_append.mp hy' with first | last
        · exact ⟨y', List.mem_append_left _ first, same'⟩
        rcases List.mem_cons.mp last with rfl | last
        · have unequal := new x' hx'
          rw [strictEq_trans same (strictEq_symm same')] at unequal
          cases unequal
        · exact ⟨y', List.mem_append_right _ last, same'⟩
      have fewer : (before ++ after).length ≤ rest.length := by
        simp only [List.length_append, List.length_cons] at size ⊢
        omega
      have others := ih fewer apart elsewhere
      intro y' hy'
      rcases List.mem_append.mp hy' with first | last
      · obtain ⟨x', hx', same'⟩ := others y' (List.mem_append_left _ first)
        exact ⟨x', List.mem_cons_of_mem _ hx', same'⟩
      rcases List.mem_cons.mp last with rfl | last
      · exact ⟨x, List.mem_cons_self, same⟩
      · obtain ⟨x', hx', same'⟩ := others y' (List.mem_append_right _ last)
        exact ⟨x', List.mem_cons_of_mem _ hx', same'⟩

/-! ## The same contents -/

namespace Heap

/-- The values are equal by identity, or containers of the same kind and size with the same
contents. -/
inductive SameContents (h : Heap) : Value → Value → Prop where
  | identity {v w : Value} : v.strictEq w = true → SameContents h v w
  | list {i j : Nat} : (h.items i).toList.length = (h.items j).toList.length →
      (∀ p ∈ (h.items i).toList.zip (h.items j).toList, SameContents h p.1 p.2) →
      SameContents h (.list i) (.list j)
  | map {i j : Nat} : (h.entries i).length = (h.entries j).length →
      (∀ e ∈ h.entries i, (findEntry e.1 (h.entries j)).isSome = true) →
      (∀ e ∈ h.entries i, ∀ w, findEntry e.1 (h.entries j) = some w →
        SameContents h e.2 w) →
      SameContents h (.map i) (.map j)

variable {h h' : Heap} {u v w : Value} {depth : Nat}

/-- What is found to be equal, however deep, has the same contents. -/
theorem sameContents_of_deepEqWithin (same : h.deepEqWithin depth v w = true) :
    h.SameContents v w := by
  induction depth generalizing v w with
  | zero => exact .identity same
  | succ depth ih =>
      unfold deepEqWithin at same
      rcases Bool.or_eq_true _ _ ▸ same with same | same
      · exact .identity same
      split at same
      next i j =>
        simp only [Bool.and_eq_true, beq_iff_eq, List.all_eq_true] at same
        exact .list same.1 fun p hp => ih (same.2 p hp)
      next i j =>
        simp only [Bool.and_eq_true, beq_iff_eq, List.all_eq_true] at same
        refine .map same.1 (fun e he => ?_) fun e he w found => ?_
        · have entry := same.2 e he
          split at entry
          next found => rw [found]; rfl
          next => cases entry
        · have entry := same.2 e he
          rw [found] at entry
          exact ih entry
      next => cases same

/-- A value without cycles is compared to the end. -/
theorem deepEq_of_sameContents (hv : IsAcyclic h v) (same : h.SameContents v w) :
    h.deepEq v w = true := by
  suffices goal : h.deepEqWithin h.size v w = true from deepEqWithin_succ goal
  refine hv.of_depth
    (P := fun depth v => ∀ w, h.SameContents v w → h.deepEqWithin depth v w = true) ?_ ?_ ?_ w same
  · intro depth v scalar w same
    cases same with
    | identity same => exact deepEqWithin_of_strictEq same
    | list | map => cases scalar
  · intro depth i items at_ equal w same
    rw [← items_eq at_] at equal
    cases same with
    | identity same => exact deepEqWithin_of_strictEq same
    | list size same =>
        simp only [deepEqWithin, Bool.or_eq_true, Bool.and_eq_true, beq_iff_eq, List.all_eq_true]
        exact .inr ⟨size, fun p hp => equal p.1 (List.of_mem_zip hp).1 p.2 (same p hp)⟩
  · intro depth i entries at_ apart equal w same
    rw [← entries_eq at_] at equal
    cases same with
    | identity same => exact deepEqWithin_of_strictEq same
    | map size there same =>
        simp only [deepEqWithin, Bool.or_eq_true, Bool.and_eq_true, beq_iff_eq, List.all_eq_true]
        refine .inr ⟨size, fun e he => ?_⟩
        obtain ⟨v, found⟩ := Option.isSome_iff_exists.mp (there e he)
        rw [found]
        exact equal e he v (same e he v found)

/-- On values without cycles, equality is to have the same contents. -/
theorem deepEq_iff (hv : IsAcyclic h v) : h.deepEq v w = true ↔ h.SameContents v w :=
  ⟨sameContents_of_deepEqWithin, deepEq_of_sameContents hv⟩

namespace SameContents

theorem symm (same : h.SameContents v w) (hv : IsAcyclic h v) (hw : IsAcyclic h w) :
    h.SameContents w v := by
  induction same with
  | identity same => exact .identity (strictEq_symm same)
  | @list i j size _ ih =>
      cases hv with
      | scalar scalar => cases scalar
      | list at_ hx =>
          cases hw with
          | scalar scalar => cases scalar
          | list at' hy =>
              rw [← items_eq at_] at hx
              rw [← items_eq at'] at hy
              refine .list size.symm fun p hp => ?_
              have mem : (p.2, p.1) ∈ (h.items i).toList.zip (h.items j).toList := by
                rw [← List.zip_swap]
                exact List.mem_map_of_mem hp
              obtain ⟨left, right⟩ := List.of_mem_zip hp
              exact ih _ mem (hx _ right) (hy _ left)
  | @map i j size there _ ih =>
      cases hv with
      | scalar scalar => cases scalar
      | map at_ apart hx =>
          cases hw with
          | scalar scalar => cases scalar
          | map at' apart' hy =>
              rw [← entries_eq at_] at apart hx
              rw [← entries_eq at'] at apart' hy
              have mutual' : ∀ y ∈ h.entries j, ∃ x ∈ h.entries i, x.1.strictEq y.1 = true := by
                refine exists_key_of_apart size.ge apart fun x hx => ?_
                obtain ⟨v, found⟩ := Option.isSome_iff_exists.mp (there x hx)
                obtain ⟨k, mem, same⟩ := exists_of_findEntry found
                exact ⟨_, mem, strictEq_symm same⟩
              have found {y : Value × Value} (mem : y ∈ h.entries j) : ∃ x ∈ h.entries i,
                  findEntry y.1 (h.entries i) = some x.2 ∧
                    findEntry x.1 (h.entries j) = some y.2 := by
                obtain ⟨x, mem', same⟩ := mutual' y mem
                exact ⟨x, mem', findEntry_of_mem apart mem' same,
                  findEntry_of_mem apart' mem (strictEq_symm same)⟩
              refine .map size.symm (fun y mem => ?_) fun y mem w found' => ?_
              · obtain ⟨x, -, found, -⟩ := found mem
                rw [found]
                rfl
              · obtain ⟨x, mem', back, forth⟩ := found mem
                obtain rfl := Option.some.inj (found'.symm.trans back)
                exact ih x mem' _ forth (hx x mem') (hy y mem)

/-- What equals by identity has the same contents as the same values. -/
theorem of_strictEq (equal : u.strictEq v = true) (same : h.SameContents v w) :
    h.SameContents u w := by
  cases same with
  | identity same => exact .identity (strictEq_trans equal same)
  | @list i j size same =>
      obtain rfl : u = .list i := by cases u <;> simp_all [Value.strictEq]
      exact .list size same
  | @map i j size there same =>
      obtain rfl : u = .map i := by cases u <;> simp_all [Value.strictEq]
      exact .map size there same

theorem trans (same : h.SameContents u v) (same' : h.SameContents v w) : h.SameContents u w := by
  induction same generalizing w with
  | identity equal => exact same'.of_strictEq equal
  | @list i j size parts ih =>
      cases same' with
      | identity equal =>
          obtain rfl : w = .list j := by cases w <;> simp_all [Value.strictEq]
          exact .list size parts
      | @list _ l size' same' =>
          refine .list (size.trans size') fun p hp => ?_
          obtain ⟨n, at_⟩ := List.getElem?_of_mem hp
          obtain ⟨first, last⟩ := List.getElem?_zip_eq_some.mp at_
          obtain ⟨lt, -⟩ := List.getElem?_eq_some_iff.mp first
          obtain ⟨y, middle⟩ : ∃ y, (h.items j).toList[n]? = some y :=
            ⟨_, List.getElem?_eq_getElem (size ▸ lt)⟩
          have left : (p.1, y) ∈ (h.items i).toList.zip (h.items j).toList :=
            List.mem_of_getElem? (List.getElem?_zip_eq_some.mpr ⟨first, middle⟩)
          have right : (y, p.2) ∈ (h.items j).toList.zip (h.items l).toList :=
            List.mem_of_getElem? (List.getElem?_zip_eq_some.mpr ⟨middle, last⟩)
          exact ih _ left (same' _ right)
  | @map i j size there parts ih =>
      cases same' with
      | identity equal =>
          obtain rfl : w = .map j := by cases w <;> simp_all [Value.strictEq]
          exact .map size there parts
      | @map _ l size' there' same' =>
          -- a key is looked for by the equal key that the map in the middle has
          have between {e : Value × Value} (mem : e ∈ h.entries i) : ∃ e' ∈ h.entries j,
              findEntry e.1 (h.entries j) = some e'.2 ∧
                findEntry e.1 (h.entries l) = findEntry e'.1 (h.entries l) := by
            obtain ⟨v, found⟩ := Option.isSome_iff_exists.mp (there e mem)
            obtain ⟨k, mem', equal⟩ := exists_of_findEntry found
            exact ⟨_, mem', found, findEntry_congr (strictEq_symm equal) _⟩
          refine .map (size.trans size') (fun e mem => ?_) fun e mem w found => ?_
          · obtain ⟨e', mem', -, same⟩ := between mem
            rw [same]
            exact there' e' mem'
          · obtain ⟨e', mem', found', same⟩ := between mem
            rw [same] at found
            exact ih e mem _ found' (same' e' mem' w found)

end SameContents

/-! ## Orders of entries -/

/-- Next to a value without parts, equality is that of identity. -/
theorem deepEqWithin_scalar (scalar : v.isContainer = false) :
    h.deepEqWithin depth v w = v.strictEq w := by
  cases depth <;> cases v <;> simp_all [deepEqWithin, Value.isContainer]

theorem deepEqWithin_scalar' (scalar : w.isContainer = false) :
    h.deepEqWithin depth v w = v.strictEq w := by
  cases depth <;> cases w <;> simp_all [deepEqWithin, Value.isContainer]

/-- The heap with the entries of its maps in other orders. -/
structure Reorders (h h' : Heap) : Prop where
  lists : h'.lists = h.lists
  size : h'.maps.size = h.maps.size
  entries : ∀ id, (h'.entries id).Perm (h.entries id)

theorem deepEqWithin_reorders (orders : h.Reorders h') (hv : IsAcyclic h v) (hw : IsAcyclic h w) :
    h'.deepEqWithin depth v w = h.deepEqWithin depth v w := by
  have items (id : Nat) : h'.items id = h.items id := by rw [Heap.items, Heap.items, orders.lists]
  induction depth generalizing v w with
  | zero => simp only [deepEqWithin]
  | succ depth ih =>
      cases hv with
      | scalar scalar => rw [deepEqWithin_scalar scalar, deepEqWithin_scalar scalar]
      | list at_ hx =>
          cases hw with
          | scalar scalar => rw [deepEqWithin_scalar' scalar, deepEqWithin_scalar' scalar]
          | map => simp [deepEqWithin]
          | list at' hy =>
              simp only [deepEqWithin, items, items_eq at_, items_eq at']
              congr 2
              refine all_congr_of_mem fun p hp => ?_
              exact ih (hx p.1 (List.of_mem_zip hp).1) (hy p.2 (List.of_mem_zip hp).2)
      | @map i _ at_ _ hx =>
          cases hw with
          | scalar scalar => rw [deepEqWithin_scalar' scalar, deepEqWithin_scalar' scalar]
          | list => simp [deepEqWithin]
          | @map j _ at' apart hy =>
              rw [← entries_eq at_] at hx
              rw [← entries_eq at'] at apart hy
              simp only [deepEqWithin, (orders.entries i).length_eq,
                (orders.entries j).length_eq, (orders.entries i).all_eq]
              congr 2
              refine all_congr_of_mem fun e he => ?_
              rw [findEntry_perm (orders.entries j) apart]
              split
              next v found =>
                obtain ⟨k, mem, -⟩ := exists_of_findEntry found
                exact ih (hx e he) (hy _ mem)
              next => rfl

theorem deepEq_reorders (orders : h.Reorders h') (hv : IsAcyclic h v) (hw : IsAcyclic h w) :
    h'.deepEq v w = h.deepEq v w := by
  have size : h'.size = h.size := by rw [Heap.size, Heap.size, orders.lists, orders.size]
  rw [deepEq, deepEq, size, deepEqWithin_reorders orders hv hw]

theorem deepEq_of_strictEq (same : v.strictEq w = true) : h.deepEq v w = true :=
  deepEqWithin_of_strictEq same

/-- Nothing but not-a-number differs from itself. -/
theorem deepEq_self_iff : h.deepEq v v = true ↔ v ≠ .num Number.nan := by
  refine ⟨?_, fun number => deepEq_of_strictEq (strictEq_self number)⟩
  rintro same rfl
  rw [deepEq, deepEqWithin_scalar rfl] at same
  exact absurd same (by decide)

/-- Maps with the same entries in different orders are equal, where no key and no value is
not-a-number. -/
theorem deepEq_of_perm {i j : Nat} (hi : IsAcyclic h (.map i)) (hj : IsAcyclic h (.map j))
    (same : (h.entries i).Perm (h.entries j))
    (numbers : ∀ e ∈ h.entries i, e.1 ≠ .num Number.nan ∧ e.2 ≠ .num Number.nan) :
    h.deepEq (.map i) (.map j) = true := by
  cases hj with
  | scalar scalar => cases scalar
  | map at_ apart _ =>
      rw [← entries_eq at_] at apart
      have found {e : Value × Value} (mem : e ∈ h.entries i) :
          findEntry e.1 (h.entries j) = some e.2 :=
        findEntry_of_mem apart (same.mem_iff.mp mem) (strictEq_self (numbers e mem).1)
      refine deepEq_of_sameContents hi (.map same.length_eq (fun e mem => ?_) ?_)
      · rw [found mem]
        rfl
      · intro e mem w there
        obtain rfl := Option.some.inj ((found mem).symm.trans there)
        exact .identity (strictEq_self (numbers e mem).2)

/-- On values without cycles in which no two keys of a map are equal, `==` is to have the
same contents. It is symmetric, transitive, and reflexive but for not-a-number, holds of
what is equal by identity, and does not depend on the orders of entries. -/
theorem deepEq_equivalence {a b : Value} (ha : IsAcyclic h a) (hb : IsAcyclic h b) :
    (h.deepEq a b = true ↔ h.SameContents a b) ∧
      (h.deepEq a a = true ↔ a ≠ .num Number.nan) ∧
      h.deepEq b a = h.deepEq a b ∧
      (∀ c, h.deepEq a b = true → h.deepEq b c = true → h.deepEq a c = true) ∧
      (a.strictEq b = true → h.deepEq a b = true) ∧
      (∀ h', h.Reorders h' → h'.deepEq a b = h.deepEq a b) ∧
      ∀ i j, a = .map i → b = .map j → (h.entries i).Perm (h.entries j) →
        (∀ e ∈ h.entries i, e.1 ≠ .num Number.nan ∧ e.2 ≠ .num Number.nan) →
        h.deepEq a b = true := by
  refine ⟨deepEq_iff ha, deepEq_self_iff, ?_, fun c same same' => ?_, deepEq_of_strictEq,
    fun h' orders => deepEq_reorders orders ha hb, ?_⟩
  · rw [Bool.eq_iff_iff, deepEq_iff hb, deepEq_iff ha]
    exact ⟨fun same => same.symm hb ha, fun same => same.symm ha hb⟩
  · rw [deepEq_iff ha] at same ⊢
    exact same.trans ((deepEq_iff hb).mp same')
  · rintro i j rfl rfl same numbers
    exact deepEq_of_perm ha hb same numbers

/-- Two maps with a list and the number zero each. -/
def twoMaps : Heap :=
  { lists := #[#[.num 1], #[.num 1]]
    maps := #[[(.str "a", .list 0), (.num 0, .null)], [(.num (-0), .null), (.str "a", .list 1)]] }

/-- Different lists with the same item in them are equal, and so are both zeros as keys. -/
theorem deepEq_twoMaps :
    IsAcyclic twoMaps (.map 0) ∧ IsAcyclic twoMaps (.map 1) ∧
      twoMaps.deepEq (.map 0) (.map 1) = true ∧ twoMaps.deepEq (.map 1) (.map 0) = true := by
  have number (x : Float) : IsAcyclic twoMaps (.num x) := .scalar rfl
  have first : IsAcyclic twoMaps (.list 0) := .list rfl (by simpa [twoMaps] using number 1)
  have second : IsAcyclic twoMaps (.list 1) := .list rfl (by simpa [twoMaps] using number 1)
  have null : IsAcyclic twoMaps .null := .scalar rfl
  have left : IsAcyclic twoMaps (.map 0) :=
    .map rfl (by simp [twoMaps, Value.strictEq]) (by simpa [twoMaps] using ⟨first, null⟩)
  have right : IsAcyclic twoMaps (.map 1) :=
    .map rfl (by simp [twoMaps, Value.strictEq]) (by simpa [twoMaps] using ⟨null, second⟩)
  have same : twoMaps.deepEq (.map 0) (.map 1) = true := rfl
  exact ⟨left, right, same, (deepEq_equivalence left right).2.2.1.trans same⟩

end Heap

end ScriptLang
