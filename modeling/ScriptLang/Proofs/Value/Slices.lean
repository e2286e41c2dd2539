import ScriptLang.Proofs.Value.Indexing

/-!
# Slices of lists and strings

A slice is a new sequence of the items between two bounds, in their order. A bound that is
left out is the start or the end; another one is the integer part of a number, counts from
the end where it is negative, and is brought into range. So the bounds never lead out of the
sequence, one that lies above the other one leaves nothing, and what is cut at one bound is
put together again from the slice before it and the one behind it.
-/

namespace ScriptLang

open Number

/-- Null and the numbers. -/
def Value.isSliceBound : Value → Bool
  | .null | .num _ => true
  | _ => false

/-- Where an integer cuts a sequence of `size` items. -/
def cutAt (size : Nat) (k : Int) : Nat :=
  (min (size : Int) (if k < 0 then max 0 (size + k) else k)).toNat

/-- Where a bound cuts a sequence of `size` items, if one that is left out does so at
`omitted`. -/
inductive Value.CutsAt (size omitted : Nat) : Value → Nat → Prop where
  | null : CutsAt size omitted .null omitted
  | nan : CutsAt size omitted (.num nan) 0
  | infinity : CutsAt size omitted (.num infinity) size
  | negInfinity : CutsAt size omitted (.num (-infinity)) 0
  | number {x : Float} {q : ℚ} : rational? x = some q →
      CutsAt size omitted (.num x) (cutAt size (wholePart q))

/-- The items with an index from `low` on and below `high`. -/
def between (low high : Nat) (items : List Value) : List Value :=
  (items.zipIdx.filter fun p => low ≤ p.2 && p.2 < high).map Prod.fst

/-- The product is a list of these items or a string of these characters, whichever of them
the value is. -/
inductive Product.IsSequenceLike : Product → Value → List Value → Prop where
  | list (items : Array Value) (id : Nat) : IsSequenceLike (.list items) (.list id) items.toList
  | str (part text : String) :
      IsSequenceLike (.value (.str part)) (.str text) (part.toList.map ofChar)

variable {h : Heap} {v a b : Value} {items : List Value} {p : Product}
  {size omitted low high : Nat} {x : Float}

/-! ## Bounds -/

/-- A finite number cuts where its integer part does. -/
theorem cutAt_signed (size : Nat) (negative : Bool) (n : Nat) :
    (if negative && n != 0 then size - n else min n size) = cutAt size (signed negative n) := by
  unfold cutAt signed
  cases negative <;> grind

theorem sliceBound_of_cutsAt {i : Nat} (cuts : v.CutsAt size omitted i) :
    v.sliceBound size omitted = .ok i := by
  have special : exact nan = .nan ∧ exact infinity = .infinite false ∧
      exact (-infinity) = .infinite true := ⟨rfl, rfl, rfl⟩
  cases cuts with
  | null => rfl
  | nan => rw [Value.sliceBound, special.1]
  | infinity => simp [Value.sliceBound, special.2.1]
  | negInfinity => simp [Value.sliceBound, special.2.2]
  | @number x q number =>
      rw [Value.sliceBound]
      unfold rational? at number
      split at number
      next negative m e parts =>
        cases number
        rw [parts, ← signed_truncated, ← cutAt_signed]
      next => cases number

/-- Null and every number cut a sequence somewhere. -/
theorem exists_cutsAt (bound : v.isSliceBound = true) (size omitted : Nat) :
    ∃ i, v.CutsAt size omitted i := by
  cases v with
  | null => exact ⟨_, .null⟩
  | num x =>
      rcases number_cases x with rfl | rfl | rfl | ⟨q, number⟩
      · exact ⟨_, .nan⟩
      · exact ⟨_, .infinity⟩
      · exact ⟨_, .negInfinity⟩
      · exact ⟨_, .number number⟩
  | _ => cases bound

theorem Value.CutsAt.le {i : Nat} (cuts : v.CutsAt size omitted i) (le : omitted ≤ size) :
    i ≤ size := by
  cases cuts with
  | null => exact le
  | nan | negInfinity => exact Nat.zero_le _
  | infinity => exact Nat.le_refl _
  | number =>
      unfold cutAt
      omega

/-- A number cuts in the same place, whether it is the first bound or the second one. -/
theorem Value.CutsAt.of_num {i omitted' : Nat} (cuts : (Value.num x).CutsAt size omitted i) :
    (Value.num x).CutsAt size omitted' i := by
  cases cuts with
  | nan => exact .nan
  | infinity => exact .infinity
  | negInfinity => exact .negInfinity
  | number number => exact .number number

theorem sliceBound_of_not (bound : v.isSliceBound = false) (size omitted : Nat) :
    v.sliceBound size omitted = .error (v.misused .sliceWith) := by
  cases v with
  | null | num => cases bound
  | _ => rfl

/-! ## The items between bounds -/

theorem filter_zipIdx_lt (items : List Value) (start high : Nat) :
    ((items.zipIdx start).filter fun p => p.2 < start + high).map Prod.fst = items.take high := by
  induction items generalizing start high with
  | nil => simp
  | cons item rest ih =>
      cases high with
      | zero =>
          have none : ∀ p ∈ (item :: rest).zipIdx start, ¬decide (p.2 < start + 0) = true := by
            intro p hp
            have := List.le_snd_of_mem_zipIdx hp
            simpa using this
          rw [List.filter_eq_nil_iff.mpr none]
          rfl
      | succ high =>
          have shifted := ih (start + 1) high
          rw [Nat.add_assoc, Nat.add_comm 1] at shifted
          simp [List.zipIdx_cons, shifted]

theorem filter_zipIdx_ge (items : List Value) (start low high : Nat) :
    ((items.zipIdx start).filter fun p => start + low ≤ p.2 && p.2 < high).map Prod.fst =
      (((items.drop low).zipIdx (start + low)).filter fun p => p.2 < high).map Prod.fst := by
  induction low generalizing items start with
  | zero =>
      refine congrArg _ (List.filter_congr fun p hp => ?_)
      have := List.le_snd_of_mem_zipIdx hp
      simp [this]
  | succ low ih =>
      cases items with
      | nil => simp
      | cons item rest =>
          have rest := ih rest (start + 1)
          rw [Nat.add_assoc, Nat.add_comm 1] at rest
          rw [List.zipIdx_cons, List.filter_cons_of_neg (by simp), rest, List.drop_succ_cons]

/-- The items between bounds are what is left of them when those before and behind are
dropped. -/
theorem between_eq (items : List Value) (low high : Nat) :
    between low high items = (items.drop low).take (high - low) := by
  have dropped := filter_zipIdx_ge items 0 low high
  rw [Nat.zero_add] at dropped
  rw [between, dropped]
  rcases Nat.le_total low high with le | ge
  · have taken := filter_zipIdx_lt (items.drop low) low (high - low)
    rwa [Nat.add_sub_cancel' le] at taken
  · have none : ∀ p ∈ (items.drop low).zipIdx low, ¬decide (p.2 < high) = true := by
      intro p hp
      have := List.le_snd_of_mem_zipIdx hp
      simp only [decide_eq_true_eq]
      omega
    rw [List.filter_eq_nil_iff.mpr none, Nat.sub_eq_zero_of_le ge, List.take_zero]
    rfl

/-- Items are put together from those before a bound and those from it on. -/
theorem between_append (items : List Value) (cut : Nat) :
    between 0 cut items ++ between cut items.length items = items := by
  have rest : (items.drop cut).take (items.length - cut) = items.drop cut :=
    List.take_of_length_le List.length_drop.le
  rw [between_eq, between_eq, List.drop_zero, Nat.sub_zero, rest, List.take_append_drop]

/-! ## Slices -/

/-- The slice of the value between the bounds is a sequence of these items. -/
def Heap.SlicesTo (h : Heap) (v a b : Value) (items : List Value) : Prop :=
  ∃ p, h.slice v a b = .ok p ∧ p.IsSequenceLike v items

namespace Heap

theorem sliceBounds_eq {lo hi : Nat} (ha : a.CutsAt size 0 lo) (hb : b.CutsAt size size hi) :
    a.sliceBounds b size = .ok (lo, max lo hi) := by
  rw [Value.sliceBounds, sliceBound_of_cutsAt ha, sliceBound_of_cutsAt hb]
  rfl

/-- A slice is a sequence of the items between the places where its bounds cut. -/
theorem IsSequence.slicesTo (seq : h.IsSequence v items) {lo hi : Nat}
    (ha : a.CutsAt items.length 0 lo) (hb : b.CutsAt items.length items.length hi) :
    h.SlicesTo v a b (between lo hi items) := by
  have bounds := sliceBounds_eq ha hb
  have same : max lo hi - lo = hi - lo := by omega
  rw [between_eq, ← same]
  cases seq with
  | @list id items at_ =>
      rw [Array.length_toList] at bounds
      refine ⟨.list (items.extract lo (max lo hi)), ?_, ?_⟩
      · simp only [Heap.slice, items_eq at_, bounds]
        rfl
      · rw [← List.extract_eq_take_drop, ← Array.toList_extract]
        exact .list _ _
  | str text =>
      rw [List.length_map] at bounds
      have spelled := Product.IsSequenceLike.str
        (String.ofList ((text.toList.drop lo).take (max lo hi - lo))) text
      rw [String.toList_ofList, List.map_take, List.map_drop] at spelled
      refine ⟨_, ?_, spelled⟩
      simp only [Heap.slice, bounds]
      rfl

theorem IsSequence.slice_error (seq : h.IsSequence v items) {e : RuntimeError}
    (failed : a.sliceBounds b items.length = .error e) : h.slice v a b = .error e := by
  cases seq with
  | @list id items at_ =>
      rw [Array.length_toList] at failed
      simp only [Heap.slice, items_eq at_, failed]
      rfl
  | str text =>
      rw [List.length_map] at failed
      simp only [Heap.slice, failed]
      rfl

/-- A slice of a sequence: its bounds are numbers or left out, and stay in the sequence. -/
structure SlicesItems (h : Heap) (v : Value) (items : List Value) (a b : Value) : Prop where
  succeeds : a.isSliceBound = true → b.isSliceBound = true → ∃ lo hi,
    a.CutsAt items.length 0 lo ∧ b.CutsAt items.length items.length hi ∧
      h.SlicesTo v a b (between lo hi items)
  inRange : ∀ low high, a.sliceBounds b items.length = .ok (low, high) →
    low ≤ high ∧ high ≤ items.length
  start_fails : a.isSliceBound = false → h.slice v a b = .error (a.misused .sliceWith)
  stop_fails : a.isSliceBound = true → b.isSliceBound = false →
    h.slice v a b = .error (b.misused .sliceWith)

theorem IsSequence.slicesItems (seq : h.IsSequence v items) (a b : Value) :
    h.SlicesItems v items a b := by
  have start_fails (ha : a.isSliceBound = false) :
      a.sliceBounds b items.length = .error (a.misused .sliceWith) := by
    rw [Value.sliceBounds, sliceBound_of_not ha]
    rfl
  have stop_fails (ha : a.isSliceBound = true) (hb : b.isSliceBound = false) :
      a.sliceBounds b items.length = .error (b.misused .sliceWith) := by
    obtain ⟨lo, cuts⟩ := exists_cutsAt ha items.length 0
    rw [Value.sliceBounds, sliceBound_of_cutsAt cuts, sliceBound_of_not hb]
    rfl
  refine ⟨fun ha hb => ?_, fun low high bounds => ?_, fun ha => seq.slice_error (start_fails ha),
    fun ha hb => seq.slice_error (stop_fails ha hb)⟩
  · obtain ⟨lo, cuts⟩ := exists_cutsAt ha items.length 0
    obtain ⟨hi, cuts'⟩ := exists_cutsAt hb items.length items.length
    exact ⟨lo, hi, cuts, cuts', seq.slicesTo cuts cuts'⟩
  · cases ha : a.isSliceBound with
    | false =>
        rw [start_fails ha] at bounds
        cases bounds
    | true =>
        cases hb : b.isSliceBound with
        | false =>
            rw [stop_fails ha hb] at bounds
            cases bounds
        | true =>
            obtain ⟨lo, cuts⟩ := exists_cutsAt ha items.length 0
            obtain ⟨hi, cuts'⟩ := exists_cutsAt hb items.length items.length
            rw [sliceBounds_eq cuts cuts'] at bounds
            cases bounds
            exact ⟨Nat.le_max_left _ _, Nat.max_le.mpr ⟨cuts.le (Nat.zero_le _), cuts'.le le_rfl⟩⟩

/-- A number cuts a sequence into the slice before it and the one behind it. -/
theorem IsSequence.slices_append (seq : h.IsSequence v items) (x : Float) :
    ∃ left right, h.SlicesTo v .null (.num x) left ∧ h.SlicesTo v (.num x) .null right ∧
      left ++ right = items := by
  obtain ⟨cut, cuts⟩ := exists_cutsAt (v := .num x) rfl items.length 0
  exact ⟨_, _, seq.slicesTo .null cuts.of_num, seq.slicesTo cuts .null, between_append items cut⟩

end Heap

/-! ## The slice as a value -/

/-- A product that is a sequence gets a place of its own. -/
theorem Product.IsSequenceLike.produce (seq : p.IsSequenceLike v items) (s : State) :
    ∃ w h', s.produce p = { s with control := .value w, heap := h' } ∧ h'.IsSequence w items ∧
      w.typeName = v.typeName ∧ s.heap.Extends h' := by
  cases seq with
  | list items id =>
      refine ⟨_, _, rfl, .list ?_, rfl, .addList s.heap items⟩
      rw [Heap.addList, Array.getElem?_push_size]
  | str part text => exact ⟨_, _, rfl, .str part, rfl, .refl s.heap⟩

/-- A slice as a step of a run: a new value with the items, or an error. Everything that is
in the heap stays there as it is. -/
structure State.SlicesNew (r : Run) (s : State) (v a b : Value) : Prop where
  value : ∀ items, s.heap.SlicesTo v a b items →
    ∃ w h', s.resume r b (.slice v a) = { s with control := .value w, heap := h' } ∧
      h'.IsSequence w items ∧ w.typeName = v.typeName ∧ s.heap.Extends h'
  error : ∀ e, s.heap.slice v a b = .error e →
    s.resume r b (.slice v a) = { s with control := .raise (.error e) }

theorem State.slicesNew (r : Run) (s : State) (v a b : Value) : s.SlicesNew r v a b where
  value items slices := by
    obtain ⟨p, slice, seq⟩ := slices
    obtain ⟨w, h', produced, parts⟩ := seq.produce s
    refine ⟨w, h', ?_, parts⟩
    rw [State.resume, slice]
    exact produced
  error e failed := by
    rw [State.resume, failed]
    rfl

/-- Lists and strings are sliced at null and all numbers, and every number cuts them in
two. Other bounds and other values fail, and nothing that is there is changed. -/
theorem slice_total (h : Heap) :
    (∀ v items, h.IsSequence v items → (∀ a b, h.SlicesItems v items a b) ∧
      ∀ x, ∃ left right, h.SlicesTo v .null (.num x) left ∧ h.SlicesTo v (.num x) .null right ∧
        left ++ right = items) ∧
      (∀ v a b, v.typeName ≠ "list" → v.typeName ≠ "string" →
        h.slice v a b = .error (v.misused .slice)) ∧
      ∀ r s v a b, s.heap = h → State.SlicesNew r s v a b := by
  refine ⟨fun v items seq => ⟨seq.slicesItems, seq.slices_append⟩, ?_, ?_⟩
  · intro v a b list string
    cases v <;> first | rfl | exact absurd rfl list | exact absurd rfl string
  · rintro r s v a b -
    exact s.slicesNew r v a b

end ScriptLang
