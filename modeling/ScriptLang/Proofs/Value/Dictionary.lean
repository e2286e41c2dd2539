import ScriptLang.Proofs.Value.Copy

/-!
# Maps as dictionaries

The entries of a map come from setting keys one after the other. A key that is there gets
its new value where it stands, and a new one comes to the end. So no two keys of a map are
equal, and the map is a dictionary that keeps its keys in the order in which they were first
set, whatever they are: containers are told apart by identity, all other keys by value.

That takes an equality, and the one of keys is one but for not-a-number, which does not
equal itself. Nothing is found under it, and to set it is to add an entry every time.
-/

namespace ScriptLang

/-- The entries of a map after keys were set one after the other. -/
def entriesOf (sets : List (Value × Value)) : List (Value × Value) :=
  sets.foldl (fun entries s => setEntry s.1 s.2 entries) []

/-- One of the entries has the key. -/
def hasKey (key : Value) (entries : List (Value × Value)) : Bool :=
  entries.any fun e => e.1.strictEq key

variable {key k other value : Value} {entries sets : List (Value × Value)}

/-! ## Equality of keys -/

theorem strictEq_self (number : key ≠ .num Number.nan) : key.strictEq key = true := by
  cases key with
  | num x =>
      refine Float.beq_self_iff.mpr ?_
      rintro rfl
      exact number rfl
  | _ => simp [Value.strictEq]

/-- Equal keys are equal to the same ones. -/
theorem strictEq_congr (same : key.strictEq k = true) (v : Value) :
    v.strictEq key = v.strictEq k := by
  rw [Bool.eq_iff_iff]
  exact ⟨fun h => strictEq_trans h same, fun h => strictEq_trans h (strictEq_symm same)⟩

/-! ## Setting a key -/

theorem entriesOf_concat (sets : List (Value × Value)) (key value : Value) :
    entriesOf (sets ++ [(key, value)]) = setEntry key value (entriesOf sets) := by
  rw [entriesOf, List.foldl_concat]
  rfl

/-- A key that is there stays where it is, and a new one comes to the end. -/
theorem keys_setEntry (key value : Value) (entries : List (Value × Value)) :
    (setEntry key value entries).map Prod.fst =
      if hasKey key entries then entries.map Prod.fst else entries.map Prod.fst ++ [key] := by
  induction entries with
  | nil => rfl
  | cons e rest ih =>
      obtain ⟨k, v⟩ := e
      rw [setEntry, hasKey, List.any_cons]
      cases same : k.strictEq key with
      | true => rfl
      | false =>
          rw [if_neg (by simp), List.map_cons, ih, Bool.false_or, ← hasKey]
          split
          · rfl
          · rfl

/-- The value is found that was set. -/
theorem findEntry_setEntry (number : key ≠ .num Number.nan) :
    findEntry key (setEntry key value entries) = some value := by
  induction entries with
  | nil => rw [setEntry, findEntry, if_pos (strictEq_self number)]
  | cons e rest ih =>
      obtain ⟨k, v⟩ := e
      rw [setEntry]
      split
      next same => rw [findEntry, if_pos same]
      next differs => rw [findEntry, if_neg differs, ih]

/-- Under other keys nothing changes. -/
theorem findEntry_setEntry_of_ne (differs : other.strictEq key = false) :
    findEntry other (setEntry key value entries) = findEntry other entries := by
  have apart {k : Value} (same : k.strictEq key = true) : ¬k.strictEq other = true := by
    intro equal
    rw [strictEq_trans (strictEq_symm equal) same] at differs
    cases differs
  induction entries with
  | nil =>
      have unequal : ¬key.strictEq other = true := by
        intro equal
        rw [strictEq_symm equal] at differs
        cases differs
      simp [setEntry, findEntry, unequal]
  | cons e rest ih =>
      obtain ⟨k, v⟩ := e
      rw [setEntry]
      split
      next same => rw [findEntry, findEntry, if_neg (apart same), if_neg (apart same)]
      next => rw [findEntry, findEntry, ih]

/-- The other entries stay as they are. -/
theorem filter_setEntry (number : key ≠ .num Number.nan) :
    (setEntry key value entries).filter (fun e => !e.1.strictEq key) =
      entries.filter fun e => !e.1.strictEq key := by
  induction entries with
  | nil => simp [setEntry, strictEq_self number]
  | cons e rest ih =>
      obtain ⟨k, v⟩ := e
      rw [setEntry]
      split
      next same => simp [same]
      next differs => rw [List.filter_cons, List.filter_cons, ih]

theorem hasKey_setEntry (k key value : Value) (entries : List (Value × Value)) :
    hasKey k (setEntry key value entries) = (hasKey k entries || key.strictEq k) := by
  have keys (entries : List (Value × Value)) :
      hasKey k entries = (entries.map Prod.fst).any fun key => key.strictEq k := by
    rw [hasKey, List.any_map]
    rfl
  rw [keys, keys_setEntry, keys]
  split
  next known =>
    cases same : key.strictEq k with
    | false => rw [Bool.or_false]
    | true =>
        -- an entry with the key `key` is one with the key `k`
        have there : hasKey k entries = true := by
          rw [hasKey] at known ⊢
          simpa only [strictEq_congr same] using known
        rw [← keys, there]
        rfl
  next => rw [List.any_append, List.any_cons, List.any_nil, Bool.or_false]

/-- The keys of a map are those that were set. -/
theorem hasKey_entriesOf (key : Value) (sets : List (Value × Value)) :
    hasKey key (entriesOf sets) = hasKey key sets := by
  induction sets using List.reverseRecOn with
  | nil => rfl
  | append_singleton sets s ih =>
      obtain ⟨k, v⟩ := s
      rw [entriesOf_concat, hasKey_setEntry, ih, hasKey, hasKey, List.any_append, List.any_cons,
        List.any_nil, Bool.or_false]

/-! ## One entry for each key -/

/-- No two keys are equal. -/
theorem keysApart_entriesOf (sets : List (Value × Value)) :
    ((entriesOf sets).map Prod.fst).Pairwise fun a b => a.strictEq b = false := by
  induction sets using List.reverseRecOn with
  | nil => exact .nil
  | append_singleton sets s ih =>
      obtain ⟨k, v⟩ := s
      rw [entriesOf_concat, keys_setEntry]
      split
      · exact ih
      next new =>
        rw [List.pairwise_append]
        refine ⟨ih, List.pairwise_singleton _ _, ?_⟩
        intro a ha b hb
        obtain rfl : b = k := by simpa using hb
        obtain ⟨e, he, rfl⟩ := List.mem_map.mp ha
        rw [hasKey, List.any_eq_true] at new
        exact Bool.eq_false_of_not_eq_true fun same => new ⟨e, he, same⟩

/-- Where no two keys are equal, a key that is there is there once. -/
theorem countP_of_keysApart
    (apart : (entries.map Prod.fst).Pairwise fun a b => a.strictEq b = false)
    (there : hasKey key entries = true) : entries.countP (fun e => e.1.strictEq key) = 1 := by
  induction entries with
  | nil => cases there
  | cons e rest ih =>
      obtain ⟨first, apart⟩ := List.pairwise_cons.mp apart
      rw [hasKey, List.any_cons] at there
      rw [List.countP_cons]
      cases same : e.1.strictEq key with
      | false =>
          rw [same, Bool.false_or] at there
          simpa using ih apart there
      | true =>
          have none : rest.countP (fun e => e.1.strictEq key) = 0 := by
            rw [List.countP_eq_zero]
            intro e' he' same'
            have unequal := first e'.1 (List.mem_map_of_mem he')
            rw [strictEq_trans same (strictEq_symm same')] at unequal
            cases unequal
          simp [none]

/-! ## Maps in the heap -/

namespace Heap

/-- The key of the map `id` is set to a value: the value is found under it, nothing changes
under other keys, and an entry is added if the key was not known, at the end. -/
structure SetsKey (id : Nat) (key value : Value) (known : Bool) (h h' : Heap) : Prop where
  get : h'.get (.map id) key = .ok value
  get_other : ∀ other, other.strictEq key = false →
    h'.get (.map id) other = h.get (.map id) other
  length : ∃ n, h.length (.map id) = .ok n ∧
    h'.length (.map id) = .ok (if known then n else n + 1)
  visited : ∃ keys, h.visited (.map id) = .ok keys ∧
    h'.visited (.map id) = .ok (if known then keys else keys ++ [key])
  entries : ∃ before after, h.visitedEntries (.map id) = .ok before ∧
    h'.visitedEntries (.map id) = .ok after ∧
    after.map Prod.fst =
      (if known then before.map Prod.fst else before.map Prod.fst ++ [key]) ∧
    (after.filter fun e => !e.1.strictEq key) = (before.filter fun e => !e.1.strictEq key) ∧
    after.countP (fun e => e.1.strictEq key) = 1

variable {h : Heap} {id : Nat}

theorem maps_write (at_ : h.maps[id]? = some entries) (key value : Value) :
    (h.write (.entry id key) value).maps[id]? = some (setEntry key value entries) := by
  rw [write, Array.getElem?_modify, if_pos rfl, at_]
  rfl

theorem setsKey_write (built : h.maps[id]? = some (entriesOf sets))
    (number : key ≠ .num Number.nan) (value : Value) :
    SetsKey id key value (hasKey key sets) h (h.write (.entry id key) value) := by
  have before := entries_eq built
  have after := entries_eq (maps_write built key value)
  have keys := keys_setEntry key value (entriesOf sets)
  rw [hasKey_entriesOf] at keys
  refine ⟨?_, ?_, ?_, ?_, ?_⟩
  · rw [get, after, findEntry_setEntry number]
    rfl
  · intro other differs
    rw [get, get, after, before, findEntry_setEntry_of_ne differs]
  · refine ⟨(entriesOf sets).length, by rw [length, before], ?_⟩
    have lengths := congrArg List.length keys
    rw [length, after, ← List.length_map (f := Prod.fst), lengths]
    split <;> simp
  · exact ⟨_, by rw [visited, before], by rw [visited, after, keys]⟩
  · refine ⟨_, _, by rw [visitedEntries, before], by rw [visitedEntries, after], keys,
      filter_setEntry number, ?_⟩
    rw [← entriesOf_concat]
    refine countP_of_keysApart (keysApart_entriesOf _) ?_
    rw [hasKey_entriesOf, hasKey, List.any_append, List.any_cons, strictEq_self number,
      Bool.true_or, Bool.or_true]

/-- A map that comes from setting keys is a dictionary that keeps the order of its keys, and
it is one again after another key is set, of whatever kind, unless it is not-a-number. -/
theorem set_map (built : h.maps[id]? = some (entriesOf sets)) (number : key ≠ .num Number.nan)
    (value : Value) :
    ∃ h', h.set (.map id) key value = .ok h' ∧
      h'.maps[id]? = some (entriesOf (sets ++ [(key, value)])) ∧
      SetsKey id key value (hasKey key sets) h h' := by
  refine ⟨_, rfl, ?_, setsKey_write built number value⟩
  rw [entriesOf_concat]
  exact maps_write built key value

/-- A heap with one map, under a text, a number and a list. -/
def mixedKeys : Heap :=
  { lists := #[#[]], maps := #[entriesOf [(.str "a", .null), (.num 0, .null), (.list 0, .null)]] }

/-- Both zeros are the same key. -/
theorem set_map_mixedKeys :
    mixedKeys.maps[0]? = some (entriesOf [(.str "a", .null), (.num 0, .null), (.list 0, .null)]) ∧
      Value.num (-0) ≠ .num Number.nan ∧
      ∃ h', mixedKeys.set (.map 0) (.num (-0)) (.bool true) = .ok h' ∧
        SetsKey 0 (.num (-0)) (.bool true) true mixedKeys h' := by
  have built : mixedKeys.maps[0]? =
      some (entriesOf [(.str "a", .null), (.num 0, .null), (.list 0, .null)]) := rfl
  have number : Value.num (-0) ≠ .num Number.nan := by decide
  have known :
      hasKey (.num (-0)) [(.str "a", .null), (.num 0, .null), (.list 0, .null)] = true := rfl
  obtain ⟨h', set, -, sets⟩ := set_map built number (.bool true)
  rw [known] at sets
  exact ⟨built, number, h', set, sets⟩

/-- To set not-a-number is to add an entry that is not found, every time. -/
theorem set_map_notANumber :
    let h : Heap := { maps := #[[]] }
    ∃ h' h'', h.set (.map 0) (.num Number.nan) (.bool true) = .ok h' ∧
      h'.get (.map 0) (.num Number.nan) = .ok .null ∧
      h'.set (.map 0) (.num Number.nan) (.bool true) = .ok h'' ∧
      h''.visited (.map 0) = .ok [.num Number.nan, .num Number.nan] := by
  exact ⟨_, _, rfl, rfl, rfl, rfl⟩

end Heap

end ScriptLang
