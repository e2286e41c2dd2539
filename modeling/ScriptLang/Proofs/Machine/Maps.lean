import ScriptLang.Proofs.Machine.CallDepth
import ScriptLang.Proofs.Value.Dictionary

/-!
# The maps of a run

Every map that a running program has made is a dictionary: its entries come from setting
keys, one after the other. A map literal sets its keys as their values are found, with the
entries so far in the pending work, and an assignment to an element sets one key more.
Nothing else makes or changes a map.
-/

namespace ScriptLang

/-- The entries come from setting keys. -/
def IsDictionary (entries : List (Value × Value)) : Prop := ∃ sets, entries = entriesOf sets

theorem isDictionary_nil : IsDictionary [] := ⟨[], rfl⟩

theorem IsDictionary.set {entries : List (Value × Value)} (h : IsDictionary entries)
    (key value : Value) : IsDictionary (setEntry key value entries) := by
  obtain ⟨sets, rfl⟩ := h
  exact ⟨sets ++ [(key, value)], (entriesOf_concat sets key value).symm⟩

/-- What a literal finds is a dictionary if what it has found is one. -/
theorem Job.Finds.isDictionary {j : Job} {entries : List (Value × Value)} (h : j.Finds entries)
    (hj : ∀ found ∈ j.found, IsDictionary found) : IsDictionary entries := by
  cases h with
  | start => exact isDictionary_nil
  | same found => exact hj _ found
  | set key value found => exact (hj _ found).set key value

namespace Heap

/-- All maps are dictionaries. -/
def HasDictionaries (h : Heap) : Prop := ∀ entries ∈ h.maps, IsDictionary entries

variable {h : Heap}

theorem HasDictionaries.addMap (dictionaries : h.HasDictionaries)
    {entries : List (Value × Value)} (new : IsDictionary entries) :
    (h.addMap entries).HasDictionaries := by
  intro e he
  rcases Array.mem_push.mp he with old | rfl
  · exact dictionaries e old
  · exact new

theorem HasDictionaries.write (dictionaries : h.HasDictionaries) (p : Place) (value : Value) :
    (h.write p value).HasDictionaries := by
  cases p with
  | item => exact dictionaries
  | entry id key =>
      intro e he
      obtain ⟨i, at_⟩ := Array.mem_iff_getElem?.mp he
      rw [Heap.write, Array.getElem?_modify] at at_
      split at at_
      · obtain ⟨old, found, rfl⟩ := Option.map_eq_some_iff.mp at_
        exact (dictionaries old (Array.mem_of_getElem? found)).set key value
      · exact dictionaries e (Array.mem_of_getElem? at_)

end Heap

namespace State

/-- All maps are dictionaries, and so will be those under way. -/
structure BuildsMaps (s : State) : Prop where
  maps : s.heap.HasDictionaries
  pending : ∀ p ∈ s.pending, ∀ found ∈ p.found?, IsDictionary found

namespace BuildsMaps

variable {s : State} (h : BuildsMaps s)

include h

/-- Only pending work and maps are of account. -/
theorem congr {t : State} (pending : t.pending = s.pending)
    (maps : t.heap.maps = s.heap.maps) : BuildsMaps t := by
  refine ⟨?_, pending ▸ h.pending⟩
  intro entries mem
  exact h.maps entries (maps ▸ mem)

theorem push {p : Pending} (hp : ∀ found ∈ p.found?, IsDictionary found) :
    BuildsMaps { s with pending := p :: s.pending } :=
  ⟨h.maps, List.forall_mem_cons.mpr ⟨hp, h.pending⟩⟩

/-- The work on top is taken off before it goes on. -/
theorem pop {p : Pending} {rest : List Pending} (hp : s.pending = p :: rest) :
    BuildsMaps { s with pending := rest } ∧ ∀ found ∈ p.found?, IsDictionary found := by
  obtain ⟨top, below⟩ := List.forall_mem_cons.mp (hp ▸ h.pending)
  exact ⟨⟨h.maps, below⟩, top⟩

/-- A literal sets its next key, and an assignment one of a map; no other change of a step
is about maps. -/
theorem does {j : Job} {w : Wait} {t : State} (d : j.Does w s t)
    (hj : ∀ found ∈ j.found, IsDictionary found) : BuildsMaps t := by
  induction d with
  | goto | raise => exact h.congr rfl rfl
  | push _ _ _ _ hm _ ih => exact ih (h.push fun found mem => (hm found mem).isDictionary hj)
  | addMap hm _ ih => exact ih ⟨h.maps.addMap (hm.isDictionary hj), h.pending⟩
  | write p v _ ih => exact ih ⟨h.maps.write p v, h.pending⟩
  | bind _ _ _ ih | close _ _ ih | addList _ _ ih | print _ _ _ ih => exact ih (h.congr rfl rfl)

theorem enterBody (o : Options) (frame : Frame) (outer : Env) (body : List Stmt) :
    BuildsMaps (enterBody o s frame outer body) := by
  rcases enterBody_runs o s frame outer body with ⟨-, pending⟩ | ⟨rest, last, -, -, -, pending⟩
  · exact h.congr pending maps_enterBody
  · exact (h.push (p := .trailing last) (by simp [Pending.found?])).congr pending maps_enterBody

/-- Every step keeps all maps dictionaries. -/
theorem next (r : Run) : BuildsMaps (s.next r) := by
  have step := advances_next r s
  generalize s.next r = t at step ⊢
  cases step with
  | ended | endless => exact h
  | begin _ _ _ d => exact h.does d nofun
  | use _ hp _ d => exact (h.pop hp).1.does d (h.pop hp).2
  | pass _ hp => exact (h.pop hp).1
  | call =>
      have called : BuildsMaps
          { s with pending := .caller s.env :: s.pending, depth := s.depth + 1 } :=
        (h.push (p := .caller s.env) nofun).congr rfl rfl
      exact called.enterBody _ _ _ _
  | overflow => exact h.congr rfl rfl
  | leave _ hp => exact (h.pop hp).1.congr rfl rfl

end BuildsMaps

theorem buildsMaps_after (r : Run) (program : List Stmt) (n : Nat) :
    BuildsMaps (after r program n) := by
  induction n with
  | zero =>
      have start : BuildsMaps ⟨.flow .normal, [], [0], 0, #[builtinFrame], {}, "", ""⟩ :=
        ⟨by simp [Heap.HasDictionaries], by simp⟩
      exact start.enterBody r.options _ [0] program
  | succ n ih => exact ih.next r

/-- No two keys of a map that a program has made are equal. -/
theorem keysApart_of_run (r : Run) (program : List Stmt) (n : Nat) :
    ∀ entries ∈ (after r program n).heap.maps,
      (entries.map Prod.fst).Pairwise fun a b => a.strictEq b = false := by
  intro entries mem
  obtain ⟨sets, rfl⟩ := (buildsMaps_after r program n).maps entries mem
  exact keysApart_entriesOf sets

end State

end ScriptLang
