import Mathlib
import ScriptLang.Command.Tree

/-!
# Files and their names

A file that can be read or written has the last part of its path for a name, wherever the
path leads. So what is written at a path can be read there, and stays while files with
other names are written.
-/

namespace ScriptLang

/-! ## The name at the end of a path -/

namespace Path

/-- What stands after the last slash. -/
def lastPart (p : Path) : String :=
  String.ofList ((splitSlashes p.text.toList).getLastD [])

theorem splitSlashes_cons {c : Char} {rest part : List Char} {parts : List (List Char)}
    (slash : c ≠ '/') (h : splitSlashes rest = part :: parts) :
    splitSlashes (c :: rest) = (c :: part) :: parts := by
  rw [splitSlashes, h]
  exact slash

/-- A text without slashes is one part. -/
theorem splitSlashes_of_not_mem {cs : List Char} (h : '/' ∉ cs) : splitSlashes cs = [cs] := by
  induction cs with
  | nil => rfl
  | cons c rest ih =>
      obtain ⟨first, others⟩ := List.ne_and_not_mem_of_not_mem_cons h
      exact splitSlashes_cons first.symm (ih others)

/-- What is appended without slashes goes to the last part. -/
theorem splitSlashes_append (cs : List Char) {suffix : List Char} (h : '/' ∉ suffix) :
    ∃ parts last, splitSlashes cs = parts ++ [last] ∧
      splitSlashes (cs ++ suffix) = parts ++ [last ++ suffix] := by
  induction cs with
  | nil => exact ⟨[], [], rfl, splitSlashes_of_not_mem h⟩
  | cons c rest ih =>
      obtain ⟨parts, last, before, after⟩ := ih
      by_cases slash : c = '/'
      · subst slash
        exact ⟨[] :: parts, last, congrArg ([] :: ·) before, congrArg ([] :: ·) after⟩
      · cases parts with
        | nil =>
            exact ⟨[], c :: last, splitSlashes_cons slash before, splitSlashes_cons slash after⟩
        | cons part parts =>
            exact ⟨(c :: part) :: parts, last, splitSlashes_cons slash before,
              splitSlashes_cons slash after⟩

/-- A slash begins a new part. -/
theorem splitSlashes_append_slash (cs : List Char) :
    splitSlashes (cs ++ ['/']) = splitSlashes cs ++ [[]] := by
  induction cs with
  | nil => rfl
  | cons c rest ih =>
      by_cases slash : c = '/'
      · subst slash
        exact congrArg ([] :: ·) ih
      · cases parted : splitSlashes rest with
        | nil =>
            obtain ⟨parts, last, before, -⟩ := splitSlashes_append rest List.not_mem_nil
            simp [before] at parted
        | cons part parts =>
            rw [parted] at ih
            rw [List.cons_append, splitSlashes_cons slash ih, splitSlashes_cons slash parted]
            rfl

theorem lastPart_append (text : String) {suffix : String} (h : '/' ∉ suffix.toList) :
    lastPart ⟨text ++ suffix⟩ = lastPart ⟨text⟩ ++ suffix := by
  obtain ⟨parts, last, before, after⟩ := splitSlashes_append text.toList h
  simp [lastPart, before, after]

/-- Nothing stands after the last slash of a path that ends in one. -/
theorem lastPart_eq_empty {p : Path} : p.lastPart = "" ↔ p.text = "" ∨ p.endsInSlash = true := by
  obtain ⟨text⟩ := p
  rcases List.eq_nil_or_concat text.toList with empty | ⟨before, c, shape⟩
  · have : text = "" := String.toList_eq_nil_iff.mp empty
    simp [this, lastPart, splitSlashes]
  · have nonempty : text ≠ "" := by
      rintro rfl
      simp at shape
    simp only [lastPart, endsInSlash, shape, nonempty, false_or]
    by_cases slash : c = '/'
    · subst slash
      simp [splitSlashes_append_slash]
    · have plain : '/' ∉ [c] := by simpa using Ne.symm slash
      obtain ⟨parts, last, -, after⟩ := splitSlashes_append before plain
      simp [after, slash]

/-- A path that does not end in a slash has its last part for its last name. -/
theorem getLast?_parts {p : Path} (h : p.lastPart ≠ "") : p.parts.getLast? = some p.lastPart := by
  obtain ⟨parts, last, before, -⟩ := splitSlashes_append p.text.toList List.not_mem_nil
  have nonempty : last ≠ [] := by
    rintro rfl
    exact h (by simp [lastPart, before])
  simp [Path.parts, lastPart, before, nonempty]

/-! ### Names of outputs -/

theorem not_mem_of_mem_splitSlashes {cs part : List Char} (h : part ∈ splitSlashes cs) :
    '/' ∉ part := by
  induction cs generalizing part with
  | nil => simp_all [splitSlashes]
  | cons c rest ih =>
      by_cases slash : c = '/'
      · subst slash
        rcases List.mem_cons.mp h with rfl | later
        · exact List.not_mem_nil
        · exact ih later
      · cases parted : splitSlashes rest with
        | nil =>
            obtain ⟨parts, last, before, -⟩ := splitSlashes_append rest List.not_mem_nil
            simp [before] at parted
        | cons first parts =>
            rw [splitSlashes_cons slash parted] at h
            rcases List.mem_cons.mp h with rfl | later
            · have free : '/' ∉ first := ih (parted ▸ List.mem_cons_self)
              simp [free, Ne.symm slash]
            · exact ih (parted ▸ List.mem_cons_of_mem _ later)

theorem not_mem_of_mem_parts {p : Path} {name : String} (h : name ∈ p.parts) :
    '/' ∉ name.toList := by
  obtain ⟨part, mem, rfl⟩ := List.mem_map.mp h
  rw [String.toList_ofList]
  exact not_mem_of_mem_splitSlashes (List.mem_filter.mp mem).1

theorem mem_of_mem_stemOf {name : String} {c : Char} (h : c ∈ (stemOf name).toList) :
    c ∈ name.toList := by
  rw [stemOf] at h
  split at h
  · exact h
  · exact h
  next point stem _ dropped =>
    rw [String.toList_ofList, List.mem_reverse] at h
    have kept : c ∈ name.toList.reverse.dropWhile (· ≠ '.') := by
      rw [dropped]
      exact List.mem_cons_of_mem _ h
    exact List.mem_reverse.mp ((List.dropWhile_suffix _).subset kept)

theorem not_mem_of_stem? {p : Path} {stem : String} (h : p.stem? = some stem) :
    '/' ∉ stem.toList := by
  obtain ⟨name, named, rfl⟩ := Option.map_eq_some_iff.mp h
  have last : p.steps.getLast? = some name := (Option.filter_eq_some_iff.mp named).1
  have part : name ∈ p.parts := (List.mem_filter.mp (List.mem_of_getLast? last)).1
  exact fun slash => not_mem_of_mem_parts part (mem_of_mem_stemOf slash)

theorem lastPart_join {directory inner : Path} (h : '/' ∉ inner.text.toList) :
    (directory.join inner).lastPart = inner.text := by
  have relative : inner.isAbsolute = false := by
    cases shape : inner.text.toList with
    | nil => simp [isAbsolute, shape]
    | cons c rest =>
        rw [shape] at h
        simpa [isAbsolute, shape] using (List.ne_and_not_mem_of_not_mem_cons h).1.symm
  rw [join, relative, if_neg Bool.false_ne_true]
  by_cases ready : directory.text = "" ∨ directory.endsInSlash = true
  · rw [if_pos ready, lastPart_append _ h, lastPart_eq_empty.mpr ready, String.empty_append]
  · have ended : lastPart ⟨directory.text ++ "/"⟩ = "" :=
      lastPart_eq_empty.mpr (.inr (by simp [endsInSlash]))
    rw [if_neg ready, lastPart_append _ h, ended, String.empty_append]

theorem lastPart_moduleIn {input : Path} {stem : String} (h : input.stem? = some stem)
    (directory : Path) : (moduleIn directory input).lastPart = stem ++ ".mjs" := by
  rw [moduleIn, h, Option.getD_some]
  refine lastPart_join ?_
  simpa using not_mem_of_stem? h

theorem lastPart_dumpBeside (p : Path) : p.dumpBeside.lastPart = p.lastPart ++ ".ast.json" :=
  lastPart_append p.text (by decide)

end Path

/-! ## Files in a tree -/

namespace Tree

variable {t t' : Tree} {p q : Path} {text : String} {location : Location} {entry : Entry}

theorem entry_put_self (h : location ≠ []) :
    Tree.entry? (t.put location entry) location = some entry := by
  cases location with
  | nil => exact absurd rfl h
  | cons name rest => simp [ entry?, put]

theorem entry_put_of_ne {other : Location} (h : other ≠ location) :
    Tree.entry? (t.put location entry) other = t.entry? other := by
  cases other with
  | nil => rfl
  | cons name rest =>
      simp only [ entry?, put, List.lookup_cons, beq_eq_false_iff_ne.mpr h]
      induction t.entries with
      | nil => rfl
      | cons first entries ih =>
          by_cases same : first.1 = location
          · have skipped : (name :: rest == first.1) = false :=
              beq_eq_false_iff_ne.mpr (same ▸ h)
            rw [List.filter_cons_of_neg (by simpa using same), List.lookup_cons, skipped, ih]
          · rw [List.filter_cons_of_pos (by simpa using same), List.lookup_cons,
              List.lookup_cons, ih]

theorem mem_entries_of_entry (h : t.entry? location = some (.file text)) :
    (location, .file text) ∈ t.entries := by
  cases location with
  | nil => cases h
  | cons name rest =>
      have found : t.entries.lookup (name :: rest) = some (.file text) := h
      generalize t.entries = entries at found
      induction entries with
      | nil => cases found
      | cons first entries ih =>
          obtain ⟨key, entry⟩ := first
          rw [List.lookup_cons] at found
          split at found
          next same =>
            obtain rfl := Option.some.inj found
            obtain rfl := beq_iff_eq.mp same
            exact List.mem_cons_self
          next => exact List.mem_cons_of_mem _ (ih found)

section Outcome

variable {α β : Type} {x : Except Fault α} {f : α → Except Fault β} {a : α} {b : β} {fault : Fault}

theorem bind_eq_ok : (x >>= f) = .ok b ↔ ∃ a, x = .ok a ∧ f a = .ok b := by
  cases x with
  | error fault => simp [bind, Except.bind]
  | ok a => simp [bind, Except.bind]

theorem throw_ne_ok : (throw fault : Except Fault α) ≠ .ok a := by
  intro h
  cases h

end Outcome

/-- Where a path begins. -/
def start (t : Tree) (p : Path) : Location := if p.isAbsolute then [] else t.workingDirectory

/-- Where the last part of a path leads from the directory that the others lead to. -/
def arrival (p : Path) (directory : Location) : Except Fault Destination :=
  match p.parts.getLast? with
  | none | some "." => .ok (.directory directory)
  | some ".." => .ok (.directory directory.dropLast)
  | some name =>
    if name.utf8ByteSize > maxNameSize then .error .nameTooLong else .ok (.inside directory name)

/-- A path is located by a walk to its last part. -/
theorem locate_eq (t : Tree) (p : Path) : t.locate p =
    if p.text.utf8ByteSize > maxPathSize then .error .nameTooLong
    else if p.text = "" then .error .missing
    else (t.walk (t.start p) p.parts.dropLast).bind (arrival p) := by
  have arrives (directory : Location) : arrival p directory = (do
      match p.parts.getLast? with
      | none | some "." => return .directory directory
      | some ".." => return .directory directory.dropLast
      | some name =>
        if name.utf8ByteSize > maxNameSize then throw .nameTooLong
        return .inside directory name) := by
    rw [arrival]
    split
    · rfl
    · rfl
    · rfl
    · split_ifs <;> rfl
  rw [locate, start, funext arrives]
  by_cases long : p.text.utf8ByteSize > maxPathSize
  · rw [if_pos long, if_pos long]
    rfl
  · by_cases empty : p.text = ""
    · rw [if_neg long, if_neg long, if_pos empty, if_pos empty]
      rfl
    · rw [if_neg long, if_neg long, if_neg empty, if_neg empty]
      cases p.isAbsolute <;> rfl

theorem locate_eq_ok {d : Destination} : t.locate p = .ok d ↔
    p.text.utf8ByteSize ≤ maxPathSize ∧ p.text ≠ "" ∧
      ∃ directory, t.walk (t.start p) p.parts.dropLast = .ok directory ∧
        arrival p directory = .ok d := by
  rw [locate_eq]
  split_ifs with long empty
  · simp [Nat.not_le.mpr long]
  · simp [empty]
  · cases t.walk (t.start p) p.parts.dropLast with
    | error fault => simp [Except.bind]
    | ok directory => simp [Except.bind, Nat.not_lt.mp long, empty]

theorem getLast?_of_arrival {directory directory' : Location} {name : String}
    (h : arrival p directory = .ok (.inside directory' name)) :
    p.parts.getLast? = some name ∧ name ≠ "." ∧ name ≠ ".." := by
  rw [arrival] at h
  split at h
  · cases h
  · cases h
  · cases h
  next last point up ended =>
    split_ifs at h
    cases h
    exact ⟨ended, point, up⟩

/-- The text that is read stands in a file at the end of the path. -/
theorem read_eq_ok : t.read p = .ok text ↔ ∃ directory name,
    t.locate p = .ok (.inside directory name) ∧
      t.entry? (directory ++ [name]) = some (.file text) ∧ p.endsInSlash = false := by
  rw [read, bind_eq_ok]
  constructor
  · rintro ⟨directory | ⟨directory, name⟩, located, found⟩
    · exact absurd found throw_ne_ok
    · refine ⟨directory, name, located, ?_⟩
      dsimp only at found
      split at found
      · exact absurd found throw_ne_ok
      · exact absurd found throw_ne_ok
      next there =>
        split_ifs at found with slash
        cases found
        exact ⟨there, Bool.eq_false_of_not_eq_true slash⟩
  · rintro ⟨directory, name, located, there, slash⟩
    refine ⟨_, located, ?_⟩
    simp only [there, slash, Bool.false_eq_true, if_false]
    rfl

/-- A text is written to a file at the end of the path, where no directory stands. -/
theorem write_eq_ok : t.write p text = .ok t' ↔ ∃ directory name,
    t.locate p = .ok (.inside directory name) ∧
      t.entry? (directory ++ [name]) ≠ some .directory ∧ p.endsInSlash = false ∧
        t' = t.put (directory ++ [name]) (.file text) := by
  rw [write, bind_eq_ok]
  constructor
  · rintro ⟨directory | ⟨directory, name⟩, located, written⟩
    · exact absurd written throw_ne_ok
    · refine ⟨directory, name, located, ?_⟩
      dsimp only at written
      split_ifs at written with taken
      · exact absurd written throw_ne_ok
      · obtain ⟨slash, free⟩ := not_or.mp taken
        cases written
        exact ⟨free, Bool.eq_false_of_not_eq_true slash, rfl⟩
  · rintro ⟨directory, name, located, free, slash, rfl⟩
    refine ⟨_, located, ?_⟩
    simp only [free, slash, Bool.false_eq_true, or_self, if_false]
    rfl

/-- A file has the last part of its path for a name. -/
theorem name_of_locate {directory : Location} {name : String}
    (h : t.locate p = .ok (.inside directory name)) (slash : p.endsInSlash = false) :
    p.lastPart = name := by
  obtain ⟨-, nonempty, _, -, arrives⟩ := locate_eq_ok.mp h
  have last : p.lastPart ≠ "" := by simp [Path.lastPart_eq_empty, nonempty, slash]
  have ended := (getLast?_of_arrival arrives).1
  rw [Path.getLast?_parts last] at ended
  exact Option.some.inj ended

/-- What can be read has a stem. -/
theorem exists_stem?_of_read (h : t.read p = .ok text) : ∃ stem, p.stem? = some stem := by
  obtain ⟨directory, name, located, -, -⟩ := read_eq_ok.mp h
  obtain ⟨-, -, _, -, arrives⟩ := locate_eq_ok.mp located
  obtain ⟨ended, point, up⟩ := getLast?_of_arrival arrives
  obtain ⟨before, parts⟩ := List.getLast?_eq_some_iff.mp ended
  refine ⟨Path.stemOf name, ?_⟩
  simp [Path.stem?, Path.lastName?, Path.steps, parts, point, up]

/-! ## Writing -/

/-- Relative paths begin where they did, and what was a directory still is one. -/
structure Keeps (t t' : Tree) : Prop where
  workingDirectory : t'.workingDirectory = t.workingDirectory
  directories : ∀ location, t.entry? location = some .directory →
    t'.entry? location = some .directory

namespace Keeps

theorem walk (h : Keeps t t') {start reached : Location} {names : List String}
    (walked : t.walk start names = .ok reached) : t'.walk start names = .ok reached := by
  fun_induction Tree.walk t start names with
  | case1 start => exact walked
  | case2 start rest ih => exact ih walked
  | case3 start rest ih => exact ih walked
  | case4 => cases walked
  | case5 => cases walked
  | case6 => cases walked
  | case7 start name rest point up short there ih =>
      rw [Tree.walk, if_neg short, h.directories _ there]
      · exact ih walked
      · exact point
      · exact up

theorem locate (h : Keeps t t') {d : Destination} (located : t.locate p = .ok d) :
    t'.locate p = .ok d := by
  obtain ⟨short, nonempty, directory, walked, arrives⟩ := locate_eq_ok.mp located
  have start : t'.start p = t.start p := by rw [Tree.start, Tree.start, h.workingDirectory]
  exact locate_eq_ok.mpr ⟨short, nonempty, directory, start ▸ h.walk walked, arrives⟩

end Keeps

theorem keeps_put (h : t.entry? location ≠ some .directory) : t.Keeps (t.put location entry) where
  workingDirectory := rfl
  directories other there := by
    have apart : other ≠ location := by
      rintro rfl
      exact h there
    rw [entry_put_of_ne apart, there]

theorem read_write_self (h : t.write p text = .ok t') : t'.read p = .ok text := by
  obtain ⟨directory, name, located, free, slash, rfl⟩ := write_eq_ok.mp h
  exact read_eq_ok.mpr ⟨directory, name, (keeps_put free).locate located,
    entry_put_self (by simp), slash⟩

/-- Writing a file changes no file with another name. -/
theorem read_write_of_ne {other : String} (h : t.write q other = .ok t')
    (read : t.read p = .ok text) (apart : p.lastPart ≠ q.lastPart) : t'.read p = .ok text := by
  obtain ⟨directory, name, located, free, slash, rfl⟩ := write_eq_ok.mp h
  obtain ⟨directory', name', located', there, slash'⟩ := read_eq_ok.mp read
  have names : name' ≠ name := by
    rwa [← name_of_locate located slash, ← name_of_locate located' slash']
  refine read_eq_ok.mpr ⟨directory', name', (keeps_put free).locate located', ?_, slash'⟩
  rw [entry_put_of_ne (by simp [names]), there]

/-- Files with different names that can be read are at different places. -/
theorem locate_ne {text' : String} (hp : t.read p = .ok text)
    (hq : t.read q = .ok text') (apart : p.lastPart ≠ q.lastPart) : t.locate p ≠ t.locate q := by
  obtain ⟨directory, name, located, -, slash⟩ := read_eq_ok.mp hp
  obtain ⟨directory', name', located', -, slash'⟩ := read_eq_ok.mp hq
  rw [name_of_locate located slash, name_of_locate located' slash'] at apart
  rw [located, located']
  simp [apart]

end Tree

end ScriptLang
