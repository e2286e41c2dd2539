import ScriptLang.Proofs.Command.FaultyInput
import ScriptLang.Proofs.Command.Files

/-!
# Outputs are kept

What an invocation writes can be read when it is done, as long as no two of its files
have the same name. The name of a file comes from the stem of its input, so the inputs
have to have different stems where there are several; the directories they are in play
no part. Two inputs with one stem go to one file, and the module of the first is lost.
-/

namespace ScriptLang

namespace Session

variable {s s' : Session} {effect : Effect} {rest : List Effect} {files : List (Path × String)}
  {p : Path} {text : String}

theorem actAll_cons_eq : s.actAll (effect :: rest) = (s', none) ↔
    ∃ m, s.act effect = (m, none) ∧ m.actAll rest = (s', none) := by
  rw [actAll]
  rcases s.act effect with ⟨m, _ | failure⟩ <;> simp

theorem write_of_act (h : s.act (.write p text) = (s', none)) :
    s.tree.write p text = .ok s'.tree := by
  rw [act] at h
  cases written : s.tree.write p text with
  | error fault => simp [written] at h
  | ok tree =>
      rw [written] at h
      cases h
      rfl

/-- Writing the files of a list. -/
def writes (files : List (Path × String)) : List Effect := files.map fun f => .write f.1 f.2

/-- A file stays as it is while others are written. -/
theorem read_of_writes (done : s.actAll (writes files) = (s', none))
    (read : s.tree.read p = .ok text) (apart : ∀ f ∈ files, p.lastPart ≠ f.1.lastPart) :
    s'.tree.read p = .ok text := by
  induction files generalizing s with
  | nil =>
      cases done
      exact read
  | cons f files ih =>
      obtain ⟨first, others⟩ := List.forall_mem_cons.mp apart
      obtain ⟨m, acted, done⟩ := actAll_cons_eq.mp done
      exact ih done (Tree.read_write_of_ne (write_of_act acted) read first) others

/-- Files that were all written can all be read, if no two of them have the same name. -/
theorem read_of_mem_writes (done : s.actAll (writes files) = (s', none))
    (names : (files.map fun f => f.1.lastPart).Nodup) :
    ∀ f ∈ files, s'.tree.read f.1 = .ok f.2 := by
  induction files generalizing s with
  | nil => exact List.forall_mem_nil _
  | cons f files ih =>
      obtain ⟨m, acted, done⟩ := actAll_cons_eq.mp done
      obtain ⟨first, others⟩ := List.nodup_cons.mp names
      refine List.forall_mem_cons.mpr ⟨?_, ih done others⟩
      refine read_of_writes done (Tree.read_write_self (write_of_act acted)) fun g hg same => ?_
      exact first (List.mem_map.mpr ⟨g, hg, same.symm⟩)

end Session

/-! ## Files of an invocation -/

/-- The program at the path with the text emitted for it. -/
def Tree.compiled (t : Tree) (o : Options) (p : Path) : Compiled :=
  ((t.source p).compile o).toOption.getD ⟨p.text, [], ""⟩

namespace Invocation

variable {i : Invocation} {steps : Nat} {t : Tree} {s : Session} {p : Path}

/-- The files for one compiled input, with their texts. -/
def files (i : Invocation) (input : Path) (c : Compiled) : List (Path × String) :=
  let place := Path.moduleFor i.target i.single input
  (place, c.moduleText) :: if i.dumps then [(place.dumpBeside, dump c.program)] else []

theorem outputs_eq (input : Path) (c : Compiled) :
    i.outputs input c = Session.writes (i.files input c) := by
  rw [outputs, files]
  cases i.dumps <;> rfl

/-- Where the files for an input go. -/
def places (i : Invocation) (input : Path) : List Path :=
  let place := Path.moduleFor i.target i.single input
  place :: if i.dumps then [place.dumpBeside] else []

/-- All files of an invocation that compiles its inputs. -/
def allFiles (i : Invocation) (t : Tree) : List (Path × String) :=
  i.inputs.flatMap fun p => i.files p (t.compiled i.options p)

theorem map_fst_files (input : Path) (c : Compiled) :
    (i.files input c).map Prod.fst = i.places input := by
  rw [files, places]
  cases i.dumps <;> rfl

theorem map_fst_allFiles (t : Tree) :
    (i.allFiles t).map Prod.fst = i.inputs.flatMap i.places := by
  simp only [allFiles, List.map_flatMap, map_fst_files]

theorem compile_of_not_refuses {o : Options} {text : String} (read : t.read p = .ok text)
    (accepted : ∀ reason, ¬ t.Refuses o p reason) :
    compile o p.text (withFinalNewline text) = .ok (t.compiled o p) := by
  cases compiled : compile o p.text (withFinalNewline text) with
  | error reason => exact absurd ⟨text, read, compiled⟩ (accepted reason)
  | ok c =>
      rw [Tree.compiled, Tree.source_of_read read, Source.compile, Source.programText, compiled]
      rfl

/-- An invocation that succeeds could read its inputs. -/
theorem readable_of_perform (done : i.perform steps t = (s, none)) (hp : p ∈ i.inputs) :
    ∃ text, t.read p = .ok text := by
  cases read : t.read p with
  | ok text => exact ⟨text, rfl⟩
  | error fault =>
      have unreadable : ∃ p ∈ i.inputs, ∃ fault, t.IsUnreadable p fault := ⟨p, hp, fault, read⟩
      obtain ⟨q, fault, first⟩ := exists_isFirstFault unreadable
      rw [perform_of_unreadable first] at done
      cases done

/-- An invocation that writes modules and succeeds could compile its inputs. -/
theorem compile_of_perform (compiles : i.runs = false) (done : i.perform steps t = (s, none))
    (hp : p ∈ i.inputs) : ∃ text, t.read p = .ok text ∧
      compile i.options p.text (withFinalNewline text) = .ok (t.compiled i.options p) := by
  obtain ⟨text, read⟩ := readable_of_perform done hp
  refine ⟨text, read, compile_of_not_refuses read fun reason refuses => ?_⟩
  have refused : ∃ p ∈ i.inputs, ∃ reason, t.Refuses i.options p reason :=
    ⟨p, hp, reason, refuses⟩
  obtain ⟨q, reason, first⟩ := exists_isFirstFault refused
  rw [perform_of_refuses compiles (fun p hp => readable_of_perform done hp) first] at done
  cases done

/-- The plan for inputs that compile ends with writing the files of all of them. -/
theorem writing_eq (compiled : (i.inputs.map t.source).mapM (Source.compile i.options) =
      .ok (i.inputs.map (t.compiled i.options))) :
    i.writing (i.inputs.map t.source) =
      ⟨if i.single then Session.writes (i.allFiles t)
        else .makeDirectories i.target :: Session.writes (i.allFiles t), none⟩ := by
  rw [writing, compiled]
  simp [List.zip_map', List.flatMap_map, allFiles, Session.writes, List.map_flatMap, outputs_eq,
    Tree.source]

/-- The last that an invocation does is to write the files of all inputs. -/
theorem writes_of_perform (compiles : i.runs = false) (done : i.perform steps t = (s, none)) :
    ∃ m : Session, m.actAll (Session.writes (i.allFiles t)) = (s, none) := by
  have compiled : (i.inputs.map t.source).mapM (Source.compile i.options) =
      .ok (i.inputs.map (t.compiled i.options)) := by
    rw [List.mapM_map]
    refine mapM_eq_ok fun p hp => ?_
    obtain ⟨text, read, compiled⟩ := compile_of_perform compiles done hp
    change Source.compile i.options (t.source p) = _
    rw [Tree.source_of_read read, Source.compile, Source.programText, compiled]
    rfl
  rw [perform, Tree.load_of_readable fun p hp => readable_of_perform done hp] at done
  simp only [plan, compiles, if_neg Bool.false_ne_true, writing_eq compiled,
    Session.carryOut] at done
  split at done
  next m acted =>
    cases done
    cases single : i.single with
    | true =>
        rw [single, if_pos rfl] at acted
        exact ⟨_, acted⟩
    | false =>
        rw [single, if_neg Bool.false_ne_true] at acted
        obtain ⟨m, -, acted⟩ := Session.actAll_cons_eq.mp acted
        exact ⟨m, acted⟩
  next => cases done

/-! ### Names of files -/

/-- The name of the module for an input. -/
def moduleName (i : Invocation) (input : Path) : String :=
  (Path.moduleFor i.target i.single input).lastPart

theorem names_files (input : Path) (c : Compiled) :
    (i.files input c).map (fun f => f.1.lastPart) =
      i.moduleName input :: if i.dumps then [i.moduleName input ++ ".ast.json"] else [] := by
  rw [files, moduleName]
  cases i.dumps with
  | false => rfl
  | true => simp [Path.lastPart_dumpBeside]

theorem append_dump_ne (name : String) : name ≠ name ++ ".ast.json" := by
  intro same
  have lengths := congrArg String.length same
  simp at lengths

/-- Where there are several inputs, a module has the stem of its input for a name. -/
theorem moduleName_of_stem? {stem : String} (several : i.single = false)
    (h : p.stem? = some stem) : i.moduleName p = stem ++ ".mjs" := by
  rw [moduleName, Path.moduleFor, several, if_neg Bool.false_ne_true, Path.lastPart_moduleIn h]

/-- Inputs with different stems have files with different names. -/
theorem disjoint_names {q : Path} {stem stem' : String} (several : i.single = false)
    (hp : p.stem? = some stem) (hq : q.stem? = some stem') (apart : stem ≠ stem')
    (c c' : Compiled) :
    ((i.files p c).map fun f => f.1.lastPart).Disjoint
      ((i.files q c').map fun f => f.1.lastPart) := by
  have kinds (x y : String) : x ++ ".mjs" ≠ y ++ ".mjs" ++ ".ast.json" := by
    intro same
    have ends := congrArg (fun text => text.toList.getLast?) same
    simp at ends
  rw [names_files, names_files, moduleName_of_stem? several hp, moduleName_of_stem? several hq]
  cases i.dumps with
  | false => simp [apart.symm]
  | true => simp [apart.symm, kinds, (kinds _ _).symm]

/-- No two files of an invocation have the same name, if no two inputs have the same stem. -/
theorem nodup_names (readable : ∀ p ∈ i.inputs, ∃ stem, p.stem? = some stem)
    (stems : (i.inputs.map Path.stem?).Nodup) :
    ((i.allFiles t).map fun f => f.1.lastPart).Nodup := by
  have each (p : Path) (c : Compiled) : ((i.files p c).map fun f => f.1.lastPart).Nodup := by
    rw [names_files]
    cases i.dumps with
    | false => exact List.nodup_singleton _
    | true => simp [append_dump_ne]
  rw [allFiles, List.map_flatMap, List.nodup_flatMap]
  refine ⟨fun p _ => each p _, ?_⟩
  cases several : i.single with
  | true =>
      obtain ⟨p, inputs⟩ := List.length_eq_one_iff.mp (beq_iff_eq.mp several)
      rw [inputs]
      exact List.pairwise_singleton _ _
  | false =>
      refine List.Pairwise.imp_of_mem ?_ (List.pairwise_map.mp stems)
      intro p q hp hq apart
      obtain ⟨stem, named⟩ := readable p hp
      obtain ⟨stem', named'⟩ := readable q hq
      refine disjoint_names several named named' ?_ _ _
      rintro rfl
      exact apart (named.trans named'.symm)

end Invocation

theorem exists_program_of_compile {o : Options} {name source : String} {c : Compiled}
    (h : compile o name source = .ok c) :
    ∃ program, parse o source = .ok program ∧ c = ⟨name, program, generate o name program⟩ := by
  rw [compile] at h
  cases parsed : parse o source with
  | error reason => simp [parsed, bind, Except.bind] at h
  | ok program =>
      rw [parsed] at h
      cases h
      exact ⟨program, rfl, rfl⟩

/-- After an invocation that succeeds every input has its module, and its dump where dumps
were asked for, if no two inputs have the same stem. No two of these files are at the same
place. In a tree, a place has one name: there are no links, and case matters. -/
theorem outputs_kept (i : Invocation) (steps : Nat) (t : Tree) (s : Session)
    (compiles : i.runs = false) (stems : (i.inputs.map Path.stem?).Nodup)
    (done : i.perform steps t = (s, none)) :
    (∀ p ∈ i.inputs, ∃ text program, t.read p = .ok text ∧
      parse i.options (withFinalNewline text) = .ok program ∧
      s.tree.read (Path.moduleFor i.target i.single p) =
        .ok (Target.preamble ++ bannerLine p.text ++ "(function () \x7b\n" ++
          generate i.options p.text program ++ "\x7d)();\n") ∧
      (i.dumps = true →
        s.tree.read (Path.moduleFor i.target i.single p).dumpBeside = .ok (dump program))) ∧
    (i.inputs.flatMap i.places).Pairwise fun p q => s.tree.locate p ≠ s.tree.locate q := by
  obtain ⟨m, written⟩ := Invocation.writes_of_perform compiles done
  have names : ((i.allFiles t).map fun f => f.1.lastPart).Nodup := by
    refine Invocation.nodup_names (fun q hq => ?_) stems
    obtain ⟨text, read⟩ := Invocation.readable_of_perform done hq
    exact Tree.exists_stem?_of_read read
  have kept := Session.read_of_mem_writes written names
  constructor
  · intro p hp
    obtain ⟨text, read, compiled⟩ := Invocation.compile_of_perform compiles done hp
    obtain ⟨program, parsed, shape⟩ := exists_program_of_compile compiled
    have mine (f : Path × String) (hf : f ∈ i.files p (t.compiled i.options p)) :
        s.tree.read f.1 = .ok f.2 := kept f (List.mem_flatMap.mpr ⟨p, hp, hf⟩)
    rw [shape] at mine
    refine ⟨text, program, read, parsed, mine _ List.mem_cons_self, fun dumps => ?_⟩
    refine mine (_, _) (List.mem_cons_of_mem _ ?_)
    rw [dumps, if_pos rfl]
    exact List.mem_singleton_self _
  · rw [← Invocation.map_fst_allFiles t, List.pairwise_map]
    refine List.Pairwise.imp_of_mem ?_ (List.pairwise_map.mp names)
    intro f g hf hg apart
    exact Tree.locate_ne (kept f hf) (kept g hg) apart

/-- Two inputs in different directories. -/
def twoDirectories : Tree :=
  ⟨[], [(["a"], .directory), (["a", "x.va"], .file "x = 1"), (["out"], .directory),
    (["b"], .directory), (["b", "y.va"], .file "print(2)\n")]⟩

theorem outputs_kept_twoDirectories :
    let i : Invocation := ⟨[⟨"a/x.va"⟩, ⟨"b/../b/y.va"⟩], some ⟨"out/new"⟩, {}, true, false⟩
    i.runs = false ∧ (i.inputs.map Path.stem?).Nodup ∧ ∃ s,
      i.perform 0 twoDirectories = (s, none) ∧ ⟨"b/../b/y.va"⟩ ∈ i.inputs ∧
      (∃ text program, twoDirectories.read ⟨"b/../b/y.va"⟩ = .ok text ∧
        parse i.options (withFinalNewline text) = .ok program ∧
        s.tree.read (Path.moduleFor i.target i.single ⟨"b/../b/y.va"⟩) =
          .ok (Target.preamble ++ bannerLine "b/../b/y.va" ++ "(function () \x7b\n" ++
            generate i.options "b/../b/y.va" program ++ "\x7d)();\n") ∧
        (i.dumps = true → s.tree.read
          (Path.moduleFor i.target i.single ⟨"b/../b/y.va"⟩).dumpBeside = .ok (dump program))) ∧
      (i.inputs.flatMap i.places).Pairwise fun p q => s.tree.locate p ≠ s.tree.locate q := by
  intro i
  have stems : (i.inputs.map Path.stem?).Nodup := by decide
  have fine : (i.perform 0 twoDirectories).2 = none :=
    Option.isNone_iff_eq_none.mp (by decide +kernel)
  have done : i.perform 0 twoDirectories = ((i.perform 0 twoDirectories).1, none) :=
    Prod.ext rfl fine
  have member : ⟨"b/../b/y.va"⟩ ∈ i.inputs := List.mem_cons_of_mem _ List.mem_cons_self
  obtain ⟨kept, apart⟩ := outputs_kept i 0 twoDirectories _ rfl stems done
  exact ⟨rfl, stems, _, done, member, kept _ member, apart⟩

/-- Two inputs with the same stem. -/
def sameStem : Tree :=
  ⟨[], [(["a"], .directory), (["a", "x.va"], .file "print(1)"), (["b"], .directory),
    (["b", "x.va"], .file "print(2)")]⟩

/-- Different inputs with one stem have one module, and nothing has the text of the first. -/
theorem module_overwritten :
    let i : Invocation := ⟨[⟨"a/x.va"⟩, ⟨"b/x.va"⟩], none, {}, false, false⟩
    i.runs = false ∧ i.inputs.Nodup ∧ ∃ s program,
      i.perform 0 sameStem = (s, none) ∧ sameStem.read ⟨"a/x.va"⟩ = .ok "print(1)" ∧
      parse i.options (withFinalNewline "print(1)") = .ok program ∧
      ∀ location, s.tree.entry? location ≠
        some (.file (Target.preamble ++ bannerLine "a/x.va" ++ "(function () \x7b\n" ++
          generate i.options "a/x.va" program ++ "\x7d)();\n")) := by
  intro i
  let program : List Stmt := [.expr (.call (.ident "print") [.number "1"])]
  let program' : List Stmt := [.expr (.call (.ident "print") [.number "2"])]
  have parsed : parse {} (withFinalNewline "print(1)") = .ok program := by
    rw [show withFinalNewline "print(1)" = "print(1)\n" from rfl]
    cbv
  have parsed' : parse {} (withFinalNewline "print(2)") = .ok program' := by
    rw [show withFinalNewline "print(2)" = "print(2)\n" from rfl]
    cbv
  have loaded : sameStem.load i.inputs =
      .ok [⟨⟨"a/x.va"⟩, "print(1)"⟩, ⟨⟨"b/x.va"⟩, "print(2)"⟩] := rfl
  let c : Compiled := ⟨"a/x.va", program, generate {} "a/x.va" program⟩
  let c' : Compiled := ⟨"b/x.va", program', generate {} "b/x.va" program'⟩
  have compiled : [⟨⟨"a/x.va"⟩, "print(1)"⟩, ⟨⟨"b/x.va"⟩, "print(2)"⟩].mapM
      (Source.compile i.options) = .ok [c, c'] := by
    simp only [List.mapM_cons, Source.compile, Source.programText, compile]
    rw [show i.options = {} from rfl, parsed, parsed']
    rfl
  have several : i.single = false := rfl
  have quiet : i.dumps = false := rfl
  have place : Path.moduleFor i.target false ⟨"a/x.va"⟩ = ⟨"./x.mjs"⟩ ∧
      Path.moduleFor i.target false ⟨"b/x.va"⟩ = ⟨"./x.mjs"⟩ := by decide
  have planned : i.plan 0 [⟨⟨"a/x.va"⟩, "print(1)"⟩, ⟨⟨"b/x.va"⟩, "print(2)"⟩] =
      ⟨[.makeDirectories ⟨"."⟩, .write ⟨"./x.mjs"⟩ c.moduleText,
        .write ⟨"./x.mjs"⟩ c'.moduleText], none⟩ := by
    rw [Invocation.plan, if_neg (show ¬ i.runs = true from Bool.false_ne_true),
      Invocation.writing, compiled]
    simp only [List.zip_cons_cons, List.zip_nil_right, List.flatMap_cons, List.flatMap_nil,
      Invocation.outputs, several, quiet, place]
    rfl
  have performed : i.perform 0 sameStem =
      ({ tree := ⟨[], (["x.mjs"], .file c'.moduleText) :: sameStem.entries⟩ }, none) := by
    rw [Invocation.perform, loaded]
    dsimp only
    rw [planned]
    rfl
  refine ⟨rfl, by decide, _, program, performed, rfl, parsed, ?_⟩
  intro location there
  have mem := Tree.mem_entries_of_entry there
  have ends : c.moduleText.toList.getLast? = some '\n' := by
    simp [Compiled.moduleText, List.getLast?_cons, List.getLast?_append]
  have banners : c.moduleText ≠ c'.moduleText := by
    intro same
    simp [Compiled.moduleText, bannerLine, String.append_assoc] at same
    have heads := congrArg (fun text => text.toList.head?) same
    simp [c, c'] at heads
  simp only [sameStem, List.mem_cons, List.not_mem_nil, or_false, Prod.mk.injEq, Entry.file.injEq,
    reduceCtorEq, and_false, false_or] at mem
  rcases mem with ⟨-, same⟩ | ⟨-, same⟩ | ⟨-, same⟩
  · exact banners same
  · cases ends.symm.trans (congrArg (fun text => text.toList.getLast?) same)
  · cases ends.symm.trans (congrArg (fun text => text.toList.getLast?) same)

end ScriptLang
