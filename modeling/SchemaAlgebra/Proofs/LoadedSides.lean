import Mathlib
import SchemaAlgebra.Command
import SchemaAlgebra.Proofs.Walks

/-!
# Loading a side of a command in full or not at all

A command loads its two sides before it combines them, and a side is the merge of many texts.  This
module says which texts these are, and that nothing is written if one of them is missing.

The file system is the state of a state monad.  Looking at paths and reading files must leave it as it
is (`FileAccess.Still`); nothing is asked of writing, so a state that is the same after a command
is one that the command has not written to.

## Main statements

* `loadSide_run`: loading leaves the file system alone, and its value in one equation.
* `FileAccess.loads`: the files of a side are those that its paths stand for, their texts are merged
  in order, and a path, a file or a text that fails makes the side fail.
* `Disk.still_access` and `Disk.distinct_survey`: disks in memory are such file systems.
* `Command.loads_or_writes_nothing`: both sides of a command are loaded like this, and a command with
  a side that fails writes nothing.
-/

namespace SchemaAlgebra

variable {σ : Type}

/-! ## Computations that only look -/

/-- A computation that leaves the state as it is and gives what it sees there. -/
def Observes {α : Type} (x : StateM σ α) (view : σ → α) : Prop := ∀ state, x state = (view state, state)

/-- A step of a state monad goes on where the step before it ended. -/
theorem bind_apply {α β : Type} (x : StateM σ α) (f : α → StateM σ β) (state : σ) :
    (x >>= f) state = f (x state).1 (x state).2 := rfl

namespace Observes

variable {α β : Type}

theorem pure (a : α) : Observes (σ := σ) (Pure.pure a) fun _ => a := fun _ => rfl

theorem bind {x : StateM σ α} {view : σ → α} {f : α → StateM σ β} {next : α → σ → β}
    (hx : Observes x view) (hf : ∀ a, Observes (f a) (next a)) :
    Observes (x >>= f) fun state => next (view state) state := by
  intro state
  show (f (x state).1) (x state).2 = _
  rw [hx state]
  exact hf _ state

/-- A loop over observations sees all of them in the same state. -/
theorem mapM {f : α → StateM σ β} {view : σ → α → β} (hf : ∀ item, Observes (f item) (view · item))
    (items : List α) : Observes (items.mapM f) fun state => items.map (view state) := by
  induction items with
  | nil => exact .pure []
  | cons item rest ih =>
    rw [List.mapM_cons]
    exact (hf item).bind fun first => ih.bind fun others => .pure (first :: others)

end Observes

namespace FileAccess

/-- What stands at a path in a state of the file system. -/
def treeAt (access : FileAccess (StateM σ)) (state : σ) (path : String) : FileTree String :=
  (access.survey path state).1

/-- The text of a file in a state of the file system. -/
def textAt (access : FileAccess (StateM σ)) (state : σ) (file : String) : Except String String :=
  (access.read file state).1

/-- Looking at paths and reading files leave the file system as it is. -/
structure Still (access : FileAccess (StateM σ)) : Prop where
  survey : ∀ path state, (access.survey path state).2 = state
  read : ∀ file state, (access.read file state).2 = state

variable {access : FileAccess (StateM σ)}

theorem Still.observes_survey (h : access.Still) (path : String) :
    Observes (access.survey path) (access.treeAt · path) := fun state => Prod.ext rfl (h.survey path state)

theorem Still.observes_read (h : access.Still) (file : String) :
    Observes (access.read file) (access.textAt · file) := fun state => Prod.ext rfl (h.read file state)

end FileAccess

/-! ## Texts -/

/-- A list of results has these values, in order and without an error. -/
theorem eq_map_ok_iff {ε α : Type} {results : List (Except ε α)} {values : List α} :
    results = values.map .ok ↔
      (∀ reason, .error reason ∉ results) ∧ results.filterMap Except.toOption = values := by
  induction results generalizing values with
  | nil => simp [eq_comm]
  | cons result rest ih =>
    cases result with
    | error reason =>
      refine iff_of_false ?_ fun h => h.1 reason List.mem_cons_self
      cases values <;> simp
    | ok value =>
      have hvalue : (Except.ok value :: rest).filterMap Except.toOption =
        value :: rest.filterMap Except.toOption := rfl
      rw [hvalue]
      cases values with
      | nil => simp
      | cons first others => simp [ih, and_left_comm]

/-- Texts are gathered exactly if every file has one. -/
theorem gatherTexts_eq_ok_iff {side : Side} {read : List (String × Except String String)}
    {texts : List String} :
    gatherTexts side read = .ok texts ↔ read.map Prod.snd = texts.map .ok := by
  rw [eq_map_ok_iff, List.filterMap_map]
  dsimp only [gatherTexts]
  split
  next herrors =>
    rw [List.isEmpty_iff, List.filterMap_eq_nil_iff] at herrors
    have hfine : ∀ reason, .error reason ∉ read.map Prod.snd := by
      rintro reason hmem
      obtain ⟨⟨path, result⟩, hentry, rfl⟩ := List.mem_map.mp hmem
      cases herrors _ hentry
    rw [Except.ok.injEq, and_iff_right hfine]
    rfl
  next herrors =>
    refine iff_of_false (fun h => by cases h) fun ⟨hfine, _⟩ => herrors ?_
    rw [List.isEmpty_iff, List.filterMap_eq_nil_iff]
    rintro ⟨path, result⟩ hentry
    cases result with
    | ok text => rfl
    | error reason => exact absurd (List.mem_map_of_mem hentry) (hfine reason)

/-- A text that does not parse cannot be merged into anything. -/
theorem exists_value_merge_eq_error {R S : Type} (policy : Policy S) (target : Source R S)
    {text : String} (h : ∀ document, Document.parse text ≠ .ok document) :
    ∃ cause, (merge policy target (.sdl text)).value = .error cause := by
  obtain ⟨fault, hfault⟩ : ∃ fault, Document.parse text = .error fault := by
    cases hparse : Document.parse text with
    | ok document => exact absurd hparse (h document)
    | error fault => exact ⟨fault, rfl⟩
  have hsource : ((Source.sdl text : Source R S).toBundle .merge .source).value =
      .error (.unparsableDocument .merge .source fault) := by
    simp [Source.toBundle, Source.toDocument, Source.toText, hfault]
  cases htarget : (target.toBundle .merge .target).value with
  | error cause => exact ⟨cause, by simp [merge, htarget]⟩
  | ok bundle => exact ⟨_, by simp [merge, htarget, hsource]; rfl⟩

/-- One text that does not parse makes a merge of many texts fail. -/
theorem exists_value_mergeAll_eq_error {R S : Type} (policy : Policy S) {texts : List String}
    (h : ∃ text ∈ texts, ∀ document, Document.parse text ≠ .ok document) :
    ∃ cause, (mergeAll policy (texts.map (Source.sdl : String → Source R S))).value =
      .error cause := by
  obtain ⟨text, hmem, hparse⟩ := h
  obtain ⟨front, back, rfl⟩ := List.append_of_mem hmem
  have herror : ∀ (rest : List (Source R S)) cause, (rest.foldl
      (fun merged source => (mergeNext policy merged source).value) (.error cause)) =
        .error cause := by
    intro rest cause
    induction rest with
    | nil => rfl
    | cons source rest ih => exact ih
  rw [mergeAll, Traced.value_foldlM, List.map_append, List.map_cons, List.foldl_append,
    List.foldl_cons]
  -- The texts in front of it may have failed already.
  cases (front.map Source.sdl).foldl
      (fun merged source => (mergeNext policy merged source).value) (.ok ∅) with
  | error cause => exact ⟨cause, herror _ cause⟩
  | ok bundle =>
    obtain ⟨cause, hcause⟩ := exists_value_merge_eq_error policy (Source.bundle bundle) hparse
    refine ⟨cause, ?_⟩
    rw [show (mergeNext policy (.ok bundle) (.sdl text)).value = .error cause from hcause]
    exact herror _ cause

/-! ## Loading -/

namespace FileAccess

/-- What is found at the listed paths in a state of the file system. -/
def foundAt (access : FileAccess (StateM σ)) (state : σ) (extensions paths : List String) :
    Found String :=
  Found.ofPaths (wantedExtensions extensions)
    (paths.map fun path => (path, access.treeAt state path))

end FileAccess

variable {access : FileAccess (StateM σ)}

/-- Loading a side leaves the file system as it is, and what it gives depends on what is found and on
the texts of the files. -/
theorem loadSide_run (hstill : access.Still) (extensions : List String) (side : Side)
    (paths : List String) (state : σ) :
    let found := access.foundAt state extensions paths
    ∃ notices, loadSide access extensions side paths state =
      (⟨if found.errors = [] then do
          let texts ← gatherTexts side
            (found.files.map fun file => (file, access.textAt state file))
          (combineTexts side texts).value.map fun bundle =>
            ⟨bundle, found.files.length, found.skipped⟩
        else .error found.errors, notices⟩, state) := by
  intro found
  -- Both loops see the state that loading begins in.
  have hlisted := Observes.mapM (fun path => (hstill.observes_survey path).bind fun tree =>
    .pure (path, tree)) paths state
  have hread := Observes.mapM (fun file => (hstill.observes_read file).bind fun text =>
    .pure (file, text)) found.files state
  have hfound : Found.ofPaths (wantedExtensions extensions)
    (paths.map fun path => (path, access.treeAt state path)) = found := rfl
  rw [loadSide, bind_apply, hlisted]
  dsimp only
  rw [hfound]
  by_cases herrors : found.errors = []
  · rw [if_pos herrors, herrors, if_neg (by decide), bind_apply, hread]
    dsimp only
    cases gatherTexts side (found.files.map fun file => (file, access.textAt state file)) with
    | error errors => exact ⟨[], rfl⟩
    | ok texts => exact ⟨(combineTexts side texts).events ++ [], rfl⟩
  · rw [if_neg herrors, if_pos (by simpa using herrors)]
    exact ⟨[], rfl⟩

/-- The files that are found are those that the paths stand for, path by path. -/
theorem exists_standsFor_foundAt {state : σ} (extensions : List String) {paths : List String}
    (hdistinct : ∀ path ∈ paths, (access.treeAt state path).Distinct) :
    ∃ groups : List (List String),
      List.Forall₂ (fun path files =>
        (access.treeAt state path).StandsFor (wantedExtensions extensions) files) paths groups ∧
      (access.foundAt state extensions paths).files = groups.flatten := by
  refine ⟨paths.map fun path =>
    (Found.ofPath (wantedExtensions extensions) path (access.treeAt state path)).files, ?_, ?_⟩
  · rw [List.forall₂_map_right_iff, List.forall₂_same]
    exact fun path hpath => Found.standsFor_files_ofPath _ path (hdistinct path hpath)
  · simp [FileAccess.foundAt, Found.ofPaths, List.flatMap_def, Function.comp_def]

/-- Nothing is in the way exactly if everything at and below the paths can be looked at. -/
theorem errors_foundAt_eq_nil_iff {state : σ} (extensions : List String) {paths : List String}
    (hdistinct : ∀ path ∈ paths, (access.treeAt state path).Distinct) :
    (access.foundAt state extensions paths).errors = [] ↔
      ∀ path ∈ paths, (access.treeAt state path).Walkable := by
  simp only [FileAccess.foundAt, Found.ofPaths, List.map_map, List.flatMap_map,
    List.flatMap_eq_nil_iff, Function.comp_apply]
  exact forall₂_congr fun path hpath => Found.errors_ofPath_eq_nil_iff _ path (hdistinct path hpath)

/-- The paths of one side of a command. -/
def Options.paths (options : Options) : Side → List String
  | .target => options.target
  | .source => options.source

/-- What loading one side of a command gives in a state of the file system, and how it leaves it. -/
def Options.load (options : Options) (access : FileAccess (StateM σ)) (side : Side) (state : σ) :
    Noted (Except (List LoadError) LoadedSide) × σ :=
  loadSide access options.extensions side (options.paths side) state

theorem Options.snd_load (hstill : access.Still) (options : Options) (side : Side) (state : σ) :
    (options.load access side state).2 = state := by
  obtain ⟨notices, hrun⟩ := loadSide_run hstill options.extensions side (options.paths side) state
  exact congrArg Prod.snd hrun

/-- One side of a command is loaded in full or not at all.  For each listed path there are the files
that it stands for; all of them together, in order, are the files of the side. -/
structure FileAccess.Loads (access : FileAccess (StateM σ)) (options : Options) (side : Side)
    (state : σ) (groups : List (List String)) : Prop where
  standFor : List.Forall₂ (fun path files =>
    (access.treeAt state path).StandsFor (wantedExtensions options.extensions) files)
    (options.paths side) groups
  /-- If everything can be looked at and read, the texts of the files are merged in their order. -/
  inFull : ∀ texts : List String, (∀ path ∈ options.paths side, (access.treeAt state path).Walkable) →
    groups.flatten.map (access.textAt state) = texts.map .ok →
    (options.load access side state).1.value.map (fun loaded => (loaded.bundle, loaded.fileCount)) =
      match (mergeAll Policy.rightWins (texts.map Source.sdl)).value with
      | .ok bundle => .ok (bundle, groups.flatten.length)
      | .error cause => .error [.uncombinable side cause]
  /-- A place that cannot be looked at, a file without a text and a text that does not parse each
  keep the side from being loaded. -/
  orNothing : (∃ path ∈ options.paths side, ¬ (access.treeAt state path).Walkable) ∨
      (∃ file ∈ groups.flatten, ∃ reason, access.textAt state file = .error reason) ∨
      (∃ file ∈ groups.flatten, ∃ text, access.textAt state file = .ok text ∧
        ∀ document, Document.parse text ≠ .ok document) →
    ∃ errors, (options.load access side state).1.value = .error errors
  /-- Loading does not touch the file system. -/
  unchanged : (options.load access side state).2 = state

/-- A side that was loaded met nothing in the way, has a text for every file, and is the merge of these
texts. -/
theorem exists_texts_of_load_eq_ok (hstill : access.Still) {options : Options} {side : Side}
    {state : σ} {loaded : LoadedSide}
    (h : (options.load access side state).1.value = .ok loaded) :
    let found := access.foundAt state options.extensions (options.paths side)
    found.errors = [] ∧ ∃ texts : List String,
      found.files.map (access.textAt state) = texts.map .ok ∧
      (mergeAll Policy.rightWins (texts.map Source.sdl)).value = .ok loaded.bundle := by
  intro found
  obtain ⟨notices, hrun⟩ := loadSide_run hstill options.extensions side (options.paths side) state
  rw [Options.load, hrun] at h
  dsimp only at h
  split at h
  next herrors =>
    cases hgather : gatherTexts side
        (found.files.map fun file => (file, access.textAt state file)) with
    | error errors => rw [hgather] at h; cases h
    | ok texts =>
      rw [hgather] at h
      have htexts := gatherTexts_eq_ok_iff.mp hgather
      rw [List.map_map] at htexts
      refine ⟨herrors, texts, htexts, ?_⟩
      change (combineTexts side texts).value.map _ = .ok loaded at h
      rw [combineTexts] at h
      cases hmerged : (mergeAll Policy.rightWins (texts.map Source.sdl)).value with
      | error cause => rw [hmerged] at h; cases h
      | ok bundle =>
        rw [hmerged] at h
        obtain rfl := Except.ok.inj h
        rfl
  next => cases h

/-- Any side of any command is loaded in full or not at all. -/
theorem FileAccess.loads (hstill : access.Still) (options : Options) (side : Side) (state : σ)
    (hdistinct : ∀ path ∈ options.paths side, (access.treeAt state path).Distinct) :
    ∃ groups, access.Loads options side state groups := by
  obtain ⟨groups, hstand, hfiles⟩ := exists_standsFor_foundAt options.extensions hdistinct
  obtain ⟨notices, hrun⟩ := loadSide_run hstill options.extensions side (options.paths side) state
  have hwalk := errors_foundAt_eq_nil_iff options.extensions hdistinct
  refine ⟨groups, hstand, fun texts hwalkable htexts => ?_, ?_,
    options.snd_load hstill side state⟩
  · have hgather : gatherTexts side (groups.flatten.map fun file =>
        (file, access.textAt state file)) = .ok texts := by
      rw [gatherTexts_eq_ok_iff, List.map_map]
      exact htexts
    rw [Options.load, hrun]
    dsimp only
    rw [if_pos (hwalk.mpr hwalkable), hfiles, hgather]
    show ((combineTexts side texts).value.map _).map _ = _
    rw [combineTexts]
    cases (mergeAll Policy.rightWins (texts.map Source.sdl)).value <;> rfl
  · intro hfault
    cases hload : (options.load access side state).1.value with
    | error errors => exact ⟨errors, rfl⟩
    | ok loaded =>
      obtain ⟨herrors, texts, htexts, hmerged⟩ := exists_texts_of_load_eq_ok hstill hload
      rw [hfiles] at htexts
      have hread : ∀ file ∈ groups.flatten, ∃ text ∈ texts, .ok text = access.textAt state file :=
        fun file hfile => List.mem_map.mp (htexts ▸ List.mem_map_of_mem hfile)
      obtain ⟨path, hpath, hclosed⟩ | ⟨file, hfile, reason, hreason⟩ |
        ⟨file, hfile, text, htext, hparse⟩ := hfault
      · exact absurd (hwalk.mp herrors path hpath) hclosed
      · obtain ⟨text, -, htext⟩ := hread file hfile
        rw [hreason] at htext
        cases htext
      · obtain ⟨_, hmem, heq⟩ := hread file hfile
        obtain rfl : _ = text := Except.ok.inj (heq.trans htext)
        obtain ⟨cause, hcause⟩ := exists_value_mergeAll_eq_error Policy.rightWins ⟨_, hmem, hparse⟩
        rw [hmerged] at hcause
        cases hcause

/-! ## Disks in memory -/

namespace FileTree

variable {α : Type}

theorem surveyedEntries_eq_map (path full : String) (entries : List (String × FileTree α)) :
    surveyedEntries path full entries = entries.map fun entry =>
      (entry.1, entry.2.surveyed (joinPath path entry.1) (joinPath full entry.1)) := by
  induction entries with
  | nil => rfl
  | cons entry rest ih => rw [surveyedEntries, ih, List.map_cons]

/-- A survey of a tree keeps the names of the entries that it can list. -/
theorem distinct_surveyed {tree : FileTree α} (h : tree.Distinct) (path full : String) :
    (tree.surveyed path full).Distinct := by
  induction tree using nested_induction generalizing path full with
  | file content => exact distinct_file full
  | directory entries ih =>
    rw [surveyed]
    cases pathFault? path with
    | some fault => exact distinct_of_leaf (fun _ => rfl) trivial
    | none =>
      have hnames : (surveyedEntries path full entries).map Prod.fst = entries.map Prod.fst := by
        simp [surveyedEntries_eq_map]
      refine distinct_directory_iff.mpr ⟨hnames ▸ h.nodup, fun entry hentry => ?_⟩
      rw [surveyedEntries_eq_map] at hentry
      obtain ⟨below, hbelow, rfl⟩ := List.mem_map.mp hentry
      exact ih below hbelow (h.of_mem below hbelow) _ _
  | closed reason => exact distinct_of_leaf (fun _ => rfl) trivial
  | device => exact distinct_of_leaf (fun _ => rfl) trivial
  | unreadable reason => exact distinct_of_leaf (fun _ => rfl) trivial

end FileTree

namespace Disk

/-- Looking at a disk and reading from it leave it as it is. -/
theorem still_access : Disk.access.Still := ⟨fun _ _ => rfl, fun _ _ => rfl⟩

/-- What is seen of a disk has distinct names if the disk has. -/
theorem distinct_survey {disk : Disk} (h : disk.root.Distinct) (path : String) :
    (disk.survey path).Distinct := by
  unfold survey
  split
  next => exact FileTree.distinct_of_leaf (fun _ => rfl) trivial
  next names hnames =>
    split
    next tree htree => exact FileTree.distinct_surveyed (FileTree.Everywhere.get? h htree) path _
    next => exact FileTree.distinct_of_leaf (fun _ => rfl) trivial

end Disk

/-! ## Commands -/

namespace Command

/-- A command whose target fails ends there. -/
theorem run_of_target_error {command : Command} {state : σ} {errors : List LoadError}
    (h : (command.options.load access .target state).1.value = .error errors) :
    command.run access state = (⟨.error (.load .target errors),
      (command.options.load access .target state).1.events⟩,
      (command.options.load access .target state).2) := by
  have hload : (loadSide access command.options.extensions .target command.options.target
      state).1.value = .error errors := h
  rw [run]
  dsimp only
  rw [bind_apply, hload]
  rfl

/-- A command whose source fails ends before anything is combined. -/
theorem run_of_source_error {command : Command} {state between : σ} {target : LoadedSide}
    {errors : List LoadError}
    (htarget : (command.options.load access .target state).1.value = .ok target)
    (hbetween : (command.options.load access .target state).2 = between)
    (hsource : (command.options.load access .source between).1.value = .error errors) :
    command.run access state = (⟨.error (.load .source errors),
      (command.options.load access .target state).1.events ++
        (command.options.load access .source between).1.events⟩,
      (command.options.load access .source between).2) := by
  have hfirst : loadSide access command.options.extensions .target command.options.target state =
      (⟨.ok target, (command.options.load access .target state).1.events⟩, between) :=
    Prod.ext (Traced.ext htarget rfl) hbetween
  have hsecond : (loadSide access command.options.extensions .source command.options.source
      between).1.value = .error errors := hsource
  rw [run]
  dsimp only
  rw [bind_apply, hfirst]
  dsimp only
  rw [bind_apply, hsecond]
  rfl

/-- A command with a side that fails fails itself, and leaves the file system as it is. -/
theorem run_of_load_error (hstill : access.Still) (command : Command) (state : σ)
    (h : ∃ side errors, (command.options.load access side state).1.value = .error errors) :
    ∃ side errors, (command.options.load access side state).1.value = .error errors ∧
      (command.run access state).1.value = .error (.load side errors) ∧
      (command.run access state).2 = state := by
  have hstate (side) := command.options.snd_load hstill side state
  cases htarget : (command.options.load access .target state).1.value with
  | error errors =>
    refine ⟨.target, errors, htarget, ?_⟩
    rw [run_of_target_error htarget]
    exact ⟨rfl, hstate .target⟩
  | ok target =>
    -- The target is fine, so it is the source that fails.
    obtain ⟨errors, hsource⟩ :
        ∃ errors, (command.options.load access .source state).1.value = .error errors := by
      obtain ⟨side, errors, hside⟩ := h
      cases side with
      | target => rw [htarget] at hside; cases hside
      | source => exact ⟨errors, hside⟩
    refine ⟨.source, errors, hsource, ?_⟩
    rw [run_of_source_error htarget (hstate .target) hsource]
    exact ⟨rfl, hstate .source⟩

/-- A command loads both sides in full or not at all, and if it does not load one of them, it fails and
writes nothing. -/
theorem loads_or_writes_nothing (hstill : access.Still) (command : Command) (state : σ)
    (hdistinct : ∀ side, ∀ path ∈ command.options.paths side,
      (access.treeAt state path).Distinct) :
    (∀ side, ∃ groups, access.Loads command.options side state groups) ∧
    ((∃ side errors, (command.options.load access side state).1.value = .error errors) →
      ∃ side errors, (command.options.load access side state).1.value = .error errors ∧
        (command.run access state).1.value = .error (.load side errors) ∧
        (command.run access state).2 = state) :=
  ⟨fun side => access.loads hstill command.options side state (hdistinct side),
    run_of_load_error hstill command state⟩

/-- The target is a directory, with one file in it and one further below, and the source is a file
without an extension whose text does not parse.  The target is loaded from its two files, but the
merge writes nothing. -/
theorem merge_brokenSource_writesNothing :
    let disk : Disk := ⟨.directory [("w", .directory [
      ("l", .directory [("b.g", .file "type B { a: A }".toUTF8),
        ("a", .directory [("c.g", .file "type A { b: B }".toUTF8)]), ("n", .file "no".toUTF8)]),
      ("x", .file "type".toUTF8)])], ["w"]⟩
    let command : Command := ⟨.merge, ⟨["g"], some "o", ["l"], ["x"]⟩⟩
    Disk.access.Loads command.options .target disk [["/w/l/a/c.g", "/w/l/b.g"]] ∧
      Disk.access.Loads command.options .source disk [["/w/x"]] ∧
      (∃ loaded, (command.options.load Disk.access .target disk).1.value = .ok loaded ∧
        loaded.fileCount = 2) ∧
      (∃ side errors, (command.run Disk.access disk).1.value = .error (.load side errors)) ∧
      (command.run Disk.access disk).2 = disk := by
  intro disk command
  have hroot : disk.root.Distinct := by
    simp [disk, FileTree.distinct_directory_iff]
  obtain ⟨hloads, hfails⟩ := loads_or_writes_nothing Disk.still_access command disk
    fun side path _ => Disk.distinct_survey hroot path
  -- What a path stands for is determined, so the files of a side can be computed.
  have hextensions : wantedExtensions ["g"] = ["g"] := by decide +kernel
  have hlisted (side) {path files} (hpath : command.options.paths side = [path])
      (hfiles : (disk.survey path).StandsFor ["g"] files) :
      Disk.access.Loads command.options side disk [files] := by
    obtain ⟨groups, hgroups⟩ := hloads side
    have hstand := hgroups.standFor
    rw [hpath, List.forall₂_cons_left_iff] at hstand
    obtain ⟨known, rest, hknown, hrest, rfl⟩ := hstand
    obtain rfl := List.forall₂_nil_left_iff.mp hrest
    obtain rfl : known = files := hknown.unique (hextensions.symm ▸ hfiles)
    exact hgroups
  have htarget : (disk.survey "l").StandsFor ["g"] ["/w/l/a/c.g", "/w/l/b.g"] := by
    have hfiles : (Found.ofPath ["g"] "l" (disk.survey "l")).files = ["/w/l/a/c.g", "/w/l/b.g"] := by
      cbv
    exact hfiles ▸ Found.standsFor_files_ofPath ["g"] "l" (Disk.distinct_survey hroot "l")
  have hsource : (disk.survey "x").StandsFor ["g"] ["/w/x"] := by
    have hsurvey : disk.survey "x" = .file "/w/x" := by cbv
    exact hsurvey ▸ .itself "/w/x"
  have hwalkable : ∀ path ∈ command.options.paths .target, (Disk.access.treeAt disk path).Walkable := by
    refine List.forall_mem_singleton.mpr ?_
    refine (Found.errors_ofPath_eq_nil_iff ["g"] "l" (Disk.distinct_survey hroot "l")).mp ?_
    cbv
  have hloaded := (hlisted .target rfl htarget).inFull
    ["type A { b: B }", "type B { a: A }"] hwalkable rfl
  have hmerges : (mergeAll Policy.rightWins ([.sdl "type A { b: B }", .sdl "type B { a: A }"] :
      List (Source Unit Unit))).value.isOk = true := by decide +kernel
  have hbroken : (Document.parse "type").toOption = none := by decide +kernel
  refine ⟨hlisted .target rfl htarget, hlisted .source rfl hsource, ?_, ?_⟩
  · rw [List.map_cons, List.map_cons, List.map_nil] at hloaded
    cases hmerged : (mergeAll Policy.rightWins ([.sdl "type A { b: B }", .sdl "type B { a: A }"] :
        List (Source Unit Unit))).value with
    | error cause => rw [hmerged] at hmerges; cases hmerges
    | ok bundle =>
      rw [hmerged] at hloaded
      cases hload : (command.options.load Disk.access .target disk).1.value with
      | error errors => rw [hload] at hloaded; cases hloaded
      | ok loaded =>
        rw [hload] at hloaded
        exact ⟨loaded, rfl, congrArg Prod.snd (Except.ok.inj hloaded)⟩
  obtain ⟨errors, hload⟩ := (hlisted .source rfl hsource).orNothing <| .inr <| .inr
    ⟨"/w/x", by simp, "type", rfl, fun document hparse => by rw [hparse] at hbroken; cases hbroken⟩
  obtain ⟨side, errors, -, hrun, hstate⟩ := hfails ⟨.source, errors, hload⟩
  exact ⟨⟨side, errors, hrun⟩, hstate⟩

end Command

end SchemaAlgebra
