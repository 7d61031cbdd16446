import HybridTemplate.Proofs.Build.Failures
import HybridTemplate.Proofs.Bundle.Landing
import HybridTemplate.Proofs.Component.Naming
import HybridTemplate.Proofs.Path.Relative

set_option autoImplicit false

namespace HybridTemplate.Build

open HybridTemplate.Bundle (Copied Copies IsScriptOf Stays)
open Component (Dependency Descriptor Document Extraction Extractor Settled WellNamed
  isModuleName isModuleName_identifier isPlain_of_isModuleName identifier settled_fresh)
open Files
open Files.System (AddsDirectories Closed Linkless Sets)
open HybridTemplate.Path (Component)
open Session
open Text (Bytes)
open Visit (outcome outcome_bind_eq_ok outcome_modify_bind outcome_pure)

namespace WrittenModule

def fileName (m : WrittenModule) : String := m.identifier ++ ".js"

/-- Whether the path of a module goes on with names behind the scratch directory. -/
def IsAt (scratch : Path) (m : WrittenModule) (names : Place) : Prop :=
  (scratch.join m.path).components = scratch.components ++ names.map Component.normal

end WrittenModule

/-- The files with the names of wrapper modules are the modules that have been written. -/
structure Wrapped (scratch : Path) (s : Place) (modules : List WrittenModule) (fs : System) :
    Prop where
  tree : Linkless fs scratch s
  written : ∀ m ∈ modules, (∃ source, m.identifier = identifier m.component source) ∧
    ∃ above, m.IsAt scratch (above ++ [m.fileName]) ∧
      ∃ content executable, fs.look (s ++ (above ++ [m.fileName])) = some (.file content executable)
  only : ∀ above name content executable, isModuleName name = true →
    fs.look (s ++ (above ++ [name])) = some (.file content executable) →
    ∃ m ∈ modules, m.IsAt scratch (above ++ [name])

variable {scratch : Path} {s : Place} {modules : List WrittenModule} {fs later : System}

theorem wrapped_nil (tree : Linkless fs scratch s) (empty : ∀ q, q ≠ [] → fs.look (s ++ q) = none) :
    Wrapped scratch s [] fs where
  tree := tree
  written := fun _ none => absurd none List.not_mem_nil
  only := by
    intro above name content executable _ there
    rw [empty _ (List.append_ne_nil_of_right_ne_nil above (List.cons_ne_nil name []))] at there
    cases there

namespace Wrapped

theorem isModuleName_fileName (h : Wrapped scratch s modules fs) {m : WrittenModule}
    (hm : m ∈ modules) : isModuleName m.fileName = true := by
  obtain ⟨⟨source, same⟩, -⟩ := h.written m hm
  rw [WrittenModule.fileName, same]
  exact isModuleName_identifier m.component source

theorem of_look (h : Wrapped scratch s modules fs) (tree : Linkless later scratch s)
    (same : ∀ above name f, isModuleName name = true → f ≠ .directory →
      (later.look (s ++ (above ++ [name])) = some f ↔ fs.look (s ++ (above ++ [name])) = some f)) :
    Wrapped scratch s modules later where
  tree := tree
  written := by
    intro m hm
    obtain ⟨named, above, at_, content, executable, there⟩ := h.written m hm
    exact ⟨named, above, at_, content, executable,
      (same above m.fileName _ (h.isModuleName_fileName hm) (by simp)).mpr there⟩
  only := fun above name content executable module there =>
    h.only above name content executable module ((same above name _ module (by simp)).mp there)

theorem addsDirectories (h : Wrapped scratch s modules fs) (adds : AddsDirectories fs later) :
    Wrapped scratch s modules later :=
  h.of_look (h.tree.of_addsDirectories adds) fun _ _ _ _ plain => adds.look_iff plain

theorem copies (h : Wrapped scratch s modules fs) {d : Dependency} (stays : Stays d)
    {file relative target : Path} {place : Place} {content : Bytes} {copied : Copied}
    (script : IsScriptOf d fs file place content)
    (copies : Copies scratch d.root copied file relative target fs later) :
    Wrapped scratch s modules later := by
  obtain ⟨tree, q, name, -, named, -, lands⟩ := copies.lands h.tree stays script
  refine h.of_look tree fun above module f isModule plain => lands.elsewhere _ f plain ?_
  intro same
  obtain ⟨-, last⟩ := List.append_inj' (List.append_cancel_left same) rfl
  obtain rfl : module = name := (List.cons.inj last).1
  have path : Component.isModulePath file = true := by
    rw [Component.isModulePath, named, Option.any_some]
    exact isModule
  have refused := script.script
  rw [Discovery.isScript_of_isModulePath path] at refused
  cases refused

theorem write (h : Wrapped scratch s modules fs) {m : WrittenModule} (above : Place) {p : Path}
    {content : Bytes} (named : ∃ source, m.identifier = identifier m.component source)
    (here : m.IsAt scratch (above ++ [m.fileName]))
    (components : p.components =
      scratch.components ++ (above ++ [m.fileName]).map Component.normal)
    (closed : Closed p) (written : fs.write p content = .ok later) :
    Wrapped scratch s (modules ++ [m]) later := by
  rw [List.map_append] at components
  obtain ⟨tree, executable, sets⟩ := h.tree.write components closed (within_names [] above) written
  rw [List.nil_append] at sets
  refine ⟨tree, ?_, ?_⟩
  · intro n hn
    rcases List.mem_append.mp hn with old | new
    · obtain ⟨named, q, at_, c, x, there⟩ := h.written n old
      by_cases same : s ++ (q ++ [n.fileName]) = s ++ (above ++ [m.fileName])
      · exact ⟨named, q, at_, _, _, same ▸ sets.look_self⟩
      · exact ⟨named, q, at_, c, x, (sets.look_of_ne same).trans there⟩
    · obtain rfl := List.mem_singleton.mp new
      exact ⟨named, above, here, _, _, sets.look_self⟩
  · intro q name c x module there
    by_cases same : s ++ (q ++ [name]) = s ++ (above ++ [m.fileName])
    · rw [List.append_cancel_left same]
      exact ⟨m, List.mem_append_right _ List.mem_cons_self, here⟩
    · rw [sets.look_of_ne same] at there
      obtain ⟨n, hn, at_⟩ := h.only q name c x module there
      exact ⟨n, List.mem_append_left _ hn, at_⟩

end Wrapped

/-- Whether the directory of a source, relative to its root, has no two dots. -/
def IsInside (source : SourceFile) : Prop :=
  source.relativeDir.isAbsolute = false ∧ Component.parent ∉ source.relativeDir.components

section

variable {source : SourceFile} {w w' : Workspace}

theorem writeModules_keeps (inside : IsInside source) {ds : List Descriptor}
    (named : ∀ d ∈ ds, WellNamed d) (h : Wrapped scratch s modules w.files)
    {written : List WrittenModule}
    (ran : outcome (writeModules source scratch ds) w = (.ok written, w')) :
    Wrapped scratch s (modules ++ written) w'.files := by
  unfold writeModules at ran
  split at ran
  · rw [outcome_pure] at ran
    cases ran
    rwa [List.append_nil]
  obtain ⟨_, u, made, ran⟩ := outcome_bind_eq_ok.mp ran
  obtain ⟨-, files, directories, rfl⟩ := makeDirectories_eq_ok.mp made
  have adds := System.addsDirectories_makeDirectories h.tree.sound (scratch.join source.relativeDir)
  rw [directories] at adds
  obtain ⟨above, steps⟩ := Path.exists_names_of_steps inside.2
  have filled := h.tree.filled
  have dir : (scratch.join source.relativeDir).components =
      scratch.components ++ above.map Component.normal := by
    rw [Path.components_join filled inside.1, steps]
  refine Visit.mapM_keeps (fun ms u => Wrapped scratch s ms u.files) ?_ (h.addsDirectories adds) ran
  intro d hd ms u m t kept step
  obtain ⟨_, v, wrote, ended⟩ := outcome_bind_eq_ok.mp step
  rw [outcome_pure] at ended
  cases ended
  obtain ⟨-, files, written, rfl⟩ := writeText_eq_ok.mp wrote
  obtain ⟨text, identified⟩ := named d hd
  have plain : Path.IsPlain d.fileName := by
    rw [Descriptor.fileName, identified]
    exact isPlain_of_isModuleName (isModuleName_identifier d.name text)
  refine kept.write above ⟨text, identified⟩ ?_ ?_ (System.closed_join _ plain) written
  · rw [WrittenModule.IsAt, Path.components_join filled (by rw [plain.isAbsolute_join, inside.1]),
      plain.steps_join, List.map_append, List.map_append, steps, List.map_singleton,
      plain.componentOf_eq]
    rfl
  · rw [plain.components_join, dir, List.map_append, List.append_assoc]
    rfl

theorem IsInside.exists_within (inside : IsInside source) :
    ∃ q, within [] source.relativeDir.components = some q := by
  obtain ⟨names, steps⟩ := Path.exists_names_of_steps inside.2
  have there := within_steps inside.1 []
  rw [steps, within_names] at there
  exact ⟨_, there.symm⟩

/-- A directory that the source's own begins with, behind the root, does not climb. -/
theorem IsInside.exists_within_of_prefix (inside : IsInside source) {cs : List Component}
    (rest : List Component)
    (h : source.dir.components = source.root.components ++ cs ++ rest) :
    ∃ q, within [] cs = some q := by
  rw [List.append_assoc] at h
  obtain ⟨q, there⟩ := inside.exists_within
  rw [SourceFile.components_relativeDir h, within_append] at there
  obtain ⟨r, first, -⟩ := Option.bind_eq_some_iff.mp there
  exact ⟨r, first⟩

theorem stays_of_same {d e : Dependency} (same : d.same e = true) (h : Stays e) : Stays d := by
  obtain ⟨dir, root⟩ := (Dependency.same_iff d e).mp same
  intro cs behind
  exact h cs (by rw [← dir, ← root, behind])

/-- The directories of relative imports do not climb out of the root. -/
theorem stays_of_importedDir? (inside : IsInside source) {text specifier : String} {d : Dependency}
    (h : (Component.Origin.of text (some source)).importedDir? specifier = some d) : Stays d := by
  obtain ⟨root, own | parent⟩ := Component.Origin.importedDir?_eq_some h
  · intro cs dir
    rw [own, root] at dir
    exact inside.exists_within_of_prefix [] (by rw [dir, List.append_nil])
  · obtain ⟨filled, components⟩ := Path.parent?_eq_some parent
    intro cs dir
    rw [root] at dir
    refine inside.exists_within_of_prefix [source.dir.components.getLast filled] ?_
    rw [← dir, components, List.dropLast_append_getLast]

theorem stays_of_in_importedDirs (inside : IsInside source) {grammar : Grammar} {text : String}
    {d : Dependency} (h : d.In (Document.text grammar text (some source)).importedDirs) :
    Stays d := by
  unfold Document.importedDirs at h
  dsimp only at h
  split at h
  · obtain ⟨e, he, same⟩ := h
    obtain ⟨n, -, import_⟩ := List.mem_flatMap.mp he
    split at import_
    · obtain ⟨specifier, -, found⟩ := Option.bind_eq_some_iff.mp (Option.mem_toList.mp import_)
      exact stays_of_same same (stays_of_importedDir? inside found)
    · cases import_
  · rw [Dependency.in_nil] at h
    exact h.elim

structure Compiles (scratch : Path) (s : Place) (p : Progress) (fs : System) : Prop where
  settled : Settled p.extractor
  wrapped : Wrapped scratch s p.modules fs
  stays : ∀ d : Dependency, d.In p.extractor.dependencies → Stays d

theorem settleFile_keeps (inside : IsInside source) {extraction : Extraction}
    (named : ∀ ds, extraction.result = .ok ds → ∀ d ∈ ds, WellNamed d)
    (h : Wrapped scratch s modules w.files) {written : List WrittenModule}
    (ran : outcome (settleFile source scratch extraction) w = (.ok (.ok written), w')) :
    (∃ ds, extraction.result = .ok ds) ∧ Wrapped scratch s (modules ++ written) w'.files := by
  unfold settleFile at ran
  rw [outcome_modify_bind] at ran
  cases result : extraction.result with
  | error e =>
    rw [result] at ran
    dsimp only at ran
    split at ran <;> cases ran
  | ok ds =>
    rw [result] at ran
    obtain ⟨ms, u, wrote, ended⟩ := outcome_bind_eq_ok.mp ran
    cases ended
    refine ⟨⟨ds, rfl⟩, writeModules_keeps inside (named ds result) ?_ wrote⟩
    exact h

theorem compileNext_keeps {grammar : Grammar} (inside : IsInside source) {p q : Progress}
    (h : Compiles scratch s p w.files)
    (ran : outcome (compileNext grammar scratch p source) w = (.ok q, w')) :
    Compiles scratch s q w'.files := by
  obtain ⟨⟨x, result⟩, u, compiled, ended⟩ := outcome_bind_eq_ok.mp ran
  have steps := compiled
  rw [compileFile_eq] at steps
  obtain ⟨text, _, read, rest⟩ := outcome_bind_eq_ok.mp steps
  obtain ⟨_, _, settle, same⟩ := outcome_bind_eq_ok.mp rest
  cases same
  obtain ⟨-, -, rfl⟩ := readText_eq_ok.mp read
  obtain ⟨-, settled, added⟩ :=
    Extractor.read_settled h.settled (.text grammar text (some source))
  cases result with
  | error e =>
    cases ended
    obtain ⟨kept, files⟩ := compileFile_refused h.settled compiled
    refine ⟨settled, ?_, ?_⟩
    · rw [files.1]
      exact h.wrapped
    · intro d hd
      exact h.stays d (kept ▸ hd)
  | ok written =>
    cases ended
    obtain ⟨⟨ds, extracted⟩, wrapped⟩ := settleFile_keeps inside
      (fun ds result => Extractor.wellNamed_of_read h.settled result) h.wrapped settle
    refine ⟨settled, wrapped, ?_⟩
    rw [extracted] at added
    obtain ⟨dirs, dependencies, mem⟩ := added
    intro d hd
    dsimp only at hd
    rw [dependencies, Dependency.in_addAll, mem] at hd
    rcases hd with old | new
    · exact h.stays d old
    · exact stays_of_in_importedDirs inside new

/-- After compiling, the wrapper modules below the scratch directory are those reported. -/
theorem compileAll_keeps {grammar : Grammar} {sources : List SourceFile}
    (inside : ∀ source ∈ sources, IsInside source) (h : Wrapped scratch s [] w.files) {p : Progress}
    (ran : outcome (compileAll grammar scratch sources) w = (.ok p, w')) :
    Compiles scratch s p w'.files := by
  have start : Compiles scratch s ⟨.fresh, [], []⟩ w.files := by
    refine ⟨settled_fresh, h, fun d none => ?_⟩
    exact ((Dependency.in_nil d).mp none).elim
  exact Visit.foldlM_keeps (fun p u => Compiles scratch s p u.files)
    (fun source mem _ _ _ _ before step => compileNext_keeps (inside source mem) before step)
    start ran

end

end HybridTemplate.Build
