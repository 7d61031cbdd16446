import HybridTemplate.Proofs.Build.Bundled
import HybridTemplate.Proofs.Build.Containment
import HybridTemplate.Proofs.Bundle.Carrying
import HybridTemplate.Proofs.Bundle.Importing
import HybridTemplate.Proofs.Component.Provenance
import HybridTemplate.Proofs.Component.Separation

set_option autoImplicit false

/-! The entry imports one module for each identifier. Modules with one identifier are of
components with the same name and text, but each resolves its relative imports from the directory
of its own template: they behave alike just where the imports lead to the same content from there.
-/
namespace HybridTemplate.Build

open HybridTemplate.Bundle (Carries Descends Registered Stays copyDependencies isInside)
open Component (Dependency Descriptor Describes Extraction Extractor Settled importDir? importsIn
  settled_fresh)
open Component.Origin (bareSpecifier)
open Config (BuildConfig)
open Digest (sha256)
open Files
open Files.System (Closed Linkless)
open HybridTemplate.Path (Component)
open Session
open Text (Bytes)
open Visit (Ends outcome outcome_bind_eq_ok outcome_get_bind outcome_modify_bind outcome_pure)

/-- The component that a module was written for, in the document that it stands in. -/
structure Provenance where
  source : SourceFile
  text : String
  tree : Node
  component : Node
  descriptor : Descriptor

def moduleOf (source : SourceFile) (d : Descriptor) : WrittenModule :=
  ⟨source.path, d.name, d.identifier, source.relativeDir.join ⟨d.fileName⟩⟩

/-- Whether a module was written for a component of what its source holds. -/
structure Provenance.Gives (grammar : Grammar) (fs : System) (o : Provenance) (m : WrittenModule) :
    Prop where
  read : ∃ bytes, fs.read o.source.path = .ok bytes ∧ Text.decode? bytes = some o.text
  parsed : grammar o.text = .ok o.tree
  extracted : ∃ ds, (Extractor.fresh.extract o.tree o.text (some o.source)).1.result = .ok ds ∧
    o.descriptor ∈ ds
  inside : o.component ∈ o.tree.preorder
  component : o.component.kind = .component
  describes : Describes o.component o.descriptor
  module : m = moduleOf o.source o.descriptor

section

variable {scratch : Path} {source : SourceFile} {w w' : Workspace}

theorem writeModules_eq_ok {ds : List Descriptor} {written : List WrittenModule}
    (h : outcome (writeModules source scratch ds) w = (.ok written, w')) :
    ∀ m ∈ written, ∃ d ∈ ds, m = moduleOf source d := by
  unfold writeModules at h
  split at h
  · cases h
    exact fun m none => absurd none List.not_mem_nil
  obtain ⟨_, u, -, h⟩ := outcome_bind_eq_ok.mp h
  refine Visit.mapM_keeps (fun ms (_ : Workspace) => ∀ m ∈ ms, ∃ d ∈ ds, m = moduleOf source d)
    ?_ (fun m none => absurd none List.not_mem_nil) h
  intro d hd ms u m v before step
  obtain ⟨_, _, -, ended⟩ := outcome_bind_eq_ok.mp step
  cases ended
  intro n hn
  rcases List.mem_append.mp hn with old | new
  · exact before n old
  · exact ⟨d, hd, List.mem_singleton.mp new⟩

theorem settleFile_eq_ok {extraction : Extraction} {written : List WrittenModule}
    (h : outcome (settleFile source scratch extraction) w = (.ok (.ok written), w')) :
    ∃ ds, extraction.result = .ok ds ∧ ∀ m ∈ written, ∃ d ∈ ds, m = moduleOf source d := by
  unfold settleFile at h
  rw [outcome_modify_bind] at h
  cases result : extraction.result with
  | error e =>
    rw [result] at h
    dsimp only at h
    split at h <;> cases h
  | ok ds =>
    rw [result] at h
    obtain ⟨ms, u, wrote, ended⟩ := outcome_bind_eq_ok.mp h
    cases ended
    exact ⟨ds, rfl, writeModules_eq_ok wrote⟩

/-- All that compiling a source adds, where it is not refused. -/
theorem compileFile_eq_ok {grammar : Grammar} {x y : Extractor} {written : List WrittenModule}
    (settled : Settled x)
    (h : outcome (compileFile grammar scratch x source) w = (.ok (y, .ok written), w')) :
    ∃ text tree ds, (∃ bytes, w.files.read source.path = .ok bytes ∧
        Text.decode? bytes = some text) ∧
      grammar text = .ok tree ∧
      (Extractor.fresh.extract tree text (some source)).1.result = .ok ds ∧
      (∀ m ∈ written, ∃ d ∈ ds, m = moduleOf source d) ∧
      ∀ e : Dependency, e.In y.dependencies ↔
        e.In x.dependencies ∨ e.In (Component.importedDirs (.of text (some source)) tree) := by
  rw [compileFile_eq] at h
  obtain ⟨text, _, read, h⟩ := outcome_bind_eq_ok.mp h
  obtain ⟨result, _, settle, ended⟩ := outcome_bind_eq_ok.mp h
  cases ended
  obtain ⟨-, bytes, rfl⟩ := readText_eq_ok.mp read
  obtain ⟨ds, extracted, modules⟩ := settleFile_eq_ok settle
  rcases parsed : grammar text with e | tree
  · simp only [Extractor.read, Extractor.extractSource, parsed, reduceCtorEq] at extracted
  · have whole : x.read (.text grammar text (some source)) = x.extract tree text (some source) := by
      simp only [Extractor.read, Extractor.extractSource, parsed]
    rw [whole] at extracted ⊢
    obtain ⟨same, -, added⟩ := Extractor.extract_settled settled tree text (some source)
    rw [extracted] at added
    obtain ⟨dirs, all, mem⟩ := added
    refine ⟨text, tree, ds, bytes, parsed, same ▸ extracted, modules, fun e => ?_⟩
    rw [all, Component.Dependency.in_addAll, mem]

theorem Confined.read_eq {s : Place} {start fs : System} (h : Confined scratch s start fs)
    (before : Linkless start scratch s) (empty : ∀ q, q ≠ [] → start.look (s ++ q) = none)
    {p : Path} (file : start.isFile p = true) : fs.read p = start.read p := by
  obtain ⟨place, content, executable, found⟩ := System.file_of_isFile file
  have here : start.look place = some (.file content executable) :=
    Entry.look_eq_file.mpr (System.at?_of_entryAt before.sound found)
  have outside : ¬ s <+: place := by
    rintro ⟨q, rfl⟩
    by_cases top : q = []
    · obtain ⟨_, scratch_found⟩ := before.found
      have there : start.look s = some .directory :=
        Entry.look_eq_directory.mpr ⟨_, System.at?_of_entryAt before.sound scratch_found⟩
      rw [top, List.append_nil] at here
      cases here.symm.trans there
    · cases here.symm.trans (empty q top)
  obtain ⟨content', executable', found'⟩ := h.grows.fileAt found
  have there : fs.look place = some (.file content' executable') :=
    Entry.look_eq_file.mpr (System.at?_of_entryAt h.tree.sound found')
  rw [h.contained place outside, here] at there
  cases there
  exact (System.read_eq_ok.mpr ⟨place, _, found'⟩).trans
    (System.read_eq_ok.mpr ⟨place, _, found⟩).symm

/-- What compiling has reached: where the modules so far come from, and that the directories of
their imports are registered. -/
structure Sourced (grammar : Grammar) (scratch : Path) (s : Place) (sources : List SourceFile)
    (start : System) (p : Progress) (fs : System) : Prop where
  reached : Reached scratch s sources start p fs
  modules : ∀ m ∈ p.modules, ∃ o : Provenance, o.source ∈ sources ∧ o.Gives grammar start m ∧
    ∀ e : Dependency, e.In (Component.importedDirs (.of o.text (some o.source)) o.tree) →
      e.In p.extractor.dependencies
  roots : ∀ e : Dependency, e.In p.extractor.dependencies →
    ∃ source ∈ sources, e.root.components = source.root.components

theorem root_of_in_importedDirs {text : String} {tree : Node} {e : Dependency}
    (h : e.In (Component.importedDirs (.of text (some source)) tree)) :
    e.root.components = source.root.components := by
  obtain ⟨d, mem, same⟩ := h
  rw [((Dependency.same_iff e d).mp same).2]
  rw [Component.importedDirs_eq_filterMap] at mem
  obtain ⟨i, -, dir⟩ := List.mem_filterMap.mp mem
  obtain ⟨spec, -, imported⟩ := Option.bind_eq_some_iff.mp dir
  rw [(Component.Origin.importedDir?_eq_some imported).1]

theorem compileNext_sourced {grammar : Grammar} {s : Place} {sources : List SourceFile}
    {start : System} {p q : Progress} (mem : source ∈ sources)
    (stays : Stays ⟨source.dir, source.root⟩) (before : Linkless start scratch s)
    (empty : ∀ q, q ≠ [] → start.look (s ++ q) = none) (file : start.isFile source.path = true)
    (h : Sourced grammar scratch s sources start p w.files)
    (ran : outcome (compileNext grammar scratch p source) w = (.ok q, w')) :
    Sourced grammar scratch s sources start q w'.files := by
  have ends : Ends _ _ (compileNext grammar scratch p source) w :=
    ends_compileNext mem stays h.reached
  have reached := ends.ok q w' ran
  obtain ⟨⟨y, result⟩, u, compiled, ended⟩ := outcome_bind_eq_ok.mp ran
  cases result with
  | error e =>
    cases ended
    obtain ⟨kept, -⟩ := compileFile_refused h.reached.settled compiled
    exact ⟨reached, kept ▸ h.modules, kept ▸ h.roots⟩
  | ok written =>
    cases ended
    obtain ⟨text, tree, ds, ⟨bytes, read, decoded⟩, parsed, extracted, new, registered⟩ :=
      compileFile_eq_ok h.reached.settled compiled
    rw [h.reached.confined.read_eq before empty file] at read
    refine ⟨reached, fun m hm => ?_, fun e he => ?_⟩
    · rcases List.mem_append.mp hm with old | added
      · obtain ⟨o, from_, gives, imports⟩ := h.modules m old
        exact ⟨o, from_, gives, fun e he => (registered e).mpr (.inl (imports e he))⟩
      · obtain ⟨d, hd, rfl⟩ := new m added
        obtain ⟨c, inside, component, describes⟩ := Extractor.exists_describes extracted hd
        exact ⟨⟨source, text, tree, c, d⟩, mem,
          ⟨⟨bytes, read, decoded⟩, parsed, ⟨ds, extracted, hd⟩, inside, component, describes, rfl⟩,
          fun e he => (registered e).mpr (.inr he)⟩
    · rcases (registered e).mp he with old | added
      · exact h.roots e old
      · exact ⟨source, mem, root_of_in_importedDirs added⟩

theorem compileAll_sourced {grammar : Grammar} {s : Place} {sources : List SourceFile}
    {p : Progress} (tree : Linkless w.files scratch s)
    (empty : ∀ q, q ≠ [] → w.files.look (s ++ q) = none)
    (stays : ∀ source ∈ sources, Stays ⟨source.dir, source.root⟩)
    (files : ∀ source ∈ sources, w.files.isFile source.path = true)
    (ran : outcome (compileAll grammar scratch sources) w = (.ok p, w')) :
    Sourced grammar scratch s sources w.files p w'.files := by
  refine Visit.foldlM_keeps (fun p u => Sourced grammar scratch s sources w.files p u.files)
    (fun source mem _ _ _ _ before step =>
      compileNext_sourced mem (stays source mem) tree empty (files source mem) before step) ?_ ran
  refine ⟨⟨settled_fresh, ⟨tree, .refl s w.files, .refl w.files⟩, ?_⟩, ?_, fun e none => ?_⟩
  · exact fun m none => absurd none List.not_mem_nil
  · exact fun m none => absurd none List.not_mem_nil
  · exact ((Dependency.in_nil e).mp none).elim

def Provenance.Imports (o : Provenance) (spec : Path) : Prop :=
  ∃ i ∈ importsIn o.component, ∃ node, i.find? .moduleSpecifier = some node ∧
    bareSpecifier node.text = spec.text.toList

def Provenance.hashed (o : Provenance) : Bytes :=
  Component.hashInput o.descriptor.name o.component.text

def Provenance.home (o : Provenance) (scratch : Path) : Path := scratch.join o.source.relativeDir

/-- Sources that are files below one root, in a project without links. -/
structure Orderly (fs : System) (root : Path) (sources : List SourceFile) : Prop where
  free : fs.LinkFree
  absolute : ∃ top : List String, root.components = .root :: top.map Component.normal
  files : ∀ source ∈ sources, fs.isFile source.path = true
  roots : ∀ source ∈ sources, source.root.components = root.components
  dirs : ∀ source ∈ sources, ∃ names : List String,
    source.dir.components = source.root.components ++ names.map Component.normal

variable {grammar : Grammar} {root spec : Path} {s : Place} {sources : List SourceFile}
  {start : System} {p : Progress} {o : Provenance} {m : WrittenModule}

theorem isInside_of_names {names : List String}
    (dir : source.dir.components = source.root.components ++ names.map Component.normal) :
    IsInside source := by
  have behind := SourceFile.components_relativeDir dir
  refine ⟨?_, fun climbs => ?_⟩
  · rw [← Bool.not_eq_true, ← Path.head?_components_eq_root, behind]
    cases names <;> simp
  · rw [behind] at climbs
    simp at climbs

theorem Provenance.Gives.registered (gives : o.Gives grammar start m) (imports : o.Imports spec)
    {ds : List Dependency} (all : ∀ e : Dependency,
      e.In (Component.importedDirs (.of o.text (some o.source)) o.tree) → e.In ds) :
    Registered ds o.source spec := by
  obtain ⟨i, mem, node, specified, bare⟩ := imports
  obtain ⟨within, isImport⟩ := List.mem_filter.mp mem
  have whole : i ∈ importsIn o.tree :=
    List.mem_filter.mpr ⟨Node.preorder_trans gives.inside within, isImport⟩
  have own {d : Dependency} (dir : importDir? (.of o.text (some o.source)) i = some d) :
      ∃ e ∈ ds, e.dir.components = d.dir.components := by
    obtain ⟨e, he, same⟩ := all d (Component.in_importedDirs whole dir)
    exact ⟨e, he, ((Dependency.same_iff d e).mp same).1.symm⟩
  refine ⟨fun rest one => ?_, fun rest two cs name dir => ?_⟩
  · have imported : importDir? (.of o.text (some o.source)) i =
        some ⟨o.source.dir, o.source.root⟩ := Bundle.importDir?_of_dot specified (bare.trans one)
    obtain ⟨e, he, same⟩ := own imported
    exact ⟨e, he, same⟩
  · obtain ⟨above, parent, components⟩ := Path.parent?_isSome dir
    have imported : importDir? (.of o.text (some o.source)) i =
        o.source.dir.parent?.map fun dir => ⟨dir, o.source.root⟩ :=
      Bundle.importDir?_of_dots specified (bare.trans two)
    rw [parent, Option.map_some] at imported
    obtain ⟨e, he, same⟩ := own imported
    exact ⟨e, he, same.trans components⟩

theorem Provenance.Gives.look_home (gives : o.Gives grammar start m) {names : List String}
    (dir : o.source.dir.components = o.source.root.components ++ names.map Component.normal)
    {fs : System} (tree : Linkless fs scratch s) {from_ : SourceFile}
    (stands : Stands scratch s from_ m fs) : fs.look (s ++ names) = some .directory := by
  obtain ⟨q, content, executable, -, found⟩ := stands.found
  have plain : Path.IsPlain o.descriptor.fileName := by
    rw [Descriptor.fileName, gives.describes.identifier]
    exact Component.isPlain_of_isModuleName
      (Component.isModuleName_identifier o.descriptor.name o.component.text)
  have behind := SourceFile.components_relativeDir dir
  have relatively := (isInside_of_names dir).1
  have path : m.path = o.source.relativeDir.join ⟨o.descriptor.fileName⟩ := by
    rw [gives.module, moduleOf]
  have components : (scratch.join m.path).components =
      scratch.components ++ (names.map Component.normal ++ [.normal o.descriptor.fileName]) := by
    rw [path, components_module tree.filled relatively plain,
      plain.components_join, Path.components_join_names behind, List.append_assoc]
  have closed : Closed (scratch.join m.path) := by
    rw [path]
    exact (System.closed_join _ plain).join (by rw [plain.isAbsolute_join, relatively]) scratch
  have place := tree.place_eq components closed (within_names [] names)
    (System.entryAt_eq_ok.mp found)
  have there := System.at?_of_entryAt tree.sound found
  change s ++ (q ++ [m.fileName]) = _ at place
  rw [place, List.nil_append, ← List.append_assoc] at there
  exact Entry.look_below (Entry.look_ne_none there) (List.cons_ne_nil _ _)

/-- When the scripts have been copied, what a component imports is read from its module as it was
read from its template. -/
theorem Sourced.exists_provenance (h : Sourced grammar scratch s sources start p w.files)
    (before : Linkless start scratch s) (orderly : Orderly start root sources)
    (stays : ∀ d ∈ p.extractor.dependencies, Stays d) {n : Nat}
    (ran : outcome (copyDependencies p.extractor.dependencies scratch) w = (.ok n, w'))
    (hm : m ∈ p.modules) :
    ∃ o : Provenance, o.source ∈ sources ∧ o.Gives grammar start m ∧
      ∀ spec content, o.Imports spec → Carries start o.source scratch spec content →
        w'.files.read ((o.home scratch).join spec) = .ok content := by
  obtain ⟨o, mem, gives, all⟩ := h.modules m hm
  refine ⟨o, mem, gives, fun spec content imports carries => ?_⟩
  obtain ⟨top, absolute⟩ := orderly.absolute
  obtain ⟨names, dir⟩ := orderly.dirs o.source mem
  obtain ⟨from_, -, stands⟩ := h.reached.modules m hm
  have own := orderly.roots o.source mem
  have confined := h.reached.confined
  refine carries.read_copied orderly.free before confined.tree confined.contained
    (own.trans absolute) dir (gives.look_home dir confined.tree stands) ?_ stays
    (gives.registered imports all) ran
  intro e he
  obtain ⟨source, hs, same⟩ := h.roots e (Dependency.in_of_mem he)
  exact same.trans ((orderly.roots source hs).trans own.symm)

/-- Modules with one identifier are of components with the same name and text, unless their
digests begin alike. -/
theorem Provenance.Gives.same_or_collides {o' : Provenance} {m' : WrittenModule}
    (gives : o.Gives grammar start m) (gives' : o'.Gives grammar start m')
    (same : m.identifier = m'.identifier) :
    (m.component = m'.component ∧ o.component.text = o'.component.text) ∨
      (o.hashed ≠ o'.hashed ∧ (sha256 o.hashed).take 20 = (sha256 o'.hashed).take 20) := by
  have name : m.component = o.descriptor.name := by rw [gives.module, moduleOf]
  have name' : m'.component = o'.descriptor.name := by rw [gives'.module, moduleOf]
  have alike : o.descriptor.identifier = o'.descriptor.identifier := by
    rwa [gives.module, gives'.module] at same
  rw [gives.describes.identifier, gives'.describes.identifier] at alike
  obtain ⟨stems, digits⟩ := Component.identifier_inj.mp alike
  rw [name, name']
  by_cases hashed : o.hashed = o'.hashed
  · exact .inl (Component.eq_of_hashInput_of_stemOf hashed stems)
  · exact .inr ⟨hashed, Component.hashDigits_inj.mp digits⟩

end

/-- Modules with one identifier are of components with the same name and text, unless their
digests begin alike. What both import is read from each module as from its own template, so that
they share it just where it is the same there. -/
theorem equal_identifiers_share_imports {grammar : Grammar} {config : BuildConfig}
    {root scratch : Path} {sources : List SourceFile} {w₀ w u w' : Workspace} {p : Progress}
    {n : Nat} (sound : w₀.files.Sound)
    (prepared : outcome (prepare config) w₀ = (.ok scratch, w))
    (orderly : Orderly w.files root sources)
    (compiled : outcome (compileAll grammar scratch sources) w = (.ok p, u))
    (copied : outcome (copyDependencies p.extractor.takeDependencies.1 scratch) u = (.ok n, w'))
    {m m' : WrittenModule} (hm : m ∈ p.modules) (hm' : m' ∈ p.modules)
    (same : m.identifier = m'.identifier) :
    ∃ o o' : Provenance, o.source ∈ sources ∧ o.Gives grammar w.files m ∧
      o'.source ∈ sources ∧ o'.Gives grammar w.files m' ∧
      ((m.component = m'.component ∧ o.component.text = o'.component.text) ∨
        (o.hashed ≠ o'.hashed ∧ (sha256 o.hashed).take 20 = (sha256 o'.hashed).take 20)) ∧
      ∀ spec content content', o.Imports spec → o'.Imports spec →
        Carries w.files o.source scratch spec content →
        Carries w.files o'.source scratch spec content' →
        let read := w'.files.read ((o.home scratch).join spec)
        let read' := w'.files.read ((o'.home scratch).join spec)
        read = .ok content ∧ read' = .ok content' ∧ (read = read' ↔ content = content') := by
  obtain ⟨_, v, output, made⟩ := outcome_bind_eq_ok.mp prepared
  obtain ⟨s, tree, empty⟩ := makeScratch_eq_ok (sound_prepareOutput sound output) made
  have behind : ∀ source ∈ sources, Stays ⟨source.dir, source.root⟩ := by
    intro source mem
    obtain ⟨names, dir⟩ := orderly.dirs source mem
    have below : Descends ⟨source.dir, source.root⟩ := Bundle.descends_of_components names dir
    exact below.stays
  have inside : ∀ source ∈ sources, IsInside source := by
    intro source mem
    obtain ⟨names, dir⟩ := orderly.dirs source mem
    exact isInside_of_names dir
  have sourced := compileAll_sourced tree empty behind orderly.files compiled
  have compiles := compileAll_keeps inside (wrapped_nil tree empty) compiled
  have stays : ∀ d ∈ p.extractor.dependencies, Stays d := fun d hd =>
    compiles.stays d (Dependency.in_of_mem hd)
  obtain ⟨o, mem, gives, reads⟩ := sourced.exists_provenance tree orderly stays copied hm
  obtain ⟨o', mem', gives', reads'⟩ := sourced.exists_provenance tree orderly stays copied hm'
  refine ⟨o, o', mem, gives, mem', gives', gives.same_or_collides gives' same, ?_⟩
  intro spec content content' imports imports' carries carries' read read'
  have own : read = .ok content := reads spec content imports carries
  have own' : read' = .ok content' := reads' spec content' imports' carries'
  exact ⟨own, own', by rw [own, own', Except.ok.injEq]⟩

/-- Two copies of a template that import a script from the directory above their own. -/
theorem equal_identifiers_share_imports_from_above :
    let tree : Node := .componentOf "Card" [.scriptOf [.branch .staticImport
      [.leaf .scriptCode "import ", .leaf .moduleSpecifier "'../lib.js'"]]]
    let copy : Entry := .directory [("card.weft", .file [99] false)]
    let files : System := ⟨.directory [
      ("p", .directory [("a", copy), ("b", copy), ("lib.js", .file [108] false)]),
      ("w", .directory [])], ["w"]⟩
    let config : BuildConfig := { BuildConfig.standard ⟨"/r"⟩ with outputFile := ⟨"out.js"⟩ }
    let a : SourceFile := ⟨⟨"/p/a/card.weft"⟩, ⟨"/p"⟩⟩
    let b : SourceFile := ⟨⟨"/p/b/card.weft"⟩, ⟨"/p"⟩⟩
    ∃ scratch w p u n w', outcome (prepare config) ⟨files, [], []⟩ = (.ok scratch, w) ∧
      outcome (compileAll (fun _ => .ok tree) scratch [a, b]) w = (.ok p, u) ∧
      outcome (copyDependencies p.extractor.takeDependencies.1 scratch) u = (.ok n, w') ∧
      ∃ m ∈ p.modules, ∃ m' ∈ p.modules, m.source = a.path ∧ m'.source = b.path ∧
        m.identifier = m'.identifier ∧
        w'.files.read ((scratch.join a.relativeDir).join ⟨"../lib.js"⟩) =
          w'.files.read ((scratch.join b.relativeDir).join ⟨"../lib.js"⟩) := by
  intro tree copy files config a b
  let lib (source : SourceFile) : Path := source.dir.join ⟨"../lib.js"⟩
  -- All that is needed of the run is looked at in one go.
  let script : Session Bool := do
    let scratch ← prepare config
    let w ← get
    let p ← compileAll (fun _ => .ok tree) scratch [a, b]
    let _ ← copyDependencies p.extractor.takeDependencies.1 scratch
    return w.files.top.isLinkFree && [a, b].all (fun source => w.files.isFile source.path &&
        w.files.read (lib source) == .ok [108] &&
        !isInside w.files (lib source) scratch) &&
      (p.modules.map fun m => m.source.text) == [a.path.text, b.path.text] &&
      p.modules.all fun m => p.modules.all fun m' => m.identifier == m'.identifier
  have shown : (outcome script ⟨files, [], []⟩).1.toOption.map id = some true := by decide +kernel
  obtain ⟨_, ended, rfl⟩ := exists_of_map_toOption shown
  obtain ⟨scratch, w, prepared, rest⟩ := outcome_bind_eq_ok.mp (Prod.ext ended rfl)
  rw [outcome_get_bind] at rest
  obtain ⟨p, u, compiled, rest⟩ := outcome_bind_eq_ok.mp rest
  obtain ⟨n, w', copied, checked⟩ := outcome_bind_eq_ok.mp rest
  rw [outcome_pure] at checked
  have checks := Except.ok.inj (congrArg Prod.fst checked)
  simp only [Bool.and_eq_true, List.all_eq_true, beq_iff_eq, Bool.not_eq_true'] at checks
  obtain ⟨⟨⟨free, here⟩, modules⟩, same⟩ := checks
  obtain ⟨m, others, first, path, modules⟩ := List.map_eq_cons_iff.mp modules
  obtain ⟨m', _, second, path', -⟩ := List.map_eq_cons_iff.mp modules
  have hm : m ∈ p.modules := by
    rw [first]
    exact List.mem_cons_self
  have hm' : m' ∈ p.modules := by
    rw [first, second]
    exact List.mem_cons_of_mem _ List.mem_cons_self
  have dirs : ∀ source ∈ [a, b], ∃ name : String,
      source.dir.components = source.root.components ++ [name].map Component.normal := by
    intro source mem
    rcases List.mem_pair.mp mem with rfl | rfl
    · exact ⟨"a", by decide +kernel⟩
    · exact ⟨"b", by decide +kernel⟩
  have orderly : Orderly w.files ⟨"/p"⟩ [a, b] :=
    ⟨Entry.look_ne_link free, ⟨["p"], by decide +kernel⟩, fun source mem => (here source mem).1.1,
      by decide +kernel, fun source mem => by
        obtain ⟨name, dir⟩ := dirs source mem
        exact ⟨[name], dir⟩⟩
  have imports {o : Provenance} {n : WrittenModule}
      (gives : o.Gives (fun _ => .ok tree) w.files n) : o.Imports ⟨"../lib.js"⟩ := by
    have one : tree.preorder.filter (fun c => c.kind = .component) = [tree] := rfl
    have parsed : tree = o.tree := Except.ok.inj gives.parsed
    have whole : o.component ∈ [tree] :=
      one ▸ List.mem_filter.mpr ⟨parsed ▸ gives.inside, decide_eq_true gives.component⟩
    rw [Provenance.Imports, List.mem_singleton.mp whole]
    exact ⟨_, List.mem_singleton.mpr rfl, _, rfl, by decide +kernel⟩
  have carries : ∀ source ∈ [a, b], Carries w.files source scratch ⟨"../lib.js"⟩ [108] := by
    intro source mem
    obtain ⟨name, dir⟩ := dirs source mem
    obtain ⟨⟨-, read⟩, outside⟩ := here source mem
    have text : "../lib.js".toList = '.' :: '.' :: '/' :: "lib.js".toList := by decide +kernel
    have leads : Bundle.Leads ⟨"../lib.js"⟩ ([] ++ [name]) [] ["lib.js"] :=
      .above text (by decide +kernel)
    exact ⟨⟨[name], [], ["lib.js"], dir, leads, by decide, by decide, by decide⟩, read,
      by decide +kernel, outside⟩
  have sound : files.Sound := ⟨by decide +kernel, by decide +kernel⟩
  obtain ⟨o, o', mem, gives, mem', gives', -, reads⟩ := equal_identifiers_share_imports sound
    prepared orderly compiled copied hm hm' (same m hm m' hm')
  have own : m.source = o.source.path := by rw [gives.module, moduleOf]
  have own' : m'.source = o'.source.path := by rw [gives'.module, moduleOf]
  have source : o.source = a := by
    refine (List.mem_pair.mp mem).resolve_right fun other => ?_
    rw [own, other] at path
    exact absurd path (by decide)
  have source' : o'.source = b := by
    refine (List.mem_pair.mp mem').resolve_left fun other => ?_
    rw [own', other] at path'
    exact absurd path' (by decide)
  obtain ⟨read, read', -⟩ := reads ⟨"../lib.js"⟩ [108] [108] (imports gives) (imports gives')
    (carries o.source mem) (carries o'.source mem')
  rw [Provenance.home, source] at read
  rw [Provenance.home, source'] at read'
  exact ⟨scratch, w, p, u, n, w', prepared, compiled, copied, m, hm, m', hm',
    own.trans (congrArg _ source), own'.trans (congrArg _ source'), same m hm m' hm',
    read.trans read'.symm⟩

/-- Two copies of a template with different scripts beside them: the modules share an identifier,
but what both import is not the same from each. -/
theorem equal_identifiers_lead_apart :
    let tree : Node := .componentOf "Card" [.scriptOf [.branch .staticImport
      [.leaf .scriptCode "import ", .leaf .moduleSpecifier "'./lib.js'"]]]
    let copy : UInt8 → Entry := fun script =>
      .directory [("card.weft", .file [99] false), ("lib.js", .file [script] false)]
    let files : System := ⟨.directory [("p", .directory [("a", copy 49), ("b", copy 50)]),
      ("s", .directory [])], []⟩
    let a : SourceFile := ⟨⟨"/p/a/card.weft"⟩, ⟨"/p"⟩⟩
    let b : SourceFile := ⟨⟨"/p/b/card.weft"⟩, ⟨"/p"⟩⟩
    let compiled := outcome (compileAll (fun _ => .ok tree) ⟨"/s"⟩ [a, b]) ⟨files, [], []⟩
    let ds : List Dependency := [⟨⟨"/p/a"⟩, ⟨"/p"⟩⟩, ⟨⟨"/p/b"⟩, ⟨"/p"⟩⟩]
    let copied := outcome (copyDependencies ds ⟨"/s"⟩) compiled.2
    let read : SourceFile → Except OsError Bytes := fun source =>
      copied.2.files.read ((Path.join ⟨"/s"⟩ source.relativeDir).join ⟨"./lib.js"⟩)
    (compiled.1.toOption.map fun p => (p.modules.map fun m => (m.source.text, m.component),
      (p.modules.map fun m => m.identifier).eraseDups.length,
      p.extractor.takeDependencies.1.map fun d => (d.dir.text, d.root.text))) =
        some ([("/p/a/card.weft", "Card"), ("/p/b/card.weft", "Card")], 1,
          [("/p/a", "/p"), ("/p/b", "/p")]) ∧
      copied.1.toOption = some 2 ∧ read a = .ok [49] ∧ read b = .ok [50] := by
  intro tree copy files a b compiled ds copied read
  have sorted : List.mergeSort [(⟨⟨"/p/a"⟩, ⟨"/p"⟩⟩ : Dependency), ⟨⟨"/p/b"⟩, ⟨"/p"⟩⟩]
      Bundle.dependencyLe = [⟨⟨"/p/a"⟩, ⟨"/p"⟩⟩, ⟨⟨"/p/b"⟩, ⟨"/p"⟩⟩] :=
    List.mergeSort_of_pairwise (by decide +kernel)
  simp only [read, copied, ds, copyDependencies, sorted]
  decide +kernel

end HybridTemplate.Build
