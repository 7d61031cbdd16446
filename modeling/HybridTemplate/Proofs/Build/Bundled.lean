import HybridTemplate.Proofs.Build.Wrappers
import HybridTemplate.Proofs.Bundle.Entry

set_option autoImplicit false

namespace HybridTemplate.Build

open HybridTemplate.Bundle (Copied Programs copyDependencies copyDependencies_eq_ok entryImports
  entryImport?_identifier foldlM_copyDependency_keeps keys_entryImports writeEntry_eq_ok)
open Component (Dependency isModulePath)
open Config (BuildConfig)
open Files
open Files.System (Linkless)
open HybridTemplate.Path (Component)
open Session
open Visit (outcome outcome_bind_eq_ok outcome_get_bind outcome_modify_bind outcome_pure)

variable {scratch : Path} {s : Place} {modules : List WrittenModule} {fs : System}
  {config : BuildConfig} {w w' : Workspace} {done : Unit}

theorem sound_makeDirectories {p : Path} (sound : w.files.Sound)
    (h : outcome (Session.makeDirectories p) w = (.ok done, w')) : w'.files.Sound := by
  obtain ⟨-, files, made, rfl⟩ := makeDirectories_eq_ok.mp h
  have adds := System.addsDirectories_makeDirectories sound p
  rw [made] at adds
  exact adds.sound

theorem sound_removeStale {p : Path} (sound : w.files.Sound)
    (h : outcome (removeStale p) w = (.ok done, w')) : w'.files.Sound := by
  unfold removeStale at h
  rw [outcome_get_bind] at h
  split at h
  · obtain ⟨-, files, removed, rfl⟩ := changeFiles_eq_ok.mp h
    exact System.sound_removeFile sound removed
  · cases h
    exact sound

theorem sound_prepareOutput (sound : w.files.Sound)
    (h : outcome (prepareOutput config) w = (.ok done, w')) : w'.files.Sound := by
  have cleaning {u : Workspace} (sound : u.files.Sound)
      (h : outcome (do
        if config.clean then
          removeStale config.outputFile
          removeStale ⟨config.outputFile.text ++ ".map"⟩) u = (.ok done, w')) : w'.files.Sound := by
    split at h
    · obtain ⟨_, v, bundle, map⟩ := outcome_bind_eq_ok.mp h
      exact sound_removeStale (sound_removeStale sound bundle) map
    · cases h
      exact sound
  unfold prepareOutput at h
  dsimp only at h
  split at h
  · exact cleaning sound h
  · obtain ⟨_, v, made, h⟩ := outcome_bind_eq_ok.mp h
    exact cleaning (sound_makeDirectories sound made) h

theorem changeScratch_eq_ok {p : Path} {f : System → Except OsError System} :
    outcome (changeScratch p scratch f) w = (.ok done, w') ↔
      '\x00' ∉ scratch.text.toList ∧ ∃ files, f w.files = .ok files ∧ w' = { w with files } := by
  unfold changeScratch
  by_cases zero : '\x00' ∈ scratch.text.toList
  · simp [zero]
  · rw [if_neg (by simpa using zero), outcome_get_bind]
    cases changed : f w.files with
    | error e => simp
    | ok files => simp [zero, Visit.outcome_modify, eq_comm]

theorem makeScratch_eq_ok (sound : w.files.Sound)
    (h : outcome (makeScratch config) w = (.ok scratch, w')) :
    ∃ s, Linkless w'.files scratch s ∧ ∀ q, q ≠ [] → w'.files.look (s ++ q) = none := by
  obtain ⟨_, u, parents, h⟩ := outcome_bind_eq_ok.mp h
  have sound' := sound_makeDirectories sound parents
  rw [outcome_get_bind] at h
  obtain ⟨_, v, changed, ended⟩ := outcome_bind_eq_ok.mp h
  obtain ⟨-, files, made, rfl⟩ := changeScratch_eq_ok.mp changed
  cases ended
  obtain ⟨s, entries, found, new, sets⟩ := System.entryAt_of_makeDirectory sound' made
  have empty : ∀ q, q ≠ [] → files.look (s ++ q) = none := by
    intro q filled
    rw [sets.look_of_ne (by simpa using filled)]
    by_contra something
    cases new.symm.trans (Entry.look_below something filled)
  refine ⟨s, ⟨sets.sound, ⟨entries, found⟩, fun q target there => ?_⟩, empty⟩
  by_cases here : q = []
  · rw [here, List.append_nil] at there
    cases there.symm.trans sets.look_self
  · cases there.symm.trans (empty q here)

theorem prepare_eq_ok (sound : w.files.Sound)
    (h : outcome (prepare config) w = (.ok scratch, w')) :
    ∃ s, Wrapped scratch s [] w'.files := by
  obtain ⟨_, u, output, made⟩ := outcome_bind_eq_ok.mp h
  obtain ⟨s, tree, empty⟩ := makeScratch_eq_ok (sound_prepareOutput sound output) made
  exact ⟨s, wrapped_nil tree empty⟩

theorem Wrapped.exists_scanned (h : Wrapped scratch s modules fs) {m : WrittenModule}
    (hm : m ∈ modules) :
    ∃ q ∈ Discovery.componentModules fs scratch, (scratch.join m.path).same q = true := by
  obtain ⟨-, above, here, content, executable, there⟩ := h.written m hm
  obtain ⟨entries, found⟩ := h.tree.found
  have filled : above ++ [m.fileName] ≠ [] :=
    List.append_ne_nil_of_right_ne_nil above (List.cons_ne_nil _ _)
  have file := Entry.look_eq_file.mp there
  have plain := h.tree.sound.isPlain file
  refine ⟨scratch.below (above ++ [m.fileName]), List.mem_filter.mpr ⟨?_, ?_⟩, ?_⟩
  · exact (System.mem_filesBelow h.tree.sound found).mpr
      ⟨_, content, executable, filled, file, rfl⟩
  · rw [isModulePath, Path.fileName?_below scratch plain, Option.any_some]
    exact h.isModuleName_fileName hm
  · exact Path.same_iff.mpr (here.trans (Path.components_below scratch plain).symm)

theorem Wrapped.exists_module (h : Wrapped scratch s modules fs) {q : Path}
    (hq : q ∈ Discovery.componentModules fs scratch) :
    ∃ m ∈ modules, q.components = (scratch.join m.path).components := by
  obtain ⟨listed, module⟩ := List.mem_filter.mp hq
  obtain ⟨entries, found⟩ := h.tree.found
  obtain ⟨names, content, executable, filled, there, rfl⟩ :=
    (System.mem_filesBelow h.tree.sound found).mp listed
  have plain := h.tree.sound.isPlain there
  obtain ⟨above, name, rfl⟩ := (List.eq_nil_or_concat names).resolve_left filled
  rw [List.concat_eq_append] at *
  rw [isModulePath, Path.fileName?_below scratch plain, Option.any_some] at module
  obtain ⟨m, hm, here⟩ := h.only above name content executable module (Entry.look_eq_file.mpr there)
  exact ⟨m, hm, (Path.components_below scratch plain).trans here.symm⟩

theorem Wrapped.entryImport? (h : Wrapped scratch s modules fs) {m : WrittenModule}
    (hm : m ∈ modules) {q : Path} (same : q.components = (scratch.join m.path).components) :
    ∃ specifier, Bundle.entryImport? scratch q = some ⟨m.identifier, specifier⟩ := by
  obtain ⟨⟨source, identified⟩, above, here, -⟩ := h.written m hm
  rw [WrittenModule.IsAt, WrittenModule.fileName, identified] at here
  rw [identified]
  exact ⟨_, entryImport?_identifier (same.trans here)⟩

/-- The keys of the entry are the identifiers of the modules, each once. -/
theorem Wrapped.keys (h : Wrapped scratch s modules fs) :
    (entryImports scratch (modules.map fun m => scratch.join m.path)
      (Discovery.componentModules fs scratch)).map (·.key) =
        (modules.map (·.identifier)).eraseDups := by
  refine keys_entryImports (fun m hm => h.exists_scanned hm) (fun m hm => h.entryImport? hm rfl) ?_
  intro q hq
  obtain ⟨m, hm, same⟩ := h.exists_module hq
  exact ⟨m, hm, h.entryImport? hm same⟩

theorem copyDependencies_keeps_modules (h : Wrapped scratch s modules w.files)
    {ds : List Dependency} (stays : ∀ d ∈ ds, Bundle.Stays d) {n : Nat}
    (ran : outcome (copyDependencies ds scratch) w = (.ok n, w')) :
    Wrapped scratch s modules w'.files := by
  obtain ⟨copied, -, run⟩ := copyDependencies_eq_ok ran
  refine (foldlM_copyDependency_keeps (fun _ fs => Wrapped scratch s modules fs)
    (fun _ _ kept => kept.tree.sound) ?_ h run).1
  intro d mem file place content copied fs later relative target kept script copies
  exact kept.copies (stays d (List.mem_mergeSort.mp mem)) script copies

theorem bundle_eq_ok {programs : Programs} {written : List Path} {ds : List Dependency}
    {output : Path} {keys : List String} {n : Nat}
    (h : outcome (Bundle.bundle programs scratch written ds config) w =
      (.ok (.bundled output keys n), w')) :
    ∃ u, outcome (copyDependencies ds scratch) w = (.ok n, u) ∧
      keys = (entryImports scratch written (Discovery.componentModules u.files scratch)).map
        (·.key) := by
  unfold Bundle.bundle at h
  rw [outcome_get_bind] at h
  split at h
  · obtain ⟨_, _, -, ended⟩ := outcome_bind_eq_ok.mp h
    cases ended
  obtain ⟨m, u, copied, h⟩ := outcome_bind_eq_ok.mp h
  obtain ⟨result, v, entered, h⟩ := outcome_bind_eq_ok.mp h
  rcases result with _ | ⟨entry, components⟩
  · cases h
  · obtain ⟨_, x, -, ended⟩ := outcome_bind_eq_ok.mp h
    cases ended
    exact ⟨u, copied, (writeEntry_eq_ok entered).2.1⟩

theorem bundleOutcome_eq_ok {bundling : Session Bundle.BundleOutcome} {output : Path}
    {keys : List String} {n : Nat}
    (h : outcome (bundleOutcome bundling) w = (.ok (.bundled output keys n), w')) :
    outcome bundling w = (.ok (.bundled output keys n), w') := by
  unfold bundleOutcome at h
  rw [Visit.outcome_tryCatch] at h
  rcases bundled : outcome bundling w with ⟨e | result, u⟩
  · rw [bundled] at h
    dsimp only at h
    split at h <;> cases h
  · rw [bundled] at h
    exact h

/-- In an empty scratch directory the entry of the bundle has the reported modules. -/
theorem runIn_bundled {programs : Programs} {grammar : Grammar} {sources : List SourceFile}
    {report : Report} {output : Path} {keys : List String} {n : Nat}
    (inside : ∀ source ∈ sources, IsInside source) (h : Wrapped scratch s [] w.files)
    (ran : outcome (runIn programs grammar config scratch sources) w = (.ok report, w'))
    (bundled : report.bundle = .bundled output keys n) :
    keys = (report.modules.map (·.identifier)).eraseDups := by
  obtain ⟨p, u, compiled, rest⟩ := outcome_bind_eq_ok.mp ran
  obtain ⟨result, v, bundling, ended⟩ := outcome_bind_eq_ok.mp rest
  cases ended
  dsimp only at bundled ⊢
  rw [bundled] at bundling
  have compiles := compileAll_keeps inside h compiled
  obtain ⟨x, copied, rfl⟩ := bundle_eq_ok (bundleOutcome_eq_ok bundling)
  have stays : ∀ d ∈ p.extractor.dependencies, Bundle.Stays d := fun d hd =>
    compiles.stays d (Dependency.in_of_mem hd)
  exact (copyDependencies_keeps_modules compiles.wrapped stays copied).keys

theorem runOn_eq_ok {programs : Programs} {grammar : Grammar} {sources : List SourceFile}
    {report : Report}
    (h : outcome (runOn programs grammar config sources scratch) w = (.ok report, w')) :
    ∃ u, outcome (runIn programs grammar config scratch sources) w = (.ok report, u) := by
  obtain ⟨result, v, tried, rest⟩ := outcome_bind_eq_ok.mp h
  obtain ⟨_, _, -, ended⟩ := outcome_bind_eq_ok.mp rest
  cases ended
  rw [Visit.outcome_tryCatch] at tried
  rcases ran : outcome (runIn programs grammar config scratch sources) w with ⟨e | result, u⟩
  · rw [ran] at tried
    obtain ⟨_, _, -, thrown⟩ := outcome_bind_eq_ok.mp tried
    cases thrown
  · rw [ran] at tried
    cases tried
    exact ⟨v, rfl⟩

/-- The entry lists just the compiled components: where a build ends with a bundle, the
bundle's components are the identifiers of the reported modules, in order and each once,
whatever stands in the directories that are copied. -/
theorem run_bundles_modules (programs : Programs) (grammar : Grammar) (config : BuildConfig)
    {sources : List SourceFile} {w w' : Workspace} {report : Report} {output : Path}
    {components : List String} {n : Nat} (sound : w.files.Sound)
    (inside : ∀ source ∈ sources, IsInside source)
    (ran : outcome (run programs grammar config sources) w = (.ok report, w'))
    (bundled : report.bundle = .bundled output components n) :
    components = (report.modules.map (·.identifier)).eraseDups := by
  rw [run_eq] at ran
  obtain ⟨scratch, u, prepared, rest⟩ := outcome_bind_eq_ok.mp ran
  obtain ⟨s, wrapped⟩ := prepare_eq_ok sound prepared
  obtain ⟨v, built⟩ := runOn_eq_ok rest
  exact runIn_bundled inside wrapped built bundled

def bundledCounts? : Bundle.BundleOutcome → Option (Nat × Nat)
  | .bundled _ components copied => some (components.length, copied)
  | _ => none

/-- One template, listed twice, that imports a script; a wrapper of an earlier build stands
beside it. -/
theorem run_bundles_modules_repeated :
    let import_ : Node := .branch .staticImport
      [.leaf .scriptCode "import ", .leaf .moduleSpecifier "'./lib.js'"]
    let script : Node := .branch .webScript [.leaf .elementPunct "<", .leaf .elementName "script",
      .leaf .space "", .leaf .space "", .leaf .elementPunct ">",
      .branch .scriptBody [import_, .leaf .scriptCode ";run()"]]
    let tree : Node := .branch .component
      [.branch .componentHeader [.leaf .componentName "Card"], script]
    let files : System := ⟨.directory [("p", .directory [("card.weft", .file [99] false),
      ("lib.js", .file [108] false),
      ("old_0123456789abcdef0123456789abcdef01234567.js", .file [111] false)]),
      ("w", .directory [])], ["w"]⟩
    let config : BuildConfig := { BuildConfig.standard ⟨"/r"⟩ with
      outputFile := ⟨"out.js"⟩, bundler := ⟨some ⟨"bundler"⟩, [], "NODE_PATH"⟩ }
    let programs : Programs :=
      ⟨fun _ _ _ fs => .ok ⟨.code 0, [], fs⟩, fun _ _ _ => .error "cannot find binary path"⟩
    let card : SourceFile := ⟨⟨"/p/card.weft"⟩, ⟨"/p"⟩⟩
    ∃ report w' output components, outcome
        (run programs (fun _ => .ok tree) config [card, card]) ⟨files, [], []⟩ = (.ok report, w') ∧
      report.bundle = .bundled output components 1 ∧ report.modules.length = 2 ∧
      components.length = 1 ∧ components = (report.modules.map (·.identifier)).eraseDups := by
  intro import_ script tree files config programs card
  have shown : ((outcome (run programs (fun _ => .ok tree) config [card, card])
      ⟨files, [], []⟩).1.toOption.map fun r =>
        (r.modules.length, bundledCounts? r.bundle)) = some (2, some (1, 1)) := by decide +kernel
  have sound : files.Sound := ⟨by decide +kernel, by decide +kernel⟩
  have inside : ∀ source ∈ [card, card], IsInside source := by
    have each : IsInside card := ⟨by decide +kernel, by decide +kernel⟩
    simpa using each
  rcases ran : outcome (run programs (fun _ => .ok tree) config [card, card]) ⟨files, [], []⟩
    with ⟨e | report, w'⟩
  · rw [ran] at shown
    cases shown
  · rw [ran] at shown
    cases bundled : report.bundle with
    | nothingToBundle => simp [bundled, bundledCounts?, Except.toOption] at shown
    | failed e => simp [bundled, bundledCounts?, Except.toOption] at shown
    | bundled output components n =>
      simp only [bundled, bundledCounts?, Except.toOption, Option.map_some, Option.some.injEq,
        Prod.mk.injEq] at shown
      obtain ⟨modules, single, rfl⟩ := shown
      exact ⟨report, w', output, components, rfl, bundled, modules, single,
        run_bundles_modules programs (fun _ => .ok tree) config sound inside ran bundled⟩

end HybridTemplate.Build
