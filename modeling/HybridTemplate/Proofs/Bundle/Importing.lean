import HybridTemplate.Proofs.Bundle.Copying
import HybridTemplate.Proofs.Component.Hoisting
import HybridTemplate.Proofs.Files.Above

set_option autoImplicit false

namespace HybridTemplate.Bundle

open Component (Dependency Descriptor Extractor Settled importDir? importsIn)
open Component.Origin (bareSpecifier)
open Files
open Files.System (Closed Grows)
open HybridTemplate.Path (Component)
open Visit (outcome outcome_get_bind)

/-- Whether the directory of a dependency is the one at a place. Its scripts are copied then,
whatever has been added to the files since. -/
structure Names (fs : System) (d : Dependency) (place : Place) : Prop where
  found : ∃ entries, fs.entryAt true d.dir = .ok (place, .directory entries)
  copied : ∀ (scratch : Path) (copied : Copied) (w : Workspace), Grows fs w.files →
    outcome (copyDependency scratch copied d) w =
      outcome ((Discovery.scripts w.files d.dir).foldlM (copyScript scratch d.root) copied) w

section

variable {fs : System} {d : Dependency} {place : Place} {entries : List (String × Entry)}

theorem isDirectory_of_entryAt {p : Path}
    (found : fs.entryAt true p = .ok (place, .directory entries)) : fs.isDirectory p = true := by
  rw [System.isDirectory, System.status?, found]
  rfl

theorem names_of_entryAt (found : fs.entryAt true d.dir = .ok (place, .directory entries)) :
    Names fs d place where
  found := ⟨entries, found⟩
  copied := by
    intro scratch copied w grows
    obtain ⟨_, there⟩ := grows.directoryAt found
    unfold copyDependency
    rw [outcome_get_bind]
    dsimp only
    rw [if_pos (isDirectory_of_entryAt there)]

end

section

variable {fs : System} {file : SourceFile} {place : Place} {e : Entry}

/-- The directory of a source is the one that the source stands in, unless its path is bare. -/
theorem entryAt_dir (sound : fs.Sound) (here : fs.entryAt false file.path = .ok (place, e))
    (plain : e.isDirectory = false) (filled : file.dir.text ≠ "") :
    ∃ entries, fs.entryAt true file.dir = .ok (place.dropLast, .directory entries) :=
  (System.directoryAt_parent sound here (.inl plain) rfl).2 filled

/-- Where the path of the directory ends with a name that is no link, the path above it leads to
the directory above. -/
theorem entryAt_above_dir (sound : fs.Sound) (here : fs.entryAt false file.path = .ok (place, e))
    (plain : e.isDirectory = false) {cs : List Component} {name : String}
    (named : file.dir.components = cs ++ [.normal name]) (more : cs ≠ [])
    (linkless : ∀ q target, fs.entryAt false file.dir ≠ .ok (q, .link target)) :
    ∃ above entries, file.dir.parent? = some above ∧
      fs.entryAt true above = .ok (place.dropLast.dropLast, .directory entries) := by
  have filled : file.dir.text ≠ "" := fun empty => by
    rw [Path.components_eq_nil.mpr empty] at named
    cases cs <;> cases named
  obtain ⟨above, parent, components⟩ := Path.parent?_isSome named
  have some : above.text ≠ "" := fun empty =>
    more (components.symm.trans (Path.components_eq_nil.mpr empty))
  have closed : Closed file.dir := by
    unfold SourceFile.dir at named ⊢
    cases up : file.path.parent? with
    | some q =>
      rw [up] at named
      exact Path.closed_parent? up named
    | none =>
      rw [up] at named
      cases cs <;> cases named
  obtain ⟨entries, followed⟩ := entryAt_dir sound here plain filled
  obtain ⟨-, reached⟩ := System.locate_eq_ok.mp (System.entryAt_eq_ok.mp followed)
  obtain ⟨q, f, there⟩ := reached.exists_unfollowed
  have found : fs.entryAt false file.dir = .ok (q, f) :=
    System.entryAt_eq_ok.mpr (System.locate_eq_ok.mpr ⟨filled, there⟩)
  have again := there.of_plain (fun p target same => by
    cases same
    exact linkless _ target found) true
  cases (reached.walk_eq).symm.trans again.walk_eq
  have own : above = file.dir.parent?.getD ⟨""⟩ := by rw [parent]; rfl
  obtain ⟨inner, up⟩ :=
    (System.directoryAt_parent sound found (.inr ⟨closed, cs, name, named⟩) own).2 some
  exact ⟨above, inner, parent, up⟩

end

/-- A parent with no components of its own leads nowhere. -/
theorem not_isDirectory_of_short {fs : System} {p q : Path} (short : p.components.length ≤ 1)
    (above : p.parent? = some q) : fs.isDirectory q = false := by
  have none : q.components = [] := by
    rw [(Path.parent?_eq_some above).2]
    refine List.eq_nil_of_length_eq_zero ?_
    rw [List.length_dropLast]
    omega
  rw [System.isDirectory, System.status?, System.entryAt, System.locate,
    Path.components_eq_nil.mp none]
  rfl

section

variable {file : SourceFile} {text : String} {m spec : Node} {rest : List Char}

theorem importDir?_of_dot (specified : m.find? .moduleSpecifier = some spec)
    (one : bareSpecifier spec.text = '.' :: '/' :: rest) :
    importDir? (.of text (some file)) m = some ⟨file.dir, file.root⟩ := by
  rw [importDir?, specified, Option.bind_some]
  simp only [Component.Origin.importedDir?, Component.Origin.of, Option.bind_some, one]

theorem importDir?_of_dots (specified : m.find? .moduleSpecifier = some spec)
    (two : bareSpecifier spec.text = '.' :: '.' :: '/' :: rest) :
    importDir? (.of text (some file)) m =
      file.dir.parent?.map fun dir => ⟨dir, file.root⟩ := by
  rw [importDir?, specified, Option.bind_some]
  simp only [Component.Origin.importedDir?, Component.Origin.of, Option.bind_some, two]

end

theorem exists_registered {x : Extractor} (settled : Settled x) {tree m : Node} {text : String}
    {file : Option SourceFile} {ds : List Descriptor} {d : Dependency}
    (read : (x.extract tree text file).1.result = .ok ds) (imported : m ∈ importsIn tree)
    (dir : importDir? (.of text file) m = some d) :
    ∃ e ∈ (x.extract tree text file).2.dependencies,
      e.dir.components = d.dir.components ∧ e.root.components = d.root.components := by
  obtain ⟨-, -, added⟩ := Component.Extractor.extract_settled settled tree text file
  rw [read] at added
  obtain ⟨dirs, all, mem⟩ := added
  have own : d.In (Component.importedDirs (.of text file) tree) :=
    Component.in_importedDirs imported dir
  obtain ⟨e, he, same⟩ :=
    (Dependency.in_addAll d x.dependencies dirs).mpr (.inr ((mem d).mpr own))
  obtain ⟨there, root⟩ := (Dependency.same_iff d e).mp same
  exact ⟨e, all ▸ he, there.symm, root.symm⟩

/-- What a relative import registers: with one dot the directory that the document stands in,
unless the document's path is bare; with two dots the directory above, where the path has a
further name for it and does not end with dots or a link. Above a path of one component there is
only the empty path, which never is a directory. -/
theorem imports_register_directories {fs : System} (sound : fs.Sound) {file : SourceFile}
    {place : Place} {e : Entry} (here : fs.entryAt false file.path = .ok (place, e))
    (plain : e.isDirectory = false) {x : Extractor} (settled : Settled x) {tree m spec : Node}
    {text : String} {ds : List Descriptor}
    (read : (x.extract tree text (some file)).1.result = .ok ds) (imported : m ∈ importsIn tree)
    (specified : m.find? .moduleSpecifier = some spec) :
    let registered := (x.extract tree text (some file)).2.dependencies
    (∀ rest, bareSpecifier spec.text = '.' :: '/' :: rest →
      ∃ d ∈ registered, d.dir.components = file.dir.components ∧
        d.root.components = file.root.components ∧
        (Names fs d place.dropLast ↔ file.dir.text ≠ "")) ∧
    ∀ rest, bareSpecifier spec.text = '.' :: '.' :: '/' :: rest →
      (∀ cs name, file.dir.components = cs ++ [.normal name] → cs ≠ [] →
        (∀ q target, fs.entryAt false file.dir ≠ .ok (q, .link target)) →
        ∃ d ∈ registered, d.dir.components = cs ∧ d.root.components = file.root.components ∧
          Names fs d place.dropLast.dropLast) ∧
      (file.dir.components.length ≤ 1 → ∀ d, importDir? (.of text (some file)) m = some d →
        fs.isDirectory d.dir = false) := by
  refine ⟨fun rest one => ?_, fun rest two => ⟨?_, ?_⟩⟩
  · obtain ⟨d, mem, same, root⟩ :=
      exists_registered settled read imported (importDir?_of_dot specified one)
    refine ⟨d, mem, same, root, fun names empty => ?_, fun filled => ?_⟩
    · obtain ⟨_, found⟩ := names.found
      have none : d.dir.text = "" :=
        Path.components_eq_nil.mp (same.trans (Path.components_eq_nil.mpr empty))
      exact (System.locate_eq_ok.mp (System.entryAt_eq_ok.mp found)).1 none
    · obtain ⟨_, found⟩ := entryAt_dir sound here plain filled
      exact names_of_entryAt (System.directoryAt_of_components same found)
  · intro cs name named more linkless
    obtain ⟨above, _, parent, found⟩ := entryAt_above_dir sound here plain named more linkless
    have own : importDir? (.of text (some file)) m =
        file.dir.parent?.map fun dir => ⟨dir, file.root⟩ := importDir?_of_dots specified two
    rw [parent, Option.map_some] at own
    obtain ⟨d, mem, same, root⟩ := exists_registered settled read imported own
    refine ⟨d, mem, ?_, root, names_of_entryAt (System.directoryAt_of_components same found)⟩
    rw [same, (Path.parent?_eq_some parent).2, named, List.dropLast_concat]
  · intro short d own
    rw [importDir?_of_dots specified two] at own
    obtain ⟨above, parent, rfl⟩ := Option.map_eq_some_iff.mp own
    exact not_isDirectory_of_short short parent

/-- A document whose path begins with a dot, with an import of each kind. -/
theorem imports_register_directories_behind_dot :
    let script : String → Node := fun specifier => .branch .staticImport
      [.leaf .scriptCode "import ", .leaf .moduleSpecifier specifier]
    let tree : Node := .branch .document
      [.componentOf "Card" [.scriptOf [script "'./a.js'", script "'../b.js'"]]]
    let file := SourceFile.single ⟨"./app/card.weft"⟩
    let fs : System := ⟨.directory [("p", .directory [("app", .directory
      [("a.js", .file [97] false), ("card.weft", .file [99] false)]),
      ("b.js", .file [98] false)])], ["p"]⟩
    let registered := (Extractor.fresh.extract tree tree.text file).2.dependencies
    (∃ d ∈ registered, Names fs d ["p", "app"]) ∧ ∃ d ∈ registered, Names fs d ["p"] := by
  intro script tree file fs registered
  have sound : fs.Sound := ⟨by decide +kernel, by decide +kernel⟩
  have there : (fs.entryAt false file.path).toOption.map (fun f => (f.1, f.2.isDirectory)) =
      some (["p", "app", "card.weft"], false) := by decide +kernel
  obtain ⟨⟨place, e⟩, here, stands⟩ := exists_of_map_toOption there
  obtain ⟨rfl, plain⟩ := Prod.mk.inj stands
  have shown : ((Extractor.fresh.extract tree tree.text file).1.result.toOption.map fun ds =>
      ds.length) = some 1 := by decide +kernel
  obtain ⟨ds, read, -⟩ := exists_of_map_toOption shown
  have imports (specifier : String) (h : (importsIn tree).any (fun m =>
      (m.find? .moduleSpecifier).map Node.text == some specifier) = true) :
      ∃ m ∈ importsIn tree, ∃ spec, m.find? .moduleSpecifier = some spec ∧
        spec.text = specifier := by
    obtain ⟨m, mem, same⟩ := List.any_eq_true.mp h
    exact ⟨m, mem, Option.map_eq_some_iff.mp (beq_iff_eq.mp same)⟩
  obtain ⟨m, mem, spec, specified, one⟩ := imports "'./a.js'" (by decide +kernel)
  obtain ⟨m', mem', spec', specified', two⟩ := imports "'../b.js'" (by decide +kernel)
  have linkless : ∀ q target, fs.entryAt false file.dir ≠ .ok (q, .link target) := by
    intro q target found
    have unlinked : (fs.entryAt false file.dir).toOption.map (fun f => f.2.isLink) =
        some false := by decide +kernel
    rw [found] at unlinked
    cases unlinked
  have own := imports_register_directories sound here plain HybridTemplate.Component.settled_fresh
    read mem specified
  have above := imports_register_directories sound here plain HybridTemplate.Component.settled_fresh
    read mem' specified'
  obtain ⟨d, first, -, -, named⟩ := own.1 "a.js".toList (by rw [one]; decide +kernel)
  obtain ⟨d', second, -, -, named'⟩ := (above.2 "b.js".toList (by rw [two]; decide +kernel)).1
    [.current] "app" (by decide +kernel) (by decide) linkless
  exact ⟨⟨d, first, named.mpr (by decide +kernel)⟩, d', second, named'⟩

/-- The directory of a bare file name is the empty path, and so is the one above a single name:
both are passed over as missing though the directories are there. -/
theorem bare_paths_register_nothing :
    let tree : String → Node := fun specifier => .branch .document [.componentOf "Card" [.scriptOf
      [.branch .staticImport [.leaf .scriptCode "import ", .leaf .moduleSpecifier specifier]]]]
    let fs : System := ⟨.directory [("p", .directory [("app", .directory
      [("card.weft", .file [99] false)]), ("card.weft", .file [99] false),
      ("lib.js", .file [108] false)]), ("s", .directory [])], ["p"]⟩
    let registered : String → Path → List Dependency := fun specifier path =>
      ((Extractor.fresh.extract (tree specifier) (tree specifier).text
        (some (.single path))).2.dependencies)
    let ran : List Dependency → Workspace := fun ds =>
      (outcome (copyDependencies ds ⟨"/s"⟩) ⟨fs, [], []⟩).2
    fs.Sound ∧ fs.isFile ⟨"card.weft"⟩ = true ∧ fs.isFile ⟨"app/card.weft"⟩ = true ∧
      fs.read ⟨"/p/lib.js"⟩ = .ok [108] ∧
      (registered "'./lib.js'" ⟨"card.weft"⟩).map (fun d => d.dir.text) = [""] ∧
      (registered "'../lib.js'" ⟨"app/card.weft"⟩).map (fun d => d.dir.text) = [""] ∧
      (ran (registered "'./lib.js'" ⟨"card.weft"⟩)).warnings = [.dependencyMissing] ∧
      (ran (registered "'../lib.js'" ⟨"app/card.weft"⟩)).warnings = [.dependencyMissing] := by
  intro tree fs registered ran
  refine ⟨⟨by decide +kernel, by decide +kernel⟩, by decide +kernel, by decide +kernel,
    by decide +kernel, by decide +kernel, by decide +kernel, ?_, ?_⟩
  · decide +kernel
  · decide +kernel

end HybridTemplate.Bundle
