import HybridTemplate.Proofs.Build.Wrappers
import HybridTemplate.Proofs.Files.Containing
import HybridTemplate.Proofs.Tree.Productions

set_option autoImplicit false

namespace HybridTemplate

open Files
open HybridTemplate.Path (Component)

namespace SourceFile

theorem relativeDir_of_outside {source : SourceFile}
    (outside : ¬ source.root.components <+: source.dir.components) : source.relativeDir = ⟨""⟩ := by
  unfold relativeDir
  cases stripped : source.dir.stripPrefix? source.root with
  | none => rfl
  | some rest =>
    refine absurd ?_ outside
    rw [Path.components_of_stripPrefix? stripped]
    exact List.prefix_append _ _

theorem exists_within_relativeDir {source : SourceFile}
    (stays : Bundle.Stays ⟨source.dir, source.root⟩) :
    ∃ q, within [] source.relativeDir.components = some q := by
  by_cases under : source.root.components <+: source.dir.components
  · obtain ⟨cs, whole⟩ := under
    rw [components_relativeDir whole.symm]
    exact stays cs whole.symm
  · exact ⟨[], by rw [relativeDir_of_outside under]; rfl⟩

end SourceFile

/-- What does not climb is behind the path that it is joined to. -/
theorem exists_join_within {relative : Path} {q : Place}
    (inside : within [] relative.components = some q) (base : Path) :
    ∃ cs, (base.join relative).components = base.components ++ cs ∧ within [] cs = some q := by
  have relatively := not_isAbsolute_of_within inside
  by_cases empty : base.text = ""
  · have alone : base.join relative = relative := by
      simp [Path.join, relatively, empty]
    exact ⟨relative.components, by rw [alone, Path.components_eq_nil.mpr empty, List.nil_append],
      inside⟩
  · exact ⟨_, Path.components_join empty relatively, by rw [within_steps relatively, inside]⟩

end HybridTemplate

namespace HybridTemplate.Build

open HybridTemplate.Bundle (Stays components_target)
open Component (Descriptor Extractor Settled WellNamed isModuleName_identifier
  isPlain_of_isModuleName settled_fresh)
open Files
open Files.System (Closed Contained Grows Linkless)
open HybridTemplate.Path (Component)
open Session
open Visit (Ends ends_foldlM ends_mapM ends_modify_bind ends_pure ends_throw outcome)

/-- The scratch tree has no links, nothing outside it has changed, and nothing is gone. -/
structure Confined (scratch : Path) (s : Place) (start fs : System) : Prop where
  tree : Linkless fs scratch s
  contained : Contained s start fs
  grows : Grows start fs

/-- Whether a module is found below the scratch directory, in the directory of its source. -/
structure Stands (scratch : Path) (s : Place) (source : SourceFile) (m : WrittenModule)
    (fs : System) : Prop where
  path : m.path = source.relativeDir.join ⟨m.fileName⟩
  found : ∃ q content executable, within [] source.relativeDir.components = some q ∧
    fs.entryAt true (scratch.join m.path) = .ok (s ++ (q ++ [m.fileName]), .file content executable)

section

variable {scratch : Path} {s : Place} {start fs later : System} {source : SourceFile}
  {m : WrittenModule}

theorem Stands.grows (h : Stands scratch s source m fs) (grows : Grows fs later) :
    Stands scratch s source m later where
  path := h.path
  found := by
    obtain ⟨q, content, executable, inside, found⟩ := h.found
    obtain ⟨content', executable', found'⟩ := grows.fileAt found
    exact ⟨q, content', executable', inside, found'⟩

theorem components_module {relative : Path} {name : String} (filled : scratch.text ≠ "")
    (relatively : relative.isAbsolute = false) (plain : Path.IsPlain name) :
    (scratch.join (relative.join ⟨name⟩)).components =
      ((scratch.join relative).join ⟨name⟩).components := by
  rw [Path.components_join filled (by rw [plain.isAbsolute_join, relatively]), plain.steps_join,
    plain.components_join, Path.components_join filled relatively, List.map_append,
    List.append_assoc, List.map_singleton, plain.componentOf_eq]

variable {w : Workspace}

theorem ends_writeModule {q : Place} {d : Descriptor}
    (inside : within [] source.relativeDir.components = some q) (named : WellNamed d)
    (h : Confined scratch s start w.files) :
    Ends (fun _ (u : Workspace) => Confined scratch s start u.files ∧ Grows w.files u.files ∧
        Stands scratch s source
          ⟨source.path, d.name, d.identifier, source.relativeDir.join ⟨d.fileName⟩⟩ u.files)
      (fun u : Workspace => Confined scratch s start u.files)
      (Session.writeText ((scratch.join source.relativeDir).join ⟨d.fileName⟩) d.render) w := by
  obtain ⟨text, identified⟩ := named
  have plain : Path.IsPlain d.fileName := by
    rw [Descriptor.fileName, identified]
    exact isPlain_of_isModuleName (isModuleName_identifier d.name text)
  refine ends_changeFiles (fun files written => ?_) h
  have filled := h.tree.filled
  have relatively := not_isAbsolute_of_within inside
  obtain ⟨cs, components, within⟩ := components_target filled inside plain
  have closed := System.closed_join (scratch.join source.relativeDir) plain
  obtain ⟨tree, contained, grows, executable, found⟩ :=
    h.tree.write_found components closed within written
  refine ⟨⟨tree, h.contained.trans contained, h.grows.trans grows⟩, grows, rfl, q,
    Text.encode d.render, executable, inside, ?_⟩
  have same := components_module filled relatively plain
  have closed' : Closed (scratch.join (source.relativeDir.join ⟨d.fileName⟩)) :=
    (System.closed_join _ plain).join (by rw [plain.isAbsolute_join, relatively]) scratch
  exact (System.entryAt_of_components same closed' closed true).trans found

theorem ends_writeModules (stays : Stays ⟨source.dir, source.root⟩) {ds : List Descriptor}
    (named : ∀ d ∈ ds, WellNamed d) (h : Confined scratch s start w.files) :
    Ends (fun ms (u : Workspace) => Confined scratch s start u.files ∧ Grows w.files u.files ∧
        ∀ m ∈ ms, Stands scratch s source m u.files)
      (fun u : Workspace => Confined scratch s start u.files)
      (writeModules source scratch ds) w := by
  obtain ⟨q, inside⟩ := source.exists_within_relativeDir stays
  unfold writeModules
  split
  · exact ends_pure ⟨h, .refl _, fun m none => absurd none List.not_mem_nil⟩
  obtain ⟨cs, components, within⟩ := exists_join_within inside scratch
  have adds := System.addsDirectories_makeDirectories h.tree.sound (scratch.join source.relativeDir)
  have made : Confined scratch s start
      (w.files.makeDirectories (scratch.join source.relativeDir)).1 :=
    ⟨h.tree.of_addsDirectories adds,
      h.contained.trans (h.tree.contained_makeDirectories components within),
      h.grows.trans adds.grows⟩
  refine Ends.bind
    (Q := fun _ (u : Workspace) => Confined scratch s start u.files ∧ Grows w.files u.files)
    (ends_makeDirectories ⟨made, adds.grows⟩ made h) ?_
  rintro - u ⟨confined, grows⟩
  refine ends_mapM
    (fun ms (u : Workspace) => Confined scratch s start u.files ∧ Grows w.files u.files ∧
      ∀ m ∈ ms, Stands scratch s source m u.files) ?_
    ⟨confined, grows, fun m none => absurd none List.not_mem_nil⟩
  rintro d hd ms u ⟨confined, grows, stand⟩
  refine (ends_writeModule inside (named d hd) confined).bind ?_
  rintro - v ⟨kept, further, new⟩
  refine ends_pure ⟨kept, grows.trans further, fun m hm => ?_⟩
  rcases List.mem_append.mp hm with old | here
  · exact (stand m old).grows further
  · obtain rfl := List.mem_singleton.mp here
    exact new

theorem ends_compileFile {grammar : Grammar} {x : Extractor} (settled : Settled x)
    (stays : Stays ⟨source.dir, source.root⟩) (h : Confined scratch s start w.files) :
    Ends (fun r (u : Workspace) => Settled r.1 ∧ Confined scratch s start u.files ∧
        Grows w.files u.files ∧ ∀ ms, r.2 = .ok ms → ∀ m ∈ ms, Stands scratch s source m u.files)
      (fun u : Workspace => Confined scratch s start u.files)
      (compileFile grammar scratch x source) w := by
  rw [compileFile_eq]
  refine Ends.bind (Q := fun _ u => w = u) (ends_readText (fun _ => rfl) h) ?_
  rintro text _ rfl
  have named : ∀ ds, (x.read (.text grammar text (some source))).1.result = .ok ds →
      ∀ d ∈ ds, WellNamed d := fun _ result => Extractor.wellNamed_of_read settled result
  have settled' := (Extractor.read_settled settled (.text grammar text (some source))).2.1
  dsimp only
  generalize x.read (.text grammar text (some source)) = read at named settled' ⊢
  refine Ends.bind
    (Q := fun r (u : Workspace) => Confined scratch s start u.files ∧ Grows w.files u.files ∧
      ∀ ms, r = .ok ms → ∀ m ∈ ms, Stands scratch s source m u.files) ?_
    fun r u kept => ends_pure ⟨settled', kept⟩
  unfold settleFile
  refine ends_modify_bind ?_
  cases result : read.1.result with
  | error e =>
    dsimp only
    split
    · exact ends_pure ⟨h, .refl _, nofun⟩
    · exact ends_throw h
  | ok ds =>
    refine Ends.bind (ends_writeModules stays (named ds result) h) ?_
    rintro ms u ⟨confined, grows, stand⟩
    refine ends_pure ⟨confined, grows, ?_⟩
    rintro _ ⟨⟩
    exact stand

structure Reached (scratch : Path) (s : Place) (sources : List SourceFile) (start : System)
    (p : Progress) (fs : System) : Prop where
  settled : Settled p.extractor
  confined : Confined scratch s start fs
  modules : ∀ m ∈ p.modules, ∃ source ∈ sources, Stands scratch s source m fs

theorem ends_compileNext {grammar : Grammar} {sources : List SourceFile} {p : Progress}
    (mem : source ∈ sources) (stays : Stays ⟨source.dir, source.root⟩)
    (h : Reached scratch s sources start p w.files) :
    Ends (fun q u => Reached scratch s sources start q u.files)
      (fun u : Workspace => Confined scratch s start u.files)
      (compileNext grammar scratch p source) w := by
  refine (ends_compileFile h.settled stays h.confined).bind ?_
  rintro ⟨x, result⟩ u ⟨settled, confined, grows, stand⟩
  have old : ∀ m ∈ p.modules, ∃ source ∈ sources, Stands scratch s source m u.files := by
    intro m hm
    obtain ⟨from_, mem, before⟩ := h.modules m hm
    exact ⟨from_, mem, before.grows grows⟩
  cases result with
  | error e => exact ends_pure ⟨settled, confined, old⟩
  | ok ms =>
    refine ends_pure ⟨settled, confined, fun m hm => ?_⟩
    rcases List.mem_append.mp hm with before | new
    · exact old m before
    · exact ⟨source, mem, stand ms rfl m new⟩

theorem ends_compileAll {grammar : Grammar} {sources : List SourceFile}
    (stays : ∀ source ∈ sources, Stays ⟨source.dir, source.root⟩)
    (tree : Linkless w.files scratch s) :
    Ends (fun p u => Reached scratch s sources w.files p u.files)
      (fun u : Workspace => Confined scratch s w.files u.files)
      (compileAll grammar scratch sources) w := by
  refine ends_foldlM
    (fun source mem p u before => ends_compileNext mem (stays source mem) before) ?_
  exact ⟨settled_fresh, ⟨tree, .refl s w.files, .refl w.files⟩,
    fun m none => absurd none List.not_mem_nil⟩

end

/-- Wrapper modules stay in the scratch tree: where no source's directory climbs out of its root,
what is joined for it to any path goes on behind that path, and a source outside its root has no
directory of its own. Compiling changes nothing outside the scratch directory, whether it ends
well or not, and when it does, each module is found below it, in the directory of its source. -/
theorem compileAll_contained {grammar : Grammar} {scratch : Path} {s : Place}
    {sources : List SourceFile} {w : Workspace} (tree : Linkless w.files scratch s)
    (stays : ∀ source ∈ sources, Stays ⟨source.dir, source.root⟩) :
    (∀ source ∈ sources,
      (∀ base : Path, ∃ cs q, (base.join source.relativeDir).components = base.components ++ cs ∧
        within [] cs = some q) ∧
      (¬ source.root.components <+: source.dir.components → source.relativeDir = ⟨""⟩)) ∧
    Contained s w.files (outcome (compileAll grammar scratch sources) w).2.files ∧
    ∀ p w', outcome (compileAll grammar scratch sources) w = (.ok p, w') →
      ∀ m ∈ p.modules, ∃ source ∈ sources, Stands scratch s source m w'.files := by
  have ends : Ends _ _ (compileAll grammar scratch sources) w := ends_compileAll stays tree
  refine ⟨fun source mem => ⟨fun base => ?_, source.relativeDir_of_outside⟩, ?_, ?_⟩
  · obtain ⟨q, inside⟩ := source.exists_within_relativeDir (stays source mem)
    obtain ⟨cs, components, within⟩ := exists_join_within inside base
    exact ⟨cs, q, components, within⟩
  · exact ends.state (fun p u reached => reached.confined.contained) fun u kept => kept.contained
  · exact fun p w' ran => (ends.ok p w' ran).modules

/-- A directory that is written with two dots and stays behind its root. -/
theorem compileAll_contained_with_dots :
    let tree : Node := .componentOf "Card" [.scriptOf [.leaf .scriptCode "run()"]]
    let files : System := ⟨.directory [("p", .directory [("a", .directory []),
      ("b", .directory [("card.weft", .file [99] false)])]), ("s", .directory [])], []⟩
    let card : SourceFile := ⟨⟨"/p/a/../b/card.weft"⟩, ⟨"/p"⟩⟩
    let ran := outcome (compileAll (fun _ => .ok tree) ⟨"/s"⟩ [card]) ⟨files, [], []⟩
    card.relativeDir.text = "a/../b" ∧ Contained ["s"] files ran.2.files ∧
      ∃ p, ran.1 = .ok p ∧ p.modules.length = 1 ∧
        ∀ m ∈ p.modules, ∃ source ∈ [card], Stands ⟨"/s"⟩ ["s"] source m ran.2.files := by
  intro tree files card ran
  have linkless : Linkless files ⟨"/s"⟩ ["s"] :=
    ⟨⟨by decide +kernel, by decide +kernel⟩, ⟨[], by rfl⟩,
      fun q => Entry.look_ne_link (by decide +kernel) _⟩
  have behind : card.dir.components =
      card.root.components ++ [.normal "a", .parent, .normal "b"] := by decide +kernel
  have stays : ∀ source ∈ [card], Stays ⟨source.dir, source.root⟩ := by
    have own : Stays ⟨card.dir, card.root⟩ := Bundle.stays_of_components (q := ["b"]) behind rfl
    simpa using own
  have one : ran.1.toOption.map (fun p => p.modules.length) = some 1 := by decide +kernel
  obtain ⟨p, ended, count⟩ := exists_of_map_toOption one
  obtain ⟨-, contained, modules⟩ := @compileAll_contained (fun _ => .ok tree) ⟨"/s"⟩ ["s"] [card]
    ⟨files, [], []⟩ linkless stays
  exact ⟨by decide +kernel, contained, p, ended, count, modules p ran.2 (Prod.ext ended rfl)⟩

/-- A directory that climbs out of its root leads out of the scratch directory. -/
theorem climbing_source_leaves_scratch :
    let tree : Node := .componentOf "Card" [.scriptOf [.leaf .scriptCode "run()"]]
    let files : System := ⟨.directory [("p", .directory []),
      ("q", .directory [("card.weft", .file [99] false)]),
      ("w", .directory [("s", .directory [])])], []⟩
    let card : SourceFile := ⟨⟨"/p/../q/card.weft"⟩, ⟨"/p"⟩⟩
    let ran := outcome (compileAll (fun _ => .ok tree) ⟨"/w/s"⟩ [card]) ⟨files, [], []⟩
    card.relativeDir.text = "../q" ∧ within [] card.relativeDir.components = none ∧
      (ran.1.toOption.map fun p => p.modules.length) = some 1 ∧
      files.look ["w", "q"] = none ∧ ran.2.files.look ["w", "q"] = some .directory ∧
      (Discovery.componentModules ran.2.files ⟨"/w/s"⟩).isEmpty = true := by
  intro tree files card ran
  decide +kernel

end HybridTemplate.Build
