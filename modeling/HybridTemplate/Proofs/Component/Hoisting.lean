import HybridTemplate.Proofs.Component.Meaning
import HybridTemplate.Proofs.Tree.Outline

set_option autoImplicit false

namespace HybridTemplate.Component

structure Hoists (c : Node) (ds : List Descriptor) : Prop where
  emitted : importsIn c ≠ [] → ∃ d, ds = [d]
  imports : ∀ d ∈ ds, d.imports = (importsIn c).map fun m => Text.trim m.text

theorem isAllBlank_textOf {ms : List Node} :
    Text.isAllBlank (Node.textOf ms) = true ↔ ∀ m ∈ ms, Text.isAllBlank m.text = true := by
  rw [Text.isAllBlank, Node.toList_textOf, List.all_flatMap, List.all_eq_true]
  rfl

/-- A component with an import has a script that is more than blanks. -/
theorem hasBehaviour_of_import {c : Node} {ds : List Descriptor} (means : HasMeaning c ds)
    {m : Node} (hm : m ∈ importsIn c) (shown : Text.isAllBlank m.text = false) :
    HasBehaviour c := by
  rw [means.hoisted] at hm
  obtain ⟨mem, -⟩ := List.mem_filter.mp hm
  obtain ⟨s, hs, part⟩ := List.mem_flatMap.mp mem
  have body : Text.isAllBlank (bodyText s) = false := by
    rw [means.body s hs]
    refine Bool.eq_false_iff.mpr fun blank => ?_
    rw [isAllBlank_textOf.mp blank m part] at shown
    cases shown
  exact .inl ⟨s, hs, body⟩

theorem hoists_of_hasMeaning {c : Node} {ds : List Descriptor} (means : HasMeaning c ds)
    (shown : ∀ m ∈ importsIn c, Text.isAllBlank m.text = false) : Hoists c ds where
  emitted := by
    intro some
    obtain ⟨m, hm⟩ := List.exists_mem_of_ne_nil _ some
    obtain ⟨d, one, -⟩ := means.emitted (hasBehaviour_of_import means hm (shown m hm))
    exact ⟨d, one⟩
  imports := by
    intro d hd
    by_cases some : HasBehaviour c
    · obtain ⟨e, rfl, own⟩ := means.emitted some
      rw [List.mem_singleton.mp hd, own.imports, importTexts, means.hoisted]
    · rw [means.silent some] at hd
      cases hd

theorem importedDirs_eq_filterMap (o : Origin) (n : Node) :
    importedDirs o n = (importsIn n).filterMap (importDir? o) := by
  rw [importsIn, List.filterMap_filter, List.filterMap_eq_flatMap_toList, importedDirs]
  congr 1
  funext m
  by_cases hm : m.kind = .staticImport <;> simp [isImport, hm]

theorem in_importedDirs {o : Origin} {n m : Node} {d : Dependency} (imported : m ∈ importsIn n)
    (dir : importDir? o m = some d) : d.In (importedDirs o n) := by
  rw [importedDirs_eq_filterMap]
  exact Dependency.in_of_mem (List.mem_filterMap.mpr ⟨m, imported, dir⟩)

theorem Dependency.in_filterMap_congr {ms ns : List Node} (same : ∀ m, m ∈ ms ↔ m ∈ ns)
    (f : Node → Option Dependency) (d : Dependency) :
    d.In (ms.filterMap f) ↔ d.In (ns.filterMap f) := by
  simp only [In, List.mem_filterMap, same]

theorem mem_importsIn_document {tree : Node} (document : tree.kind = .document) (m : Node) :
    m ∈ importsIn tree ↔
      m ∈ tree.components.flatMap importsIn ++ tree.strays.flatten.filter isImport := by
  have below : tree.components = tree.children.flatMap Node.components := by
    rw [Node.components_eq, if_neg (by simp [document]), List.nil_append]
  rw [importsIn, List.mem_filter, Node.preorder_eq, List.mem_cons, Node.mem_preorderAll_iff,
    List.mem_append, List.mem_flatMap, List.mem_filter, below]
  constructor
  · rintro ⟨rfl | ⟨c, hc, inside⟩ | stray, hoisted⟩
    · rw [isImport_iff, document] at hoisted
      cases hoisted
    · exact .inl ⟨c, hc, List.mem_filter.mpr ⟨inside, hoisted⟩⟩
    · exact .inr ⟨stray, hoisted⟩
  · rintro (⟨c, hc, inside⟩ | ⟨stray, hoisted⟩)
    · obtain ⟨mem, hoisted⟩ := List.mem_filter.mp inside
      exact ⟨.inr (.inl ⟨c, hc, mem⟩), hoisted⟩
    · exact ⟨.inr (.inr stray), hoisted⟩

namespace Extractor

/-- The imports of a component are hoisted to its module. The dependencies are the directories of
all relative imports, those in components and those outside. -/
theorem extract_dependencies {tree : Node} (document : tree.kind = .document)
    (conforms : tree.Conforms) (apart : tree.ComponentsApart)
    (shown : ∀ m ∈ importsIn tree, Text.isAllBlank m.text = false) (source : String)
    (file : Option SourceFile) {ds : List Descriptor}
    (h : (fresh.extract tree source file).1.result = .ok ds) :
    let dirs : List Node → List Dependency := fun ms => ms.filterMap (importDir? (.of source file))
    (∃ parts, ds = parts.flatten ∧ List.Forall₂ Hoists tree.components parts) ∧
      ∀ d : Dependency, d.In (fresh.extract tree source file).2.dependencies ↔
        d.In (dirs (tree.components.flatMap importsIn)) ∨
          d.In (dirs (tree.strays.flatten.filter isImport)) := by
  intro dirs
  have split := mem_importsIn_document document
  constructor
  · have good : ∀ c ∈ tree.components, c.Conforms :=
      fun c hc => conforms.of_mem (List.mem_of_mem_filter hc)
    have inside : ∀ c ∈ tree.components, ∀ m ∈ importsIn c, Text.isAllBlank m.text = false := by
      intro c hc m hm
      exact shown m ((split m).mpr (List.mem_append_left _ (List.mem_flatMap.mpr ⟨c, hc, hm⟩)))
    obtain ⟨parts, whole, means⟩ :=
      explains_hasMeaning.extract_eq_ok good apart [] source file h
    refine ⟨parts, whole, ?_⟩
    exact ((List.forall₂_and_left _ _).mpr ⟨inside, means⟩).imp
      fun _ _ both => hoists_of_hasMeaning both.2 both.1
  · intro d
    obtain ⟨-, -, added⟩ := extract_settled settled_fresh tree source file
    rw [h] at added
    obtain ⟨new, all, mem⟩ := added
    have none : ¬ d.In fresh.dependencies := (Dependency.in_nil d).mp
    rw [all, Dependency.in_addAll, or_iff_right none, mem, importedDirs_eq_filterMap,
      Dependency.in_filterMap_congr split, List.filterMap_append, Dependency.in_append]

theorem extract_dependencies_amid_strays :
    let script : String → Node := fun specifier => .scriptOf
      [.branch .staticImport [.leaf .scriptCode "import ", .leaf .moduleSpecifier specifier]]
    let tree : Node :=
      .branch .document [script "'../b.js'", .componentOf "Card" [script "'./a.js'"]]
    let file : SourceFile := ⟨⟨"/project/app/home.weft"⟩, ⟨"/project"⟩⟩
    let dirs : List Node → List Dependency := fun ms =>
      ms.filterMap (importDir? (.of tree.text file))
    ∃ ds, tree.kind = .document ∧ tree.Conforms ∧ tree.ComponentsApart ∧
      (∀ m ∈ importsIn tree, Text.isAllBlank m.text = false) ∧
      (fresh.extract tree tree.text file).1.result = .ok ds ∧
      (ds.map fun d => d.imports) = [["import './a.js'"]] ∧
      (∃ parts, ds = parts.flatten ∧ List.Forall₂ Hoists tree.components parts) ∧
      ∀ d : Dependency, d.In (fresh.extract tree tree.text file).2.dependencies ↔
        d.In (dirs (tree.components.flatMap importsIn)) ∨
          d.In (dirs (tree.strays.flatten.filter isImport)) := by
  intro script tree file dirs
  have conforms : tree.Conforms := by decide +kernel
  have apart : tree.ComponentsApart := by
    unfold Node.ComponentsApart
    decide +kernel
  have blank : ∀ m ∈ importsIn tree, Text.isAllBlank m.text = false := by decide +kernel
  have shown : ((fresh.extract tree tree.text file).1.result.toOption.map fun ds =>
      ds.map fun d => d.imports) = some [["import './a.js'"]] := by decide +kernel
  obtain ⟨ds, read, kept⟩ := exists_of_map_toOption shown
  have settled := extract_dependencies rfl conforms apart blank tree.text file read
  exact ⟨ds, rfl, conforms, apart, blank, read, kept, settled⟩

/-- An import outside components adds its directory though no descriptor has it. -/
theorem stray_import_adds_directory :
    let tree : Node := .branch .document [.scriptOf
      [.branch .staticImport [.leaf .scriptCode "import ", .leaf .moduleSpecifier "'./a.js'"]]]
    let file : SourceFile := ⟨⟨"/project/app/home.weft"⟩, ⟨"/project"⟩⟩
    tree.kind = .document ∧ tree.Conforms ∧ tree.components = [] ∧
      (∀ m ∈ importsIn tree, Text.isAllBlank m.text = false) ∧
      (fresh.extract tree tree.text file).1.result = .ok [] ∧
      (⟨⟨"/project/app"⟩, ⟨"/project"⟩⟩ : Dependency).In
        (fresh.extract tree tree.text file).2.dependencies := by
  intro tree file
  have conforms : tree.Conforms := by decide +kernel
  have bare : tree.components = [] := by decide +kernel
  have blank : ∀ m ∈ importsIn tree, Text.isAllBlank m.text = false := by decide +kernel
  have read : (fresh.extract tree tree.text file).1.result = .ok [] := by decide +kernel
  have added : (fresh.extract tree tree.text file).2.dependencies.any
      (Dependency.same ⟨⟨"/project/app"⟩, ⟨"/project"⟩⟩) = true := by decide +kernel
  exact ⟨rfl, conforms, bare, blank, read, List.any_eq_true.mp added⟩

end Extractor
end HybridTemplate.Component
