import HybridTemplate.Proofs.Bundle.Entry
import HybridTemplate.Proofs.Files.Listing

set_option autoImplicit false

namespace HybridTemplate

open Component (identifier isModulePath isStemChar)
open Discovery (componentModules isScript scripts)
open Files
open HybridTemplate.Path (IsPlain)

def Files.System.HoldsFile (fs : System) (dir : Path) (below : Place) : Prop :=
  ∃ s entries content executable, fs.entryAt true dir = .ok (s, .directory entries) ∧
    fs.top.at? (s ++ below) = some (.file content executable)

theorem Component.isModulePath_of_same {p q : Path} (h : p.same q = true) :
    isModulePath p = isModulePath q := by
  rw [isModulePath, isModulePath, Path.fileName?, Path.fileName?, Path.same_iff.mp h]

namespace Discovery

/-- A wrapper module is never found as a script, however its path is written. -/
theorem not_same_of_mem_scripts {fs : System} {dir f p : Path} (module : isModulePath p = true)
    (h : f ∈ scripts fs dir) : f.same p = false := by
  obtain ⟨-, script⟩ := List.mem_filter.mp h
  refine Bool.eq_false_iff.mpr fun same => ?_
  rw [isScript_of_isModulePath ((Component.isModulePath_of_same same).trans module)] at script
  cases script

theorem exists_componentModule {fs : System} (sound : fs.Sound) {dir p : Path} {below : Place}
    (module : isModulePath p = true) (holds : fs.HoldsFile dir below)
    (behind : p.components = dir.components ++ below.map Path.Component.normal) :
    ∃ f ∈ componentModules fs dir, f.same p = true := by
  obtain ⟨s, entries, content, executable, found, there⟩ := holds
  have filled : below ≠ [] := by
    rintro rfl
    rw [List.append_nil, System.at?_of_entryAt sound found] at there
    cases there
  have plain := sound.isPlain there
  have same : (dir.below below).same p = true :=
    Path.same_iff.mpr ((dir.components_below plain).trans behind.symm)
  have listed : dir.below below ∈ fs.filesBelow dir :=
    (System.mem_filesBelow sound found).mpr ⟨below, content, executable, filled, there, rfl⟩
  have known := (Component.isModulePath_of_same same).trans module
  exact ⟨_, List.mem_filter.mpr ⟨listed, known⟩, same⟩

end Discovery

namespace Bundle

/-- Whatever a component is called and whatever its source is, its module is recognised in every
directory of names below every scratch path. -/
theorem generated_module_recognised (name source : String) (scratch : Path) {relative : Path}
    {names : List String} (ordinary : relative.components = names.map Path.Component.normal) :
    let key := identifier name source
    let module := (scratch.join relative).join ⟨key ++ ".js"⟩
    (∃ c rest, key.toList = c :: rest ∧ c.isDigit = false ∧ ∀ d ∈ c :: rest, isStemChar d = true) ∧
      isModulePath module = true ∧
      entryImport? scratch module =
        some ⟨key, "./" ++ String.intercalate "/" (names ++ [key])⟩ ∧
      (∀ (fs : System) (dir : Path), ∀ f ∈ scripts fs dir, f.same module = false) ∧
      ∀ (fs : System) (dir : Path) (below : Place), fs.Sound → fs.HoldsFile dir below →
        module.components = dir.components ++ below.map Path.Component.normal →
        ∃ f ∈ componentModules fs dir, f.same module = true := by
  intro key module
  have stem := Component.isStem_identifier name source
  have word : ∃ c rest, key.toList = c :: rest ∧ c.isDigit = false ∧
      ∀ d ∈ c :: rest, isStemChar d = true := by
    obtain ⟨c, rest, chars, first⟩ := Component.exists_head_of_isStem stem
    exact ⟨c, rest, chars, first, chars ▸ Component.isStemChar_of_isStem stem⟩
  have plain : IsPlain (key ++ ".js") :=
    Component.isPlain_of_isModuleName (Component.isModuleName_identifier name source)
  have components : module.components = scratch.components ++
      (names ++ [key ++ ".js"]).map Path.Component.normal := by
    rw [plain.components_join, Path.components_join_names ordinary, List.append_assoc,
      List.map_append, List.map_singleton]
  have known : isModulePath module = true := by
    have last := plain.components_join (scratch.join relative)
    rw [isModulePath, Path.fileName?_of_components last, Option.any_some]
    exact Component.isModuleName_identifier name source
  refine ⟨word, known, entryImport?_identifier components, ?_, ?_⟩
  · exact fun fs dir f listed => Discovery.not_same_of_mem_scripts known listed
  · exact fun fs dir below sound holds => Discovery.exists_componentModule sound known holds

/-- A name may begin with a digit, and one character may have a lower case of two. -/
theorem generated_module_recognised_behind_dot :
    let key := "_9i__b0760dbf82be7db0e99ae88f6f984736c9c45e62"
    let scratch : Path := ⟨"s/"⟩
    let relative : Path := ⟨"a/."⟩
    let module := (scratch.join relative).join ⟨key ++ ".js"⟩
    let file : Entry := .file [] false
    let inner : Entry := .directory [("a", .directory [(key ++ ".js", file)])]
    let fs : System := ⟨.directory [("s", inner)], []⟩
    relative.components = ["a"].map Path.Component.normal ∧ key = identifier "9\u0130" "" ∧
      entryImport? scratch module = some ⟨key, "./a/" ++ key⟩ ∧
      ∃ f ∈ componentModules fs scratch, f.same module = true := by
  intro key scratch relative module file inner fs
  have ordinary : relative.components = ["a"].map Path.Component.normal := by decide +kernel
  have keyed : key = identifier "9\u0130" "" := by decide +kernel
  have behind : module.components =
      scratch.components ++ ["a", key ++ ".js"].map Path.Component.normal := by decide +kernel
  have sound : fs.Sound := ⟨by decide +kernel, by decide +kernel⟩
  obtain ⟨-, -, imported, -, listed⟩ :=
    generated_module_recognised "9\u0130" "" scratch ordinary
  rw [← keyed] at imported listed
  have there : (fs.entryAt true scratch).toOption.map (fun f => (f.1, f.2.isDirectory)) =
      some (["s"], true) := by decide +kernel
  have holds : fs.HoldsFile scratch ["a", key ++ ".js"] := by
    obtain ⟨⟨place, e⟩, found, stands⟩ := exists_of_map_toOption there
    obtain ⟨rfl, directory⟩ := Prod.mk.inj stands
    cases e with
    | directory entries => exact ⟨["s"], entries, [], false, found, rfl⟩
    | file content executable => cases directory
    | link target => cases directory
  exact ⟨ordinary, keyed, imported, listed fs scratch _ sound holds behind⟩

end Bundle
end HybridTemplate
