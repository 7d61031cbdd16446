import HybridTemplate.Bundle.Entry
import HybridTemplate.Proofs.Component.Naming
import HybridTemplate.Proofs.Session

set_option autoImplicit false

namespace HybridTemplate.Bundle

open Component (hashLength identifier isModulePath isStem)
open HybridTemplate.Path (Component)
open Session
open Visit (outcome outcome_bind_eq_ok outcome_get_bind)

theorem map_key_distinctKeys (seen : List String) (is : List EntryImport) :
    (distinctKeys seen is).map (·.key) = ((is.map (·.key)).removeAll seen).eraseDups := by
  induction is generalizing seen with
  | nil => simp [distinctKeys]
  | cons i is ih =>
    rw [distinctKeys, List.map_cons, List.cons_removeAll]
    cases known : seen.contains i.key with
    | true => rw [if_pos rfl, if_neg (by simp), ih]
    | false =>
      rw [if_neg Bool.false_ne_true, if_pos rfl, List.map_cons, ih, List.eraseDups_cons]
      simp [List.removeAll, List.filter_filter, beq_eq_decide]

variable {scratch p : Path}

theorem exists_key (h : isModulePath p = true) :
    ∃ key, p.fileName? = some (key ++ ".js") ∧ p.fileStem? = some key ∧
      isStem key.toList = true ∧ hashLength < key.length := by
  obtain ⟨name, named, known⟩ : ∃ name, p.fileName? = some name ∧
      Component.isModuleName name = true := (Option.any_eq_true _ _).mp h
  obtain ⟨key, rfl, stem, long⟩ := Component.exists_stem_of_isModuleName known
  have filled : key ≠ "" := by
    rintro rfl
    exact absurd long (by decide)
  refine ⟨key, named, ?_, stem, long⟩
  rw [Path.fileStem?, named, Option.map_some, Component.splitName_script filled]

/-- Whether a path names a wrapper module, and the components of the directory come first in it. -/
def IsWrapperUnder (dir p : Path) : Prop := isModulePath p = true ∧ p.startsWith dir = true

instance (dir p : Path) : Decidable (IsWrapperUnder dir p) := by
  unfold IsWrapperUnder
  infer_instance

def bareTexts : List Component → List String
  | [] => []
  | [.normal name] => [(Path.splitName name).1]
  | c :: cs => componentText c :: bareTexts cs

/-- How a module is written from a directory. -/
def specifier (dir p : Path) : String :=
  "./" ++ String.intercalate "/" (bareTexts (p.components.drop dir.components.length))

theorem bareTexts_concat (cs : List Component) (name : String) :
    bareTexts (cs ++ [.normal name]) = cs.map componentText ++ [(Path.splitName name).1] := by
  induction cs with
  | nil => rfl
  | cons c cs ih =>
    have filled : cs ++ [Component.normal name] ≠ [] := by simp
    rw [List.cons_append, bareTexts.eq_3 c _ (fun _ _ => filled), ih]
    rfl

theorem texts_withoutExtension {rest : Path} {cs : List Component} {key : String}
    (stem : Component.isStem key.toList = true)
    (h : cs ++ rest.components = p.components) (named : p.fileName? = some (key ++ ".js")) :
    rest.withoutExtension.components.map componentText = bareTexts rest.components := by
  obtain ⟨before, whole⟩ := Path.exists_of_fileName? named
  have plain := Component.isPlain_of_isStem stem
  have filled : key ≠ "" := by
    rintro rfl
    exact absurd plain.1 (by decide)
  rcases List.eq_nil_or_concat' rest.components with void | ⟨front, last, split⟩
  · have unnamed : rest.fileName? = none := by rw [Path.fileName?, void]; rfl
    rw [Path.withoutExtension, unnamed]
    dsimp only
    rw [void]
    rfl
  · rw [split, ← List.append_assoc, whole] at h
    obtain rfl : last = .normal (key ++ ".js") := List.singleton_inj.mp (List.append_inj' h rfl).2
    have cut := congrArg Prod.fst (Component.splitName_script filled)
    rw [Path.components_withoutExtension split (cut.symm ▸ plain), split, bareTexts_concat,
      List.map_append]
    rfl

/-- An import is known from the components of a module's path. -/
theorem entryImport?_eq (scratch p : Path) :
    entryImport? scratch p =
      if IsWrapperUnder scratch p then p.fileStem?.map fun key => ⟨key, specifier scratch p⟩
      else none := by
  rw [entryImport?]
  by_cases module : isModulePath p = true
  · obtain ⟨key, named, stem, word, -⟩ := exists_key module
    have split := Path.stripPrefix?_spec p scratch
    rw [if_pos module, stem, Option.bind_some, Option.map_some]
    cases stripped : p.stripPrefix? scratch with
    | none =>
      rw [stripped, ← Path.startsWith_iff] at split
      rw [if_neg fun under => split under.2]
      rfl
    | some rest =>
      rw [stripped] at split
      have under : IsWrapperUnder scratch p :=
        ⟨module, Path.startsWith_iff.mpr ⟨rest.components, split.symm⟩⟩
      rw [if_pos under, specifier, split, List.drop_left,
        ← texts_withoutExtension word split.symm named]
      rfl
  · rw [if_neg module, if_neg fun under => module under.1]

/-- A wrapper below the scratch directory is imported by its identifier, from where it stands. -/
theorem entryImport?_identifier {names : List String} {name source : String}
    (h : p.components =
      scratch.components ++ (names ++ [identifier name source ++ ".js"]).map Component.normal) :
    entryImport? scratch p = some ⟨identifier name source,
      "./" ++ String.intercalate "/" (names ++ [identifier name source])⟩ := by
  have last : p.components = (scratch.components ++ names.map Component.normal) ++
      [.normal (identifier name source ++ ".js")] := by
    rw [h, List.map_append, List.append_assoc]
    rfl
  have named := Path.fileName?_of_components last
  have under : IsWrapperUnder scratch p := by
    refine ⟨?_, Path.startsWith_iff.mpr ⟨_, h.symm⟩⟩
    rw [isModulePath, named, Option.any_some]
    exact Component.isModuleName_identifier name source
  have texts : bareTexts (p.components.drop scratch.components.length) =
      names ++ [identifier name source] := by
    rw [h, List.drop_left, List.map_append, List.map_singleton, bareTexts_concat,
      Component.splitName_identifier, List.map_map]
    exact congrArg (· ++ _) (List.map_id names)
  rw [entryImport?_eq, if_pos under, Component.fileStem?_identifier named, Option.map_some,
    specifier, texts]

theorem keys_entryImports {β : Type} {ms : List β} {path : β → Path} {key : β → String}
    {scanned : List Path} (present : ∀ m ∈ ms, ∃ q ∈ scanned, (path m).same q = true)
    (imports : ∀ m ∈ ms, ∃ specifier, entryImport? scratch (path m) = some ⟨key m, specifier⟩)
    (known : ∀ q ∈ scanned, ∃ m ∈ ms, ∃ specifier,
      entryImport? scratch q = some ⟨key m, specifier⟩) :
    (entryImports scratch (ms.map path) scanned).map (·.key) = (ms.map key).eraseDups := by
  have all : ((ms.map path).filter fun p => scanned.any fun q => p.same q) = ms.map path := by
    refine List.filter_eq_self.mpr fun p hp => ?_
    obtain ⟨m, hm, rfl⟩ := List.mem_map.mp hp
    exact List.any_eq_true.mpr (present m hm)
  have first : ((ms.map path).filterMap (entryImport? scratch)).map (·.key) = ms.map key := by
    rw [List.filterMap_map, List.map_filterMap]
    refine (List.filterMap_congr fun m hm => ?_).trans (congrFun List.filterMap_eq_map ms)
    obtain ⟨specifier, import_⟩ := imports m hm
    simp [import_]
  have later : ∀ k ∈ (scanned.filterMap (entryImport? scratch)).map (·.key), k ∈ ms.map key := by
    intro k hk
    obtain ⟨i, hi, rfl⟩ := List.mem_map.mp hk
    obtain ⟨q, hq, import_⟩ := List.mem_filterMap.mp hi
    obtain ⟨m, hm, specifier, same⟩ := known q hq
    cases import_.symm.trans same
    exact List.mem_map_of_mem hm
  have old :
      ((scanned.filterMap (entryImport? scratch)).map (·.key)).removeAll (ms.map key) = [] := by
    rw [List.removeAll, List.filter_eq_nil_iff]
    intro k hk
    simpa using later k hk
  rw [entryImports, all, map_key_distinctKeys, List.removeAll_nil, List.filterMap_append,
    List.map_append, first, List.eraseDups_append, old, List.eraseDups_nil, List.append_nil]

/-- An entry that is written has all imports, and its keys are theirs. -/
theorem writeEntry_eq_ok {written : List Path} {w w' : Workspace} {entry : Path}
    {keys : List String}
    (h : outcome (writeEntry scratch written) w = (.ok (some (entry, keys)), w')) :
    entry = scratch.join ⟨entryFile⟩ ∧
      keys = (entryImports scratch written (Discovery.componentModules w.files scratch)).map
        (·.key) ∧
      w.files.write entry (Text.encode (entryText
        (entryImports scratch written (Discovery.componentModules w.files scratch)))) =
          .ok w'.files := by
  unfold writeEntry at h
  rw [outcome_get_bind] at h
  dsimp only at h
  split at h
  · cases h
  · obtain ⟨_, u, wrote, ended⟩ := outcome_bind_eq_ok.mp h
    cases ended
    obtain ⟨-, files, bytes, rfl⟩ := writeText_eq_ok.mp wrote
    exact ⟨rfl, rfl, bytes⟩

end HybridTemplate.Bundle
