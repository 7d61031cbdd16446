import HybridTemplate.Proofs.Bundle.Recognition

set_option autoImplicit false

namespace HybridTemplate.Bundle

open Component (isModulePath)

variable {scratch p q : Path}

theorem isWrapperUnder_congr (h : p.same q = true) :
    IsWrapperUnder scratch p ↔ IsWrapperUnder scratch q := by
  rw [IsWrapperUnder, IsWrapperUnder, Component.isModulePath_of_same h, Path.startsWith,
    Path.startsWith, Path.same_iff.mp h]

theorem fileStem?_of_same (h : p.same q = true) : p.fileStem? = q.fileStem? := by
  rw [Path.fileStem?, Path.fileStem?, Path.fileName?, Path.fileName?, Path.same_iff.mp h]

theorem entryImport?_of_same (h : p.same q = true) :
    entryImport? scratch p = entryImport? scratch q := by
  simp only [entryImport?_eq, isWrapperUnder_congr h, fileStem?_of_same h, specifier,
    Path.same_iff.mp h]

theorem entryImport?_eq_some {i : EntryImport} :
    entryImport? scratch p = some i ↔
      IsWrapperUnder scratch p ∧ p.fileStem? = some i.key ∧ i.specifier = specifier scratch p := by
  rw [entryImport?_eq]
  by_cases under : IsWrapperUnder scratch p
  · rw [if_pos under, Option.map_eq_some_iff]
    constructor
    · rintro ⟨key, stem, rfl⟩
      exact ⟨under, stem, rfl⟩
    · rintro ⟨-, stem, spelt⟩
      exact ⟨i.key, stem, by rw [← spelt]⟩
  · simp [under]

def stems (dir : Path) (ps : List Path) : List String :=
  (ps.filter (IsWrapperUnder dir ·)).filterMap (·.fileStem?)

theorem mem_stems {dir : Path} {ps : List Path} {key : String} :
    key ∈ stems dir ps ↔ ∃ p ∈ ps, IsWrapperUnder dir p ∧ p.fileStem? = some key := by
  simp [stems, List.mem_filterMap, and_assoc]

theorem keys_filterMap (scratch : Path) (ps : List Path) :
    (ps.filterMap (entryImport? scratch)).map (·.key) = stems scratch ps := by
  rw [List.map_filterMap, stems, List.filterMap_filter]
  refine List.filterMap_congr fun p _ => ?_
  rw [entryImport?_eq]
  by_cases under : IsWrapperUnder scratch p
  · cases stem : p.fileStem? <;> simp [under]
  · simp [under]

theorem nodup_distinctKeys (seen : List String) (is : List EntryImport) :
    ((distinctKeys seen is).map (·.key)).Nodup := by
  induction is generalizing seen with
  | nil => exact List.nodup_nil
  | cons i is ih =>
    rw [distinctKeys]
    split
    · exact ih seen
    · refine List.nodup_cons.mpr ⟨fun again => ?_, ih _⟩
      obtain ⟨j, hj, same⟩ := List.mem_map.mp again
      exact distinctKeys_not_mem hj (same ▸ List.mem_cons_self)

theorem mem_of_mem_distinctKeys {seen : List String} {is : List EntryImport} {i : EntryImport}
    (h : i ∈ distinctKeys seen is) : i ∈ is := by
  induction is generalizing seen with
  | nil => cases h
  | cons j is ih =>
    rw [distinctKeys] at h
    split at h
    · exact List.mem_cons_of_mem j (ih h)
    · rcases List.mem_cons.mp h with rfl | h
      · exact List.mem_cons_self
      · exact List.mem_cons_of_mem j (ih h)

theorem distinctKeys_append (seen : List String) (is js : List EntryImport) :
    ∃ more, distinctKeys seen (is ++ js) = distinctKeys seen is ++ distinctKeys more js := by
  induction is generalizing seen with
  | nil => exact ⟨seen, rfl⟩
  | cons i is ih =>
    rw [List.cons_append, distinctKeys, distinctKeys]
    split
    · exact ih seen
    · obtain ⟨more, split⟩ := ih (i.key :: seen)
      exact ⟨more, congrArg (i :: ·) split⟩

theorem distinctKeys_sublist (seen : List String) (is : List EntryImport) :
    (distinctKeys seen is).Sublist is := by
  induction is generalizing seen with
  | nil => exact .slnil
  | cons i is ih =>
    rw [distinctKeys]
    split
    · exact (ih seen).cons i
    · exact (ih _).cons_cons i

def IsAmong (ps : List Path) (p : Path) : Prop := ∃ q ∈ ps, p.same q = true

instance (ps : List Path) (p : Path) : Decidable (IsAmong ps p) := by
  unfold IsAmong
  infer_instance

theorem filter_present (written scanned : List Path) :
    (written.filter fun p => scanned.any fun q => p.same q) = written.filter (IsAmong scanned ·) :=
  List.filter_congr fun p _ =>
    Bool.eq_iff_iff.mpr (List.any_eq_true.trans (decide_eq_true_iff (p := IsAmong scanned p)).symm)

theorem exists_of_mem_entryImports {written scanned : List Path} {i : EntryImport}
    (h : i ∈ entryImports scratch written scanned) :
    ∃ q ∈ scanned, entryImport? scratch q = some i := by
  obtain ⟨p, hp, import_⟩ := List.mem_filterMap.mp (mem_of_mem_distinctKeys h)
  rcases List.mem_append.mp hp with present | hp
  · obtain ⟨q, hq, same⟩ := List.any_eq_true.mp (List.mem_filter.mp present).2
    exact ⟨q, hq, entryImport?_of_same same ▸ import_⟩
  · exact ⟨p, hp, import_⟩

/-- The keys in order: those of the written modules that were found, then the other ones. -/
theorem keys_eq (scratch : Path) (written scanned : List Path) :
    (entryImports scratch written scanned).map (·.key) =
      (stems scratch (written.filter (IsAmong scanned ·))).eraseDups ++
        ((stems scratch scanned).filter
          (· ∉ stems scratch (written.filter (IsAmong scanned ·)))).eraseDups := by
  rw [entryImports, map_key_distinctKeys, List.removeAll_nil, filter_present, List.filterMap_append,
    List.map_append, keys_filterMap, keys_filterMap, List.eraseDups_append]
  simp [List.removeAll]

def ledImports (scratch : Path) (written scanned : List Path) : List EntryImport :=
  distinctKeys [] ((written.filter (IsAmong scanned ·)).filterMap (entryImport? scratch))

theorem exists_appended (scratch : Path) (written scanned : List Path) :
    ∃ rest : List Path, rest.Sublist scanned ∧
      entryImports scratch written scanned =
        ledImports scratch written scanned ++ rest.filterMap (entryImport? scratch) := by
  obtain ⟨more, split⟩ := distinctKeys_append []
    ((written.filter (IsAmong scanned ·)).filterMap (entryImport? scratch))
    (scanned.filterMap (entryImport? scratch))
  obtain ⟨rest, below, same⟩ := List.sublist_filterMap_iff.mp
    (distinctKeys_sublist more (scanned.filterMap (entryImport? scratch)))
  refine ⟨rest, below, ?_⟩
  rw [entryImports, filter_present, List.filterMap_append, split, same, ledImports]

/-- The entry imports all the modules that were found, each key once: those that were written come
first as they were written, and the others follow as they were found. -/
theorem entryImports_ordered (scratch : Path) (written scanned : List Path) :
    let imports := entryImports scratch written scanned
    let led := stems scratch (written.filter (IsAmong scanned ·))
    (imports.map (·.key)).Nodup ∧
      (∀ key, key ∈ imports.map (·.key) ↔
        ∃ q ∈ scanned, IsWrapperUnder scratch q ∧ q.fileStem? = some key) ∧
      (∀ i ∈ imports, ∃ q ∈ scanned, IsWrapperUnder scratch q ∧ q.fileStem? = some i.key ∧
        i.specifier = specifier scratch q) ∧
      imports.map (·.key) =
        led.eraseDups ++ ((stems scratch scanned).filter (· ∉ led)).eraseDups := by
  intro imports led
  have order : imports.map (·.key) =
      led.eraseDups ++ ((stems scratch scanned).filter (· ∉ led)).eraseDups :=
    keys_eq scratch written scanned
  have found : ∀ i ∈ imports, ∃ q ∈ scanned, IsWrapperUnder scratch q ∧
      q.fileStem? = some i.key ∧ i.specifier = specifier scratch q := by
    intro i hi
    obtain ⟨q, hq, import_⟩ := exists_of_mem_entryImports hi
    exact ⟨q, hq, entryImport?_eq_some.mp import_⟩
  refine ⟨nodup_distinctKeys [] _, fun key => ⟨fun hk => ?_, fun hk => ?_⟩, found, order⟩
  · obtain ⟨i, hi, rfl⟩ := List.mem_map.mp hk
    obtain ⟨q, hq, under, stem, -⟩ := found i hi
    exact ⟨q, hq, under, stem⟩
  · rw [order, List.mem_append, List.mem_eraseDups, List.mem_eraseDups, List.mem_filter]
    by_cases leads : key ∈ led
    · exact .inl leads
    · exact .inr ⟨mem_stems.mpr hk, decide_eq_true leads⟩

end HybridTemplate.Bundle
