import HybridTemplate.Proofs.Bundle.Copying

set_option autoImplicit false

namespace HybridTemplate.Bundle

open Component (Dependency)
open Files
open Files.System (AddsDirectories Closed Grows Linkless Sets)
open HybridTemplate.Path (Component IsPlain)
open Text (Bytes)
open Visit (outcome)

section

variable {fs : System} {file dir : Path} {place s : Place} {e d : Entry}

theorem plain_of_entryAt (sound : fs.Sound) (found : fs.entryAt true file = .ok (place, e)) :
    ∀ n ∈ place, IsPlain n :=
  sound.isPlain (p := []) (System.at?_of_entryAt sound found)

theorem isInside_iff (sound : fs.Sound) (file_found : fs.entryAt true file = .ok (place, e))
    (dir_found : fs.entryAt true dir = .ok (s, d)) :
    isInside fs file dir = true ↔ file.startsWith dir = true ∨ s <+: place := by
  rw [isInside, System.canonical?_eq file_found, System.canonical?_eq dir_found, Bool.or_eq_true]
  exact or_congr_right (System.startsWith_placePath (plain_of_entryAt sound file_found)
    (plain_of_entryAt sound dir_found))

/-- A file outside a directory stays outside while the files grow. -/
theorem outside_of_grows {later : System} {content : Bytes} {executable : Bool}
    {entries : List (String × Entry)} (sound : fs.Sound) (sound' : later.Sound)
    (grows : Grows fs later)
    (file_found : fs.entryAt true file = .ok (place, .file content executable))
    (dir_found : fs.entryAt true dir = .ok (s, .directory entries))
    (outside : isInside fs file dir = false) : isInside later file dir = false := by
  obtain ⟨_, _, file_found'⟩ := grows.fileAt file_found
  obtain ⟨_, dir_found'⟩ := grows.directoryAt dir_found
  rw [← Bool.not_eq_true, isInside_iff sound file_found dir_found] at outside
  rwa [← Bool.not_eq_true, isInside_iff sound' file_found' dir_found']

end

section

variable {scratch root file relative target : Path} {q : Place} {name : String}

theorem placement?_eq_some (h : placement? scratch root file = some (relative, target)) :
    ∃ name, IsPlain name ∧ file.fileName? = some name ∧
      target = (scratch.join relative).join ⟨name⟩ ∧
      file.components = root.components ++ (relative.components ++ [.normal name]) := by
  unfold placement? at h
  split at h
  · rename_i parent name above named
    obtain ⟨r, stripped, same⟩ := Option.map_eq_some_iff.mp h
    cases same
    obtain ⟨cs, whole⟩ := Path.exists_of_fileName? named
    have front : parent.components = cs := by
      rw [(Path.parent?_eq_some above).2, whole, List.dropLast_concat]
    refine ⟨name, Path.isPlain_of_fileName? named, named, rfl, ?_⟩
    rw [whole, ← front, Path.components_of_stripPrefix? stripped, List.append_assoc]
  · cases h

/-- Every script whose path goes on behind the root has a place. -/
theorem exists_placement {cs : List Component} (scratch : Path)
    (h : file.components = root.components ++ (cs ++ [.normal name])) :
    ∃ relative, relative.components = cs ∧
      placement? scratch root file = some (relative, (scratch.join relative).join ⟨name⟩) := by
  rw [← List.append_assoc] at h
  obtain ⟨parent, above, components⟩ := Path.parent?_isSome h
  obtain ⟨relative, stripped, behind⟩ := Path.exists_stripPrefix? components
  refine ⟨relative, behind, ?_⟩
  simp only [placement?, above, Path.fileName?_of_components h, stripped]
  rfl

theorem components_target (filled : scratch.text ≠ "")
    (inside : within [] relative.components = some q) (plain : IsPlain name) :
    ∃ cs, ((scratch.join relative).join ⟨name⟩).components =
        scratch.components ++ (cs ++ [.normal name]) ∧ within [] cs = some q := by
  have relatively := not_isAbsolute_of_within inside
  refine ⟨relative.steps.map Path.componentOf, ?_, ?_⟩
  · rw [plain.components_join, Path.components_join filled relatively, List.append_assoc]
  · rw [within_steps relatively, inside]

end

/-- What is behind the root of a script below a directory: names, or what the directory has
behind the root and then names. -/
theorem behind_root {dir root : Path} {names : List String} {name : String} {cs : List Component}
    (filled : names ≠ [])
    (h : dir.components ++ names.map Component.normal =
      root.components ++ (cs ++ [.normal name])) :
    (∃ ns : List String, cs = ns.map Component.normal) ∨
      ∃ as, ∃ ns : List String, dir.components = root.components ++ as ∧
        cs = as ++ ns.map Component.normal := by
  obtain ⟨init, last, rfl⟩ := (List.eq_nil_or_concat names).resolve_left filled
  rw [List.concat_eq_append, List.map_append, List.map_singleton, ← List.append_assoc,
    ← List.append_assoc] at h
  obtain ⟨front, -⟩ := List.append_inj' h rfl
  rcases List.append_eq_append_iff.mp front with ⟨as, -, names⟩ | ⟨as, dir, rest⟩
  · obtain ⟨_, ns, -, -, rfl⟩ := List.map_eq_append_iff.mp names
    exact .inl ⟨ns, rfl⟩
  · exact .inr ⟨as, init, dir, rest⟩

/-- Whether the directory of a dependency does not climb out of its root on the way from it. -/
def Stays (d : Dependency) : Prop :=
  ∀ cs, d.dir.components = d.root.components ++ cs → ∃ q, within [] cs = some q

theorem stays_of_components {d : Dependency} {cs : List Component} {q : Place}
    (h : d.dir.components = d.root.components ++ cs) (inside : within [] cs = some q) : Stays d :=
  fun _ dir => ⟨q, List.append_cancel_left (dir.symm.trans h) ▸ inside⟩

/-- What stands below such a directory does not climb out of the root either. -/
theorem Stays.exists_within {d : Dependency} (stays : Stays d) {names : List String} {name : String}
    {cs : List Component} (filled : names ≠ [])
    (h : d.dir.components ++ names.map Component.normal =
      d.root.components ++ (cs ++ [.normal name])) :
    ∃ q, within [] cs = some q := by
  rcases behind_root filled h with ⟨ns, rfl⟩ | ⟨as, ns, dir, rfl⟩
  · exact ⟨ns, within_names [] ns⟩
  · obtain ⟨q, there⟩ := stays as dir
    exact ⟨q ++ ns, by rw [within_append, there, Option.bind_some, within_names]⟩

/-- Whether the directory of a dependency is named without dots behind its root. -/
def Descends (d : Dependency) : Prop :=
  ∀ cs, d.dir.components = d.root.components ++ cs →
    ∃ names : List String, cs = names.map Component.normal

theorem descends_of_components {d : Dependency} (names : List String)
    (h : d.dir.components = d.root.components ++ names.map Component.normal) : Descends d :=
  fun _ dir => ⟨names, List.append_cancel_left (dir.symm.trans h)⟩

theorem Descends.stays {d : Dependency} (h : Descends d) : Stays d := by
  intro cs dir
  obtain ⟨names, rfl⟩ := h cs dir
  exact ⟨names, within_names [] names⟩

theorem Descends.exists_names {d : Dependency} (descends : Descends d) {names : List String}
    {name : String} {cs : List Component} (filled : names ≠ [])
    (h : d.dir.components ++ names.map Component.normal =
      d.root.components ++ (cs ++ [.normal name])) :
    ∃ ns : List String, cs = ns.map Component.normal := by
  rcases behind_root filled h with names | ⟨as, ns, dir, rfl⟩
  · exact names
  · obtain ⟨front, rfl⟩ := descends as dir
    exact ⟨front ++ ns, by rw [List.map_append]⟩

structure Lands (s q : Place) (name : String) (content : Bytes) (fs later : System) : Prop where
  here : ∃ executable, later.look (s ++ (q ++ [name])) = some (.file content executable)
  elsewhere : ∀ p f, f ≠ .directory → p ≠ s ++ (q ++ [name]) →
    (later.look p = some f ↔ fs.look p = some f)

section

variable {scratch : Path} {s : Place} {d : Dependency} {copied : Copied} {fs later : System}
  {file relative target : Path} {place : Place} {content : Bytes}

theorem IsScriptOf.not_prefix (script : IsScriptOf d fs file place content)
    (tree : Linkless fs scratch s) (outside : isInside fs file scratch = false) :
    ¬ s <+: place := by
  obtain ⟨_, found⟩ := script.found
  obtain ⟨_, scratch_found⟩ := tree.found
  rw [← Bool.not_eq_true, isInside_iff tree.sound found scratch_found] at outside
  exact fun inside => outside (.inr inside)

theorem Copies.lands (copies : Copies scratch d.root copied file relative target fs later)
    (tree : Linkless fs scratch s) (stays : Stays d) (script : IsScriptOf d fs file place content) :
    Linkless later scratch s ∧ ∃ q name, within [] relative.components = some q ∧
      file.fileName? = some name ∧
      file.components = d.root.components ++ (relative.components ++ [.normal name]) ∧
      Lands s q name content fs later := by
  obtain ⟨name, plain, named, rfl, components⟩ := placement?_eq_some copies.placement
  obtain ⟨names, filled, below⟩ := script.below
  obtain ⟨q, inside⟩ := stays.exists_within filled (below.symm.trans components)
  obtain ⟨cs, target, within⟩ := components_target tree.filled inside plain
  obtain ⟨middle, made, taken⟩ := copies.changed
  have adds := System.addsDirectories_makeDirectories tree.sound (scratch.join relative)
  rw [made] at adds
  obtain ⟨executable, found⟩ := script.found
  have seen := System.at?_of_entryAt tree.sound found
  obtain ⟨content', executable', read⟩ := adds.grows.fileAt found
  have same : content' = content ∧ executable' = executable := by
    have kept := (adds.look_iff (f := .file content executable) (by simp)).mpr
      (Entry.look_eq_file.mpr seen)
    have now := Entry.look_eq_file.mpr (System.at?_of_entryAt adds.sound read)
    cases now.symm.trans kept
    exact ⟨rfl, rfl⟩
  obtain ⟨rfl, rfl⟩ := same
  have apart : s ++ (q ++ [name]) ≠ place := fun here =>
    script.not_prefix tree copies.outside ⟨q ++ [name], here⟩
  obtain ⟨tree', sets⟩ := (tree.of_addsDirectories adds).copy target (System.closed_join _ plain)
    within read apart taken
  refine ⟨tree', q, name, inside, named, components, ⟨_, sets.look_self⟩, fun p f other ne => ?_⟩
  rw [sets.look_of_ne ne, adds.look_iff other]

end

section

variable {scratch : Path} {s t : Place} {d : Dependency} {ds : List Dependency}
  {names : List String} {entries inner : List (String × Entry)} {content : Bytes}
  {executable : Bool} {relative target : Path} {copied : Copied} {w w' : Workspace}

/-- A script that is listed for a dependency is copied, unless it is inside the scratch tree or
would take the place of the entry. -/
theorem has_of_dependency (sound : w.files.Sound)
    (scratch_found : w.files.entryAt true scratch = .ok (s, .directory entries))
    (dir_found : w.files.entryAt true d.dir = .ok (t, .directory inner)) (filled : names ≠ [])
    (here : w.files.top.at? (t ++ names) = some (.file content executable))
    (script : Discovery.isScript (d.dir.below names) = true)
    (outside : isInside w.files (d.dir.below names) scratch = false)
    (placed : placement? scratch d.root (d.dir.below names) = some (relative, target))
    (notEntry : target.same (scratch.join ⟨entryFile⟩) = false) {before : Copied}
    (h : outcome (copyDependency scratch before d) w = (.ok copied, w')) :
    copied.has (d.dir.below names) relative = true := by
  have plain := sound.isPlain here
  have found := System.entryAt_below sound dir_found here rfl filled
    (Path.components_below d.dir plain) (System.closed_below d.dir filled plain) true
  have listed : d.dir.below names ∈ Discovery.scripts w.files d.dir :=
    List.mem_filter.mpr ⟨(System.mem_filesBelow sound dir_found).mpr
      ⟨names, content, executable, filled, here, rfl⟩, script⟩
  rcases copyDependency_eq_ok h with ⟨-, run⟩ | ⟨none, -⟩
  · obtain ⟨first, rest, c₁, w₁, c₂, w₂, all, earlier, step, later⟩ := Visit.foldlM_split listed run
    have scripts : ∀ file ∈ first, ∃ place content, IsScriptOf d w.files file place content :=
      fun file mem => isScriptOf_of_mem sound dir_found (all ▸ List.mem_append_left _ mem)
    obtain ⟨sound₁, grows⟩ := foldlM_copyScript_keeps (fun _ fs => fs.Sound) scripts
      (fun _ _ h => h) (fun _ _ _ _ _ _ _ _ sound _ copies => (copies.grows sound).2)
      (.refl _) sound earlier
    have outside₁ := outside_of_grows sound sound₁ grows found scratch_found outside
    refine has_of_prefix ?_ (foldlM_copyScript_extends later)
    rcases copyScript_eq_ok step with ⟨rfl, -, inside | none | ⟨r, g, at_, known⟩⟩ |
      ⟨r, g, rfl, copies⟩
    · rw [outside₁] at inside
      cases inside
    · rw [placed] at none
      cases none
    · cases placed.symm.trans at_
      rcases known with entry | known
      · rw [notEntry] at entry
        cases entry
      · exact known
    · cases placed.symm.trans copies.placement
      refine List.any_eq_true.mpr ⟨_, List.mem_append_right _ List.mem_cons_self, ?_⟩
      rw [Path.same, Path.same, beq_self_eq_true, beq_self_eq_true, Bool.and_self]
  · have directory : w.files.isDirectory d.dir = true := by
      rw [System.isDirectory, System.status?, dir_found]
      rfl
    rw [directory] at none
    cases none

theorem has_of_run (sound : w.files.Sound)
    (scratch_found : w.files.entryAt true scratch = .ok (s, .directory entries)) (mem : d ∈ ds)
    (dir_found : w.files.entryAt true d.dir = .ok (t, .directory inner)) (filled : names ≠ [])
    (here : w.files.top.at? (t ++ names) = some (.file content executable))
    (script : Discovery.isScript (d.dir.below names) = true)
    (outside : isInside w.files (d.dir.below names) scratch = false)
    (placed : placement? scratch d.root (d.dir.below names) = some (relative, target))
    (notEntry : target.same (scratch.join ⟨entryFile⟩) = false) {before : Copied}
    (h : outcome (ds.foldlM (copyDependency scratch) before) w = (.ok copied, w')) :
    copied.has (d.dir.below names) relative = true := by
  obtain ⟨first, rest, c₁, w₁, c₂, w₂, -, earlier, step, later⟩ := Visit.foldlM_split mem h
  obtain ⟨sound₁, grows⟩ := foldlM_copyDependency_keeps (fun _ fs => fs.Sound)
    (fun _ _ h => h) (fun _ _ _ _ _ _ _ _ _ _ sound _ copies => (copies.grows sound).2)
    sound earlier
  obtain ⟨_, scratch_found₁⟩ := grows.directoryAt scratch_found
  obtain ⟨_, dir_found₁⟩ := grows.directoryAt dir_found
  have plain := sound.isPlain here
  have found := System.entryAt_below sound dir_found here rfl filled
    (Path.components_below d.dir plain) (System.closed_below d.dir filled plain) true
  obtain ⟨_, _, found₁⟩ := grows.fileAt found
  refine has_of_prefix ?_ (foldlM_copyDependency_extends later)
  exact has_of_dependency sound₁ scratch_found₁ dir_found₁ filled
    (System.at?_of_entryAt sound₁ found₁) script
    (outside_of_grows sound sound₁ grows found scratch_found outside) placed notEntry step

end

end HybridTemplate.Bundle
