import HybridTemplate.Bundle.Dependencies
import HybridTemplate.Proofs.Files.Listing
import HybridTemplate.Proofs.Session

set_option autoImplicit false

namespace HybridTemplate.Bundle

open Component (Dependency)
open Files
open Files.System (Closed Grows Linkless)
open HybridTemplate.Path (Component IsPlain)
open Session
open Text (Bytes)
open Visit (outcome outcome_bind outcome_bind_eq_ok outcome_get_bind outcome_pure)

/-- Where a script is copied to: its directory relative to the root, and the path in the
scratch tree. -/
def placement? (scratch root file : Path) : Option (Path × Path) :=
  match file.parent?, file.fileName? with
  | some parent, some name =>
    (parent.stripPrefix? root).map fun relative =>
      (relative, (scratch.join relative).join ⟨name⟩)
  | _, _ => none

def PassedOver (fs : System) (scratch root : Path) (copied : Copied) (file : Path) : Prop :=
  isInside fs file scratch = true ∨ placement? scratch root file = none ∨
    ∃ relative target, placement? scratch root file = some (relative, target) ∧
      (target.same (scratch.join ⟨entryFile⟩) = true ∨ copied.has file relative = true)

/-- What copying a script does to the files. -/
structure Copies (scratch root : Path) (copied : Copied) (file relative target : Path)
    (fs later : System) : Prop where
  outside : isInside fs file scratch = false
  placement : placement? scratch root file = some (relative, target)
  notEntry : target.same (scratch.join ⟨entryFile⟩) = false
  new : copied.has file relative = false
  changed : ∃ middle, fs.makeDirectories (scratch.join relative) = (middle, none) ∧
    middle.copy file target = .ok later

section

variable {scratch root file relative target : Path} {copied copied' : Copied} {w w' : Workspace}

def copyTo (scratch : Path) (copied : Copied) (file relative target : Path) : Session Copied := do
  if target.same (scratch.join ⟨entryFile⟩) then
    Session.warn .dependencyReplacesEntry
    return copied
  if copied.has file relative then return copied
  Session.makeDirectories (scratch.join relative)
  Session.changeFiles file fun fs => fs.copy file target
  return copied ++ [(file, relative)]

theorem copyTo_eq_ok
    (h : outcome (copyTo scratch copied file relative target) w = (.ok copied', w')) :
    (copied' = copied ∧ w'.files = w.files ∧
        (target.same (scratch.join ⟨entryFile⟩) = true ∨ copied.has file relative = true)) ∨
      (copied' = copied ++ [(file, relative)] ∧
        target.same (scratch.join ⟨entryFile⟩) = false ∧ copied.has file relative = false ∧
        ∃ middle, w.files.makeDirectories (scratch.join relative) = (middle, none) ∧
          middle.copy file target = .ok w'.files) := by
  unfold copyTo at h
  by_cases entry : target.same (scratch.join ⟨entryFile⟩) = true
  · rw [if_pos entry] at h
    cases h
    exact .inl ⟨rfl, rfl, .inl entry⟩
  rw [if_neg entry] at h
  by_cases known : copied.has file relative = true
  · rw [if_pos known] at h
    cases h
    exact .inl ⟨rfl, rfl, .inr known⟩
  rw [if_neg known] at h
  obtain ⟨_, u, made, h⟩ := outcome_bind_eq_ok.mp h
  obtain ⟨_, v, taken, ended⟩ := outcome_bind_eq_ok.mp h
  rw [outcome_pure, Prod.mk.injEq] at ended
  obtain ⟨result, rfl⟩ := ended
  obtain ⟨-, middle, directories, rfl⟩ := makeDirectories_eq_ok.mp made
  obtain ⟨-, later, bytes, rfl⟩ := changeFiles_eq_ok.mp taken
  rw [Bool.not_eq_true] at entry known
  exact .inr ⟨(Except.ok.inj result).symm, entry, known, middle, directories, bytes⟩

theorem copyScript_of_placement (outside : isInside w.files file scratch = false)
    (placed : placement? scratch root file = some (relative, target)) :
    outcome (copyScript scratch root copied file) w =
      outcome (copyTo scratch copied file relative target) w := by
  unfold copyScript
  rw [outcome_get_bind, outside, if_neg Bool.false_ne_true]
  cases above : file.parent? with
  | none => simp only [placement?, above, reduceCtorEq] at placed
  | some parent =>
    cases named : file.fileName? with
    | none => simp only [placement?, above, named, reduceCtorEq] at placed
    | some name =>
      simp only [placement?, above, named] at placed
      obtain ⟨r, stripped, same⟩ := Option.map_eq_some_iff.mp placed
      cases same
      dsimp only
      rw [stripped]
      rfl

theorem copyScript_of_no_placement (w : Workspace) (copied : Copied)
    (none : placement? scratch root file = none) :
    ∃ u, outcome (copyScript scratch root copied file) w = (.ok copied, u) ∧ u.files = w.files := by
  unfold copyScript
  rw [outcome_get_bind]
  split
  · exact ⟨w, rfl, rfl⟩
  cases above : file.parent? with
  | none => exact ⟨w, rfl, rfl⟩
  | some parent =>
    cases named : file.fileName? with
    | none => exact ⟨w, rfl, rfl⟩
    | some name =>
      simp only [placement?, above, named] at none
      dsimp only
      rw [Option.map_eq_none_iff.mp none]
      exact ⟨_, rfl, rfl⟩

/-- All that one step can do. -/
theorem copyScript_eq_ok
    (h : outcome (copyScript scratch root copied file) w = (.ok copied', w')) :
    (copied' = copied ∧ w'.files = w.files ∧ PassedOver w.files scratch root copied file) ∨
      ∃ relative target, copied' = copied ++ [(file, relative)] ∧
        Copies scratch root copied file relative target w.files w'.files := by
  by_cases inside : isInside w.files file scratch = true
  · unfold copyScript at h
    rw [outcome_get_bind, if_pos inside] at h
    cases h
    exact .inl ⟨rfl, rfl, .inl inside⟩
  rw [Bool.not_eq_true] at inside
  rcases placed : placement? scratch root file with _ | ⟨relative, target⟩
  · obtain ⟨u, passed, same⟩ := copyScript_of_no_placement w copied placed
    rw [passed] at h
    cases h
    exact .inl ⟨rfl, same, .inr (.inl placed)⟩
  · rw [copyScript_of_placement inside placed] at h
    rcases copyTo_eq_ok h with ⟨rfl, same, why⟩ | ⟨rfl, entry, new, changed⟩
    · exact .inl ⟨rfl, same, .inr (.inr ⟨relative, target, placed, why⟩)⟩
    · exact .inr ⟨relative, target, rfl, inside, placed, entry, new, changed⟩

end

theorem Copies.grows {scratch root : Path} {copied : Copied} {file relative target : Path}
    {fs later : System} (h : Copies scratch root copied file relative target fs later)
    (sound : fs.Sound) : Grows fs later ∧ later.Sound := by
  obtain ⟨middle, made, taken⟩ := h.changed
  have adds := System.addsDirectories_makeDirectories sound (scratch.join relative)
  rw [made] at adds
  obtain ⟨_, _, _, t, _, _, linkless, sets⟩ := System.copy_eq_ok adds.sound taken
  exact ⟨adds.grows.trans (sets.grows_file linkless), sets.sound⟩

/-- A script below the directory of a dependency, with its content. -/
structure IsScriptOf (d : Dependency) (fs : System) (file : Path) (place : Place)
    (content : Bytes) : Prop where
  below : ∃ names, names ≠ [] ∧ file.components = d.dir.components ++ names.map Component.normal
  closed : Closed file
  script : Discovery.isScript file = true
  found : ∃ executable, fs.entryAt true file = .ok (place, .file content executable)

theorem isScriptOf_of_mem {fs : System} (sound : fs.Sound) {d : Dependency} {s : Place}
    {entries : List (String × Entry)} (found : fs.entryAt true d.dir = .ok (s, .directory entries))
    {file : Path} (h : file ∈ Discovery.scripts fs d.dir) :
    ∃ place content, IsScriptOf d fs file place content := by
  obtain ⟨listed, script⟩ := List.mem_filter.mp h
  obtain ⟨names, content, executable, filled, here, rfl⟩ :=
    (System.mem_filesBelow sound found).mp listed
  have plain := sound.isPlain here
  have components := Path.components_below d.dir plain
  have closed := System.closed_below d.dir filled plain
  exact ⟨s ++ names, content, ⟨names, filled, components⟩, closed, script, executable,
    System.entryAt_below sound found here rfl filled components closed true⟩

theorem directory_of_isDirectory {fs : System} {p : Path} (h : fs.isDirectory p = true) :
    ∃ s entries, fs.entryAt true p = .ok (s, .directory entries) := by
  unfold System.isDirectory System.status? at h
  rcases found : fs.entryAt true p with _ | ⟨s, e⟩
  · rw [found] at h
    cases h
  · rw [found] at h
    cases e with
    | file _ _ => cases h
    | link _ => cases h
    | directory entries => exact ⟨s, entries, rfl⟩

variable {scratch : Path} {w w' : Workspace}

/-- What is kept by every copy of a script is kept by the copies of listed scripts. -/
theorem foldlM_copyScript_keeps (Inv : Copied → System → Prop) {d : Dependency}
    {listing : System} {files : List Path}
    (listed : ∀ file ∈ files, ∃ place content, IsScriptOf d listing file place content)
    (sound : ∀ copied fs, Inv copied fs → fs.Sound)
    (step : ∀ file place content copied fs later relative target, Inv copied fs →
      IsScriptOf d fs file place content →
      Copies scratch d.root copied file relative target fs later →
      Inv (copied ++ [(file, relative)]) later)
    {copied copied' : Copied} (older : Grows listing w.files) (start : Inv copied w.files)
    (h : outcome (files.foldlM (copyScript scratch d.root) copied) w = (.ok copied', w')) :
    Inv copied' w'.files ∧ Grows w.files w'.files := by
  refine Visit.foldlM_keeps (fun copied u => Inv copied u.files ∧ Grows w.files u.files)
    ?_ ⟨start, .refl _⟩ h
  rintro file mem copied u copied' u' ⟨inv, grows⟩ stepped
  rcases copyScript_eq_ok stepped with ⟨rfl, same, -⟩ | ⟨relative, target, rfl, copies⟩
  · rw [same]
    exact ⟨inv, grows⟩
  · have further := (copies.grows (sound _ _ inv)).1
    obtain ⟨place, content, below, closed, script, _, there⟩ := listed file mem
    obtain ⟨content', executable', still⟩ := (older.trans grows).fileAt there
    exact ⟨step file place content' copied u.files u'.files relative target inv
      ⟨below, closed, script, executable', still⟩ copies, grows.trans further⟩

theorem copyDependency_eq_ok {d : Dependency} {copied copied' : Copied}
    (h : outcome (copyDependency scratch copied d) w = (.ok copied', w')) :
    (w.files.isDirectory d.dir = true ∧
        outcome ((Discovery.scripts w.files d.dir).foldlM (copyScript scratch d.root) copied) w =
          (.ok copied', w')) ∨
      (w.files.isDirectory d.dir = false ∧ copied' = copied ∧ w'.files = w.files) := by
  unfold copyDependency at h
  rw [outcome_get_bind] at h
  dsimp only at h
  by_cases directory : w.files.isDirectory d.dir = true
  · rw [if_pos directory] at h
    exact .inl ⟨directory, h⟩
  · rw [if_neg directory] at h
    cases h
    exact .inr ⟨Bool.not_eq_true _ ▸ directory, rfl, rfl⟩

theorem copyDependency_keeps (Inv : Copied → System → Prop) {d : Dependency}
    (sound : ∀ copied fs, Inv copied fs → fs.Sound)
    (step : ∀ file place content copied fs later relative target, Inv copied fs →
      IsScriptOf d fs file place content →
      Copies scratch d.root copied file relative target fs later →
      Inv (copied ++ [(file, relative)]) later)
    {copied copied' : Copied} (start : Inv copied w.files)
    (h : outcome (copyDependency scratch copied d) w = (.ok copied', w')) :
    Inv copied' w'.files ∧ Grows w.files w'.files := by
  rcases copyDependency_eq_ok h with ⟨directory, run⟩ | ⟨-, rfl, same⟩
  · obtain ⟨s, entries, found⟩ := directory_of_isDirectory directory
    exact foldlM_copyScript_keeps Inv
      (fun _ listed => isScriptOf_of_mem (sound _ _ start) found listed) sound step (.refl _) start
      run
  · rw [same]
    exact ⟨start, .refl _⟩

theorem copyDependencies_eq_ok {ds : List Dependency} {n : Nat}
    (h : outcome (copyDependencies ds scratch) w = (.ok n, w')) :
    ∃ copied, n = copied.length ∧
      outcome ((ds.mergeSort dependencyLe).foldlM (copyDependency scratch) []) w =
        (.ok copied, w') := by
  obtain ⟨copied, u, run, ended⟩ := outcome_bind_eq_ok.mp h
  cases ended
  exact ⟨copied, rfl, run⟩

theorem foldlM_copyDependency_keeps (Inv : Copied → System → Prop) {ds : List Dependency}
    (sound : ∀ copied fs, Inv copied fs → fs.Sound)
    (step : ∀ d ∈ ds, ∀ file place content copied fs later relative target, Inv copied fs →
      IsScriptOf d fs file place content →
      Copies scratch d.root copied file relative target fs later →
      Inv (copied ++ [(file, relative)]) later)
    {copied copied' : Copied} (start : Inv copied w.files)
    (h : outcome (ds.foldlM (copyDependency scratch) copied) w = (.ok copied', w')) :
    Inv copied' w'.files ∧ Grows w.files w'.files := by
  refine Visit.foldlM_keeps (fun copied u => Inv copied u.files ∧ Grows w.files u.files)
    ?_ ⟨start, .refl _⟩ h
  rintro d mem copied u copied' u' ⟨inv, grows⟩ stepped
  obtain ⟨inv', further⟩ := copyDependency_keeps Inv sound (step d mem) inv stepped
  exact ⟨inv', grows.trans further⟩

section

variable {copied copied' : Copied}

theorem copyScript_extends {root file : Path}
    (h : outcome (copyScript scratch root copied file) w = (.ok copied', w')) :
    copied <+: copied' := by
  rcases copyScript_eq_ok h with ⟨rfl, -⟩ | ⟨relative, _, rfl, -⟩
  · exact List.prefix_rfl
  · exact List.prefix_append copied _

theorem foldlM_copyScript_extends {root : Path} {files : List Path}
    (h : outcome (files.foldlM (copyScript scratch root) copied) w = (.ok copied', w')) :
    copied <+: copied' :=
  Visit.foldlM_keeps (fun c _ => copied <+: c)
    (fun _ _ _ _ _ _ before step => before.trans (copyScript_extends step)) List.prefix_rfl h

theorem foldlM_copyDependency_extends {ds : List Dependency}
    (h : outcome (ds.foldlM (copyDependency scratch) copied) w = (.ok copied', w')) :
    copied <+: copied' := by
  refine Visit.foldlM_keeps (fun c _ => copied <+: c) ?_ List.prefix_rfl h
  intro d _ c u c' u' before step
  rcases copyDependency_eq_ok step with ⟨-, run⟩ | ⟨-, rfl, -⟩
  · exact before.trans (foldlM_copyScript_extends run)
  · exact before

theorem has_of_prefix {file relative : Path} (h : copied.has file relative = true)
    (further : copied <+: copied') : copied'.has file relative = true := by
  obtain ⟨c, hc, same⟩ := List.any_eq_true.mp h
  exact List.any_eq_true.mpr ⟨c, further.subset hc, same⟩

end

end HybridTemplate.Bundle
