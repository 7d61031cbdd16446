import HybridTemplate.Bundle.Bundler
import HybridTemplate.Proofs.Bundle.Entry
import HybridTemplate.Proofs.Bundle.Landing
import HybridTemplate.Proofs.Files.Above
import HybridTemplate.Proofs.Files.Containing
import HybridTemplate.Proofs.Files.Ordering

set_option autoImplicit false

namespace HybridTemplate

open Component (Dependency isModuleName isModulePath)
open Files
open Files.System (AddsDirectories Grows LinkFree Sets)
open HybridTemplate.Path (IsPlain)
open Session
open Visit (outcome outcome_bind_eq_ok outcome_get_bind outcome_pure)

namespace Files.System

variable {fs middle later : System}

/-- The files with the names of wrapper modules are as they were, and nothing that was there
has given way to something of another kind. -/
structure Spares (fs later : System) : Prop where
  sound : later.Sound
  free : LinkFree later
  grows : Grows fs later
  same : ∀ above name content executable, isModuleName name = true →
    (later.look (above ++ [name]) = some (.file content executable) ↔
      fs.look (above ++ [name]) = some (.file content executable))

namespace Spares

theorem refl (sound : fs.Sound) (free : LinkFree fs) : Spares fs fs :=
  ⟨sound, free, .refl fs, fun _ _ _ _ _ => Iff.rfl⟩

theorem addsDirectories (h : Spares fs middle) (adds : AddsDirectories middle later) :
    Spares fs later where
  sound := adds.sound
  free := h.free.addsDirectories adds
  grows := h.grows.trans adds.grows
  same := fun above name content executable module =>
    (adds.look_iff (by simp)).trans (h.same above name content executable module)

theorem sets_file (h : Spares fs middle) {above : Place} {name : String} {content : Text.Bytes}
    {executable : Bool} (sets : Sets middle (above ++ [name]) (.file content executable) later)
    (other : isModuleName name = false) : Spares fs later where
  sound := sets.sound
  free := h.free.sets_file sets
  grows := h.grows.trans (sets.grows_file fun target => h.free _ target)
  same := by
    intro place wrapper bytes runs module
    have apart : place ++ [wrapper] ≠ above ++ [name] := by
      intro here
      obtain ⟨-, last⟩ := List.append_inj' here rfl
      obtain rfl : wrapper = name := List.singleton_inj.mp last
      rw [other] at module
      cases module
    rw [sets.look_of_ne apart]
    exact h.same place wrapper bytes runs module

end Spares

end Files.System

namespace Bundle

open Files.System (Spares)

variable {scratch : Path} {fs middle later : System} {w w' : Workspace}

theorem entryAt_of_mem_componentModules (sound : fs.Sound) (free : LinkFree fs) {p : Path}
    (h : p ∈ Discovery.componentModules fs scratch) :
    ∃ above name content executable, isModuleName name = true ∧
      fs.entryAt true p = .ok (above ++ [name], .file content executable) := by
  obtain ⟨listed, module⟩ := List.mem_filter.mp h
  unfold System.filesBelow at listed
  rcases found : fs.entryAt false scratch with _ | ⟨q, ⟨content, executable⟩ | target | entries⟩
  · rw [found] at listed
    cases listed
  · rw [found] at listed
    obtain rfl := List.mem_singleton.mp listed
    obtain ⟨⟨cs, name, components, -, place⟩, -⟩ :=
      System.directoryAt_parent sound found (.inl rfl) rfl
    rw [isModulePath, Path.fileName?_of_components components, Option.any_some] at module
    rw [place] at found
    exact ⟨_, name, content, executable, module, free.entryAt_eq sound found⟩
  · exact absurd (Entry.look_eq_link.mpr (System.at?_of_entryAt sound found)) (free q target)
  · have directory := free.entryAt_eq sound found
    rw [found] at listed
    have below : p ∈ fs.filesBelow scratch := by
      rw [System.filesBelow_eq directory]
      exact listed
    obtain ⟨names, content, executable, filled, there, rfl⟩ :=
      (System.mem_filesBelow sound directory).mp below
    have plain := sound.isPlain there
    have entry := System.entryAt_below sound directory there rfl filled
      (Path.components_below scratch plain) (System.closed_below scratch filled plain) true
    obtain ⟨above, name, rfl⟩ := (List.eq_nil_or_concat names).resolve_left filled
    rw [List.concat_eq_append] at *
    rw [isModulePath, Path.fileName?_below scratch plain, Option.any_some] at module
    rw [← List.append_assoc] at entry
    exact ⟨_, name, content, executable, module, entry⟩

theorem componentModules_eq_places {p : Path} {q : Place} {e : Entry}
    (found : fs.entryAt false p = .ok (q, e)) (plain : e.isLink = false) :
    Discovery.componentModules fs p =
      ((places e).filter fun place => isModulePath (p.below place)).map p.below := by
  rw [Discovery.componentModules, System.filesBelow_eq_places found plain, List.filter_map]
  rfl

theorem isModuleName_of_below (sound : fs.Sound) {q place : Place} {e c : Entry}
    (here : fs.top.at? q = some e) (there : e.at? place = some c) (filled : place ≠ [])
    (module : isModulePath (scratch.below place) = true) :
    ∃ above name, place = above ++ [name] ∧ isModuleName name = true := by
  have whole : fs.top.at? (q ++ place) = some c := by
    rw [Entry.at?_append, here, Option.bind_some, there]
  have plain := sound.isPlain whole
  obtain ⟨above, name, rfl⟩ := (List.eq_nil_or_concat place).resolve_left filled
  rw [List.concat_eq_append] at *
  rw [isModulePath, Path.fileName?_below scratch plain, Option.any_some] at module
  exact ⟨above, name, rfl, module⟩

/-- What spares the wrappers leaves their listing as it is. -/
theorem componentModules_of_spares (sound : fs.Sound) (free : LinkFree fs) (h : Spares fs later)
    (filled : Discovery.componentModules fs scratch ≠ []) :
    Discovery.componentModules later scratch = Discovery.componentModules fs scratch := by
  rcases found : fs.entryAt false scratch with _ | ⟨q, e⟩
  · refine absurd ?_ filled
    rw [Discovery.componentModules, System.filesBelow, found]
    rfl
  obtain ⟨d, found', like⟩ := h.grows.entryAt found
  have here := System.at?_of_entryAt sound found
  have here' := System.at?_of_entryAt h.sound found'
  have plain {fs : System} {e : Entry} (free : LinkFree fs) (here : fs.top.at? q = some e) :
      e.isLink = false := by
    cases e with
    | file _ _ => rfl
    | link target => exact absurd (Entry.look_eq_link.mpr here) (free q target)
    | directory _ => rfl
  rw [componentModules_eq_places found (plain free here),
    componentModules_eq_places found' (plain h.free here')]
  refine congrArg _ (filter_places_congr (Entry.isWellFormed_of_at? sound.wellFormed here)
    (Entry.isWellFormed_of_at? h.sound.wellFormed here') _ fun place module => ?_)
  by_cases top : place = []
  · subst top
    simp only [Entry.at?_nil, Option.some.injEq]
    cases e <;> cases d <;> simp_all [Entry.face, Face.Like]
  have both (above : Place) (name : String) (named : isModuleName name = true)
      (content : Text.Bytes) (executable : Bool) :
      d.at? (above ++ [name]) = some (.file content executable) ↔
        e.at? (above ++ [name]) = some (.file content executable) := by
    have same := h.same (q ++ above) name content executable named
    rw [List.append_assoc, System.look, System.look, Entry.look_append here,
      Entry.look_append here', Entry.look_eq_file, Entry.look_eq_file] at same
    exact same
  constructor
  · rintro ⟨content, executable, there⟩
    obtain ⟨above, name, rfl, named⟩ := isModuleName_of_below h.sound here' there top module
    exact ⟨content, executable, (both above name named content executable).mp there⟩
  · rintro ⟨content, executable, there⟩
    obtain ⟨above, name, rfl, named⟩ := isModuleName_of_below sound here there top module
    exact ⟨content, executable, (both above name named content executable).mpr there⟩

/-- What spares the wrappers leaves the bytes of each listed one as they are. -/
theorem read_of_spares (sound : fs.Sound) (free : LinkFree fs) (h : Spares fs later) {p : Path}
    (listed : p ∈ Discovery.componentModules fs scratch) :
    ∃ content, fs.read p = .ok content ∧ later.read p = .ok content := by
  obtain ⟨above, name, content, executable, module, found⟩ :=
    entryAt_of_mem_componentModules sound free listed
  obtain ⟨d, found', -⟩ := h.grows.entryAt found
  have there := Entry.look_eq_file.mpr (System.at?_of_entryAt sound found)
  have kept := (h.same above name content executable module).mpr there
  have here := (System.at?_of_entryAt h.sound found').symm.trans (Entry.look_eq_file.mp kept)
  cases here
  exact ⟨content, System.read_eq_ok.mpr ⟨_, _, found⟩, System.read_eq_ok.mpr ⟨_, _, found'⟩⟩

theorem spares_copies (h : Spares fs middle) {d : Dependency} {file relative target : Path}
    {place : Place} {content : Text.Bytes} {copied : Copied}
    (script : IsScriptOf d middle file place content)
    (copies : Copies scratch d.root copied file relative target middle later) :
    Spares fs later := by
  obtain ⟨name, plain, named, rfl, -⟩ := placement?_eq_some copies.placement
  have other : isModuleName name = false := by
    rw [← Bool.not_eq_true]
    intro module
    have path : isModulePath file = true := by
      rw [isModulePath, named, Option.any_some]
      exact module
    have refused := script.script
    rw [Discovery.isScript_of_isModulePath path] at refused
    cases refused
  obtain ⟨between, made, taken⟩ := copies.changed
  have adds := System.addsDirectories_makeDirectories h.sound (scratch.join relative)
  rw [made] at adds
  have ready := h.addsDirectories adds
  obtain ⟨_, _, _, t, -, located, -, sets⟩ := System.copy_eq_ok adds.sound taken
  obtain ⟨above, lands⟩ := ready.free.place_concat (plain.components_join _) located
  rw [lands] at sets
  exact ready.sets_file sets other

theorem spares_copyDependencies (sound : w.files.Sound) (free : LinkFree w.files)
    {ds : List Dependency} {n : Nat}
    (ran : outcome (copyDependencies ds scratch) w = (.ok n, w')) : Spares w.files w'.files := by
  obtain ⟨copied, -, run⟩ := copyDependencies_eq_ok ran
  refine (foldlM_copyDependency_keeps (fun _ fs => Spares w.files fs) (fun _ _ kept => kept.sound)
    ?_ (.refl sound free) run).1
  intro d _ file place content copied fs later relative target kept script copies
  exact spares_copies kept script copies

theorem isPlain_entryFile : IsPlain entryFile := by decide

theorem spares_write_entry (h : Spares fs middle) {content : Text.Bytes}
    (wrote : middle.write (scratch.join ⟨entryFile⟩) content = .ok later) : Spares fs later := by
  obtain ⟨t, executable, located, -, sets⟩ := System.write_eq_ok h.sound wrote
  obtain ⟨above, lands⟩ := h.free.place_concat (isPlain_entryFile.components_join _) located
  rw [lands] at sets
  exact h.sets_file sets (by decide)

/-- What the bundler is called with, and how many scripts have been copied. -/
structure Staged where
  entry : Path
  components : List String
  copied : Nat

def stage (scratch : Path) (written : List Path) (dependencies : List Dependency) :
    Session (Option Staged) := do
  if (Discovery.componentModules (← get).files scratch).isEmpty then
    Session.warn .noModules
    return none
  let copied ← copyDependencies dependencies scratch
  match ← writeEntry scratch written with
  | none => return none
  | some (entry, components) => return some ⟨entry, components, copied⟩

def finish (programs : Programs) (config : Config.BuildConfig) :
    Option Staged → Session BundleOutcome
  | none => return .nothingToBundle
  | some s => do
    runBundler programs config.bundler config.runtimeDir s.entry config.outputFile
    return .bundled config.outputFile s.components s.copied

theorem bundle_eq_stage (programs : Programs) (scratch : Path) (written : List Path)
    (ds : List Dependency) (config : Config.BuildConfig) :
    bundle programs scratch written ds config =
      stage scratch written ds >>= finish programs config := by
  unfold bundle stage
  rw [bind_assoc]
  refine bind_congr fun w => ?_
  split
  · rfl
  · simp only [bind_assoc]
    refine bind_congr fun copied => bind_congr fun result => ?_
    cases result <;> rfl

/-- The files as the bundler finds them: just the wrappers of the scratch tree, each with its
bytes, and the entry that imports them. Nowhere else has a file of such a name changed. -/
structure Intact (scratch : Path) (written : List Path) (fs later : System) : Prop where
  listing : Discovery.componentModules later scratch = Discovery.componentModules fs scratch
  bytes : ∀ p ∈ Discovery.componentModules fs scratch,
    ∃ content, fs.read p = .ok content ∧ later.read p = .ok content
  elsewhere : ∀ above name content executable, isModuleName name = true →
    (later.look (above ++ [name]) = some (.file content executable) ↔
      fs.look (above ++ [name]) = some (.file content executable))
  entry : later.read (scratch.join ⟨entryFile⟩) = .ok (Text.encode (entryText
    (entryImports scratch written (Discovery.componentModules fs scratch))))

theorem stage_eq_ok_some {written : List Path} {ds : List Dependency} {s : Staged}
    (h : outcome (stage scratch written ds) w = (.ok (some s), w')) :
    Discovery.componentModules w.files scratch ≠ [] ∧
      ∃ u, outcome (copyDependencies ds scratch) w = (.ok s.copied, u) ∧
        outcome (writeEntry scratch written) u = (.ok (some (s.entry, s.components)), w') := by
  unfold stage at h
  rw [outcome_get_bind] at h
  split at h
  · obtain ⟨_, _, -, ended⟩ := outcome_bind_eq_ok.mp h
    cases ended
  · rename_i filled
    obtain ⟨n, u, copied, h⟩ := outcome_bind_eq_ok.mp h
    obtain ⟨result, v, entered, h⟩ := outcome_bind_eq_ok.mp h
    rcases result with _ | ⟨entry, components⟩
    · cases h
    · cases h
      exact ⟨fun none => filled (List.isEmpty_iff.mpr none), u, copied, entered⟩

theorem intact_of_stage (sound : w.files.Sound) (free : LinkFree w.files) {written : List Path}
    {ds : List Dependency} {s : Staged}
    (h : outcome (stage scratch written ds) w = (.ok (some s), w')) :
    s.entry = scratch.join ⟨entryFile⟩ ∧
      s.components = (entryImports scratch written
        (Discovery.componentModules w.files scratch)).map (·.key) ∧
      Intact scratch written w.files w'.files := by
  obtain ⟨filled, u, copied, entered⟩ := stage_eq_ok_some h
  have copies := spares_copyDependencies sound free copied
  have listing := componentModules_of_spares sound free copies filled
  obtain ⟨entry, components, wrote⟩ := writeEntry_eq_ok entered
  rw [listing] at components wrote
  rw [entry] at wrote
  have spares := spares_write_entry copies wrote
  obtain ⟨place, executable, found, -, -⟩ := System.entryAt_of_write copies.sound wrote
  exact ⟨entry, components, componentModules_of_spares sound free spares filled,
    fun p listed => read_of_spares sound free spares listed, spares.same,
    System.read_eq_ok.mpr ⟨place, executable, found⟩⟩

/-- Bundling never damages generated code: whatever dependencies are copied, the bundler finds
the wrappers of the scratch tree as they were and an entry that imports just these. Without
wrappers nothing is done to the files. -/
theorem bundle_keeps_wrappers (scratch : Path) (written : List Path) (ds : List Dependency)
    (config : Config.BuildConfig) (w : Workspace) (sound : w.files.Sound)
    (free : LinkFree w.files) :
    (∀ programs, bundle programs scratch written ds config =
        stage scratch written ds >>= finish programs config) ∧
      (∀ s w', outcome (stage scratch written ds) w = (.ok (some s), w') →
        s.entry = scratch.join ⟨entryFile⟩ ∧
          s.components = (entryImports scratch written
            (Discovery.componentModules w.files scratch)).map (·.key) ∧
          Intact scratch written w.files w'.files) ∧
      (Discovery.componentModules w.files scratch = [] →
        ∀ programs, outcome (bundle programs scratch written ds config) w =
          (.ok .nothingToBundle, { w with warnings := w.warnings ++ [.noModules] })) := by
  refine ⟨fun programs => bundle_eq_stage programs scratch written ds config,
    fun s w' h => intact_of_stage sound free h, fun none programs => ?_⟩
  unfold bundle
  rw [outcome_get_bind, if_pos (List.isEmpty_iff.mpr none)]
  rfl

/-- A dependency that has an entry of its own, another one further down, and an older wrapper. -/
theorem bundle_keeps_wrappers_among_copies :
    let wrapper := "card_0123456789abcdef0123456789abcdef01234567.js"
    let files : System := ⟨.directory [
      ("p", .directory [(wrapper, .file [1] false), ("index.js", .file [2] false),
        ("lib", .directory [("index.js", .file [3] false)]), ("util.ts", .file [4] true)]),
      ("w", .directory [(wrapper, .file [5] false)])], []⟩
    let w : Workspace := ⟨files, [], []⟩
    let ds : List Dependency := [⟨⟨"/p"⟩, ⟨"/p"⟩⟩]
    files.Sound ∧ LinkFree files ∧ ∃ s w',
      outcome (stage ⟨"/w"⟩ [] ds) w = (.ok (some s), w') ∧ s.copied = 2 ∧
        s.components = ["card_0123456789abcdef0123456789abcdef01234567"] ∧
        Intact ⟨"/w"⟩ [] files w'.files := by
  intro wrapper files w ds
  have sound : files.Sound := ⟨by decide +kernel, by decide +kernel⟩
  have free : LinkFree files := Entry.look_ne_link (by decide)
  refine ⟨sound, free, ?_⟩
  have shown : ((outcome (stage ⟨"/w"⟩ [] ds) w).1.toOption.bind fun s? =>
      s?.map fun s => (s.copied, s.components)) =
        some (2, ["card_0123456789abcdef0123456789abcdef01234567"]) := by decide +kernel
  rcases staged : outcome (stage ⟨"/w"⟩ [] ds) w with ⟨e | _ | s, w'⟩
  · rw [staged] at shown
    cases shown
  · rw [staged] at shown
    cases shown
  · rw [staged] at shown
    obtain ⟨copied, components⟩ := Prod.mk.inj (Option.some.inj shown)
    obtain ⟨-, intact, -⟩ := bundle_keeps_wrappers ⟨"/w"⟩ [] ds (.standard ⟨"/r"⟩) w sound free
    exact ⟨s, w', rfl, copied, components, (intact s w' staged).2.2⟩

end Bundle
end HybridTemplate
