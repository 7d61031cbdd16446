import HybridTemplate.Proofs.Bundle.Imports
import HybridTemplate.Proofs.Files.Ordering

set_option autoImplicit false

namespace HybridTemplate

namespace Path

theorem componentsLt_append (cs as bs : List Component) :
    componentsLt (cs ++ as) (cs ++ bs) = componentsLt as bs := by
  induction cs with
  | nil => rfl
  | cons c cs ih =>
    have irreflexive : c.lt c = false := by
      cases c <;> simp [Component.lt]
    rw [List.cons_append, List.cons_append, componentsLt, irreflexive, ih]
    simp

theorem componentsLt_names {as bs : List String} :
    componentsLt (as.map Component.normal) (bs.map Component.normal) = true ↔ as < bs := by
  induction as generalizing bs with
  | nil => cases bs <;> simp [componentsLt]
  | cons a as ih =>
    cases bs with
    | nil => simp [componentsLt]
    | cons b bs =>
      simp [componentsLt, Component.lt, List.cons_lt_cons_iff, ih]

/-- Paths below a directory are ordered by the names on the way. -/
theorem lt_below {p : Path} {as bs : List String} (ha : ∀ n ∈ as, IsPlain n)
    (hb : ∀ n ∈ bs, IsPlain n) : (p.below as).lt (p.below bs) = true ↔ as < bs := by
  rw [Path.lt, p.components_below ha, p.components_below hb, componentsLt_append,
    componentsLt_names]

theorem not_same_of_lt {p q : Path} (h : p.lt q = true) : p.same q = false := by
  refine Bool.eq_false_iff.mpr fun same => ?_
  have never := componentsLt_append p.components [] []
  rw [List.append_nil, componentsLt] at never
  rw [Path.lt, ← same_iff.mp same, never] at h
  cases h

end Path

namespace Discovery

open Component (isModulePath)
open Files
open HybridTemplate.Path (IsPlain)

def IsScriptName (name : String) : Prop :=
  ∃ stem, stem ≠ "" ∧ (name = stem ++ ".js" ∨ name = stem ++ ".ts")

theorem isScriptName_iff {name : String} :
    IsScriptName name ↔
      (Path.splitName name).2 = some "js" ∨ (Path.splitName name).2 = some "ts" := by
  have cut (stem extension : String) (filled : stem ≠ "") (dotless : '.' ∉ extension.toList) :
      (Path.splitName (stem ++ ("." ++ extension))).2 = some extension := by
    rw [← String.append_assoc, Path.splitName_of_extension filled dotless]
  constructor
  · rintro ⟨stem, filled, rfl | rfl⟩
    · exact .inl (cut stem "js" filled (by decide))
    · exact .inr (cut stem "ts" filled (by decide))
  · rintro (js | ts)
    · obtain ⟨stem, filled, rfl⟩ := Path.exists_of_splitName js
      exact ⟨stem, filled, .inl String.append_assoc⟩
    · obtain ⟨stem, filled, rfl⟩ := Path.exists_of_splitName ts
      exact ⟨stem, filled, .inr String.append_assoc⟩

theorem extension?_of_isModulePath {p : Path} (h : isModulePath p = true) :
    p.extension? = some "js" := by
  obtain ⟨name, named, module⟩ := (Option.any_eq_true _ _).mp h
  obtain ⟨key, rfl, stem, -⟩ := Component.exists_stem_of_isModuleName module
  have filled : key ≠ "" := by
    rintro rfl
    cases stem
  rw [Path.extension?, named, Option.bind_some, Component.splitName_script filled]

/-- The two searches share the scripts among them. -/
theorem isModulePath_or_isScript {p : Path} :
    isModulePath p = true ∨ isScript p = true ↔
      p.extension? = some "js" ∨ p.extension? = some "ts" := by
  by_cases module : isModulePath p = true
  · simp [module, extension?_of_isModulePath module]
  · simp [isScript, module]

variable {fs : System} {dir : Path} {s : Place} {entries : List (String × Entry)}

theorem mem_found (sound : fs.Sound) (found : fs.entryAt true dir = .ok (s, .directory entries))
    {f : Path} :
    f ∈ componentModules fs dir ++ scripts fs dir ↔
      ∃ above name, IsScriptName name ∧ fs.HoldsFile dir (above ++ [name]) ∧
        f = dir.below (above ++ [name]) := by
  have extension {above : Place} {name : String}
      (plain : ∀ n ∈ above ++ [name], IsPlain n) :
      (dir.below (above ++ [name])).extension? = (Path.splitName name).2 := by
    rw [Path.extension?, Path.fileName?_below dir plain, Option.bind_some]
  rw [List.mem_append, componentModules, scripts, List.mem_filter, List.mem_filter, ← and_or_left,
    isModulePath_or_isScript, System.mem_filesBelow sound found]
  constructor
  · rintro ⟨⟨names, content, executable, filled, there, rfl⟩, named⟩
    obtain ⟨above, name, rfl⟩ := (List.eq_nil_or_concat names).resolve_left filled
    rw [List.concat_eq_append] at *
    rw [extension (sound.isPlain there)] at named
    exact ⟨above, name, isScriptName_iff.mpr named,
      ⟨s, entries, content, executable, found, there⟩, rfl⟩
  · rintro ⟨above, name, named, ⟨s', entries', content, executable, found', there⟩, rfl⟩
    rw [found] at found'
    cases found'
    rw [extension (sound.isPlain there)]
    exact ⟨⟨_, content, executable, by simp, there, rfl⟩, isScriptName_iff.mp named⟩

theorem pairwise_filesBelow (sound : fs.Sound)
    (found : fs.entryAt true dir = .ok (s, .directory entries)) :
    (fs.filesBelow dir).Pairwise fun p q => p.lt q = true := by
  have here : fs.top.at? s = some (.directory entries) := System.at?_of_entryAt sound found
  have well : (Entry.directory entries).isWellFormed = true :=
    Entry.isWellFormed_of_at? sound.wellFormed here
  have plain : ∀ place ∈ placesAll entries, ∀ n ∈ place, IsPlain n := by
    intro place listed
    obtain ⟨content, executable, there⟩ := (mem_places well).mp listed
    refine sound.isPlain (p := s) (e := .file content executable) ?_
    rw [Entry.at?_append, here]
    exact there
  rw [System.filesBelow_eq found, filesFromAll_eq, List.pairwise_map]
  refine (pairwise_places _ well).imp_of_mem fun hp hq before => ?_
  exact (Path.lt_below (plain _ hp) (plain _ hq)).mpr before

theorem not_same_of_found {p q : Path} (hp : p ∈ componentModules fs dir)
    (hq : q ∈ scripts fs dir) : p.same q = false := by
  have apart := not_same_of_mem_scripts (List.mem_filter.mp hp).2 hq
  refine Bool.eq_false_iff.mpr fun same => Bool.eq_false_iff.mp apart ?_
  exact Path.same_iff.mpr (Path.same_iff.mp same).symm

/-- The two searches find every script below a directory once, as a wrapper module or as another
script, and each finds its own in the order of their paths. So in the entry the imports behind those
of the written modules go by the paths of the modules. -/
theorem searches_partition_scripts (sound : fs.Sound)
    (found : fs.entryAt true dir = .ok (s, .directory entries)) :
    let modules := componentModules fs dir
    let others := scripts fs dir
    (∀ f, f ∈ modules ++ others ↔ ∃ above name, IsScriptName name ∧
        fs.HoldsFile dir (above ++ [name]) ∧ f = dir.below (above ++ [name])) ∧
      (modules ++ others).Pairwise (fun p q => p.same q = false) ∧
      modules.Pairwise (fun p q => p.lt q = true) ∧ others.Pairwise (fun p q => p.lt q = true) ∧
      ∀ written, ∃ rest : List Path,
        rest.Sublist modules ∧ rest.Pairwise (fun p q => p.lt q = true) ∧
        Bundle.entryImports dir written modules =
          Bundle.ledImports dir written modules ++ rest.filterMap (Bundle.entryImport? dir) := by
  intro modules others
  have listed := pairwise_filesBelow sound found
  have ordered : modules.Pairwise fun p q => p.lt q = true := listed.filter _
  have ordered' : others.Pairwise fun p q => p.lt q = true := listed.filter _
  refine ⟨fun f => mem_found sound found, List.pairwise_append.mpr
    ⟨ordered.imp Path.not_same_of_lt, ordered'.imp Path.not_same_of_lt,
      fun p hp q hq => not_same_of_found hp hq⟩, ordered, ordered', fun written => ?_⟩
  obtain ⟨rest, below, imports⟩ := Bundle.exists_appended dir written modules
  exact ⟨rest, below, ordered.sublist below, imports⟩

/-- A directory comes before the file that has its name with an extension. -/
theorem searches_partition_scripts_of_nested_names :
    let card := "card_0123456789abcdef0123456789abcdef01234567.js"
    let file : Entry := .file [] false
    let fs : System := ⟨.directory [("p", .directory
      [(".js", file), ("a", .directory [(card, file), ("x.ts", file)]), ("a.js", file),
        ("b.css", file), (card, file)])], []⟩
    let modules := componentModules fs ⟨"/p"⟩
    let others := scripts fs ⟨"/p"⟩
    modules.map (·.text) = ["/p/a/" ++ card, "/p/" ++ card] ∧
      others.map (·.text) = ["/p/a/x.ts", "/p/a.js"] ∧
      (modules ++ others).Pairwise (fun p q => p.same q = false) ∧
      others.Pairwise (fun p q => p.lt q = true) := by
  intro card file fs modules others
  have sound : fs.Sound := ⟨by decide +kernel, by decide +kernel⟩
  have there : (fs.entryAt true ⟨"/p"⟩).toOption.map (fun f => (f.1, f.2.isDirectory)) =
      some (["p"], true) := by decide +kernel
  obtain ⟨⟨place, e⟩, found, stands⟩ := exists_of_map_toOption there
  obtain ⟨rfl, directory⟩ := Prod.mk.inj stands
  have first : modules.map (·.text) = ["/p/a/" ++ card, "/p/" ++ card] := by decide +kernel
  have second : others.map (·.text) = ["/p/a/x.ts", "/p/a.js"] := by decide +kernel
  cases e with
  | directory entries =>
    obtain ⟨-, once, -, ordered, -⟩ := searches_partition_scripts sound found
    exact ⟨first, second, once, ordered⟩
  | file content executable => cases directory
  | link target => cases directory

end Discovery
end HybridTemplate
