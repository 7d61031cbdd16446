import HybridTemplate.Proofs.Bundle.Keeping
import HybridTemplate.Proofs.Component.Naming
import HybridTemplate.Proofs.Path.Relative

set_option autoImplicit false

/-! A wrapper stands in the scratch tree where its template stands in the project, and so do the
scripts that are copied. A relative path from the template to a script leads from the wrapper to
the copy then. -/
namespace HybridTemplate.Bundle

open Component (Dependency)
open Files
open Files.System (Closed Grows LinkFree Linkless Reaches)
open HybridTemplate.Path (Component IsPlain)
open Text (Bytes)
open Visit (outcome)

section

variable {fs : System} {s : Place} {names below : List String} {content : Bytes} {executable : Bool}

/-- A walk between two places below a directory: back up from the first, then down. -/
theorem reaches_between (sound : fs.Sound) (directory : fs.look (s ++ names) = some .directory)
    (here : fs.top.at? (s ++ below) = some (.file content executable)) (links : Nat) :
    Reaches fs true links s
      (names.map String.toList ++
        Path.between (names.map String.toList) (below.map String.toList))
      (.found (s ++ below) (.file content executable)) := by
  obtain ⟨common, up, down, rfl, rfl, way⟩ := Path.exists_between_names names below
  have named : ∀ n ∈ common ++ up, IsName n :=
    sound.names (Option.ne_none_iff_exists'.mpr ⟨_, directory⟩)
  have named' : ∀ n ∈ common ++ down, IsName n :=
    sound.names (Entry.look_ne_none here)
  rw [← List.append_assoc] at here
  have onward : Reaches fs true links (s ++ common) (down.map String.toList)
      (.found (s ++ common ++ down) (.file content executable)) :=
    System.reaches_names here rfl fun n hn => named' n (List.mem_append_right common hn)
  rw [way]
  refine System.reaches_into directory named ?_
  rw [← List.append_assoc, ← List.append_assoc]
  exact System.reaches_back onward

theorem between_ne_nil (directory : fs.look (s ++ names) = some .directory)
    (here : fs.top.at? (s ++ below) = some (.file content executable)) :
    Path.between (names.map String.toList) (below.map String.toList) ≠ [] := by
  obtain ⟨common, up, down, rfl, rfl, way⟩ := Path.exists_between_names names below
  rw [way]
  intro none
  obtain ⟨noUp, noDown⟩ := List.append_eq_nil_iff.mp none
  obtain rfl : up = [] := by simpa using noUp
  obtain rfl : down = [] := by simpa using noDown
  cases directory.symm.trans (Entry.look_eq_file.mpr here)

/-- From a directory below the scratch directory, the path of a file relative to the directory
that it is the counterpart of leads to the counterpart of the file. -/
theorem read_relativeTo {scratch home base g : Path} (tree : Linkless fs scratch s)
    {front : List (List Char)}
    (components : home.components = scratch.components ++ names.map Component.normal)
    (directory : fs.look (s ++ names) = some .directory)
    (here : fs.top.at? (s ++ below) = some (.file content executable))
    (base_steps : base.steps = front ++ names.map String.toList)
    (steps : g.steps = front ++ below.map String.toList) :
    fs.read (home.join (g.relativeTo base)) = .ok content := by
  have way : Path.between base.steps g.steps =
      Path.between (names.map String.toList) (below.map String.toList) := by
    rw [base_steps, steps, Path.between_append]
  have filled : Path.between base.steps g.steps ≠ [] := way ▸ between_ne_nil directory here
  have relative := Path.isAbsolute_relativeTo g base
  have home_filled : home.text ≠ "" := fun empty => by
    rw [Path.components_eq_nil.mpr empty] at components
    exact tree.filled (Path.components_eq_nil.mp (List.append_eq_nil_iff.mp components.symm).1)
  have joined : (home.join (g.relativeTo base)).components = scratch.components ++
      (names.map Component.normal ++ (Path.between base.steps g.steps).map Path.componentOf) := by
    rw [Path.components_join home_filled relative, components, Path.steps_relativeTo,
      List.append_assoc]
  have closed : Closed (home.join (g.relativeTo base)) := by
    refine Closed.join (fun t ht => ?_) relative home
    rw [Path.segments_relativeTo filled] at ht
    exact (Path.not_isVoid_of_mem_between (List.mem_of_getLast? ht)).1
  have moves : (names.map Component.normal ++
      (Path.between base.steps g.steps).map Path.componentOf).filterMap Component.step? =
        names.map String.toList ++ Path.between base.steps g.steps := by
    rw [List.filterMap_append, Path.filterMap_step?_normal, List.filterMap_map]
    simp
  obtain ⟨entries, found⟩ := tree.found
  obtain ⟨left, onward⟩ := System.locate_below found
  refine System.read_eq_ok.mpr ⟨s ++ below, executable, ?_⟩
  rw [System.entryAt_eq_ok, onward _ _ true joined closed
    (by rw [moves]; exact List.append_ne_nil_of_right_ne_nil _ filled), moves, way]
  exact (reaches_between tree.sound directory here left).walk_eq

end

section

variable {root scratch : Path} {start fs : System} {s : Place}

theorem exists_names_of_absolute {p : Path} (absolute : p.isAbsolute = true)
    (flat : Component.parent ∉ p.components) :
    ∃ names : List String, p.components = .root :: names.map Component.normal := by
  have top : Path.components ⟨"/"⟩ = [.root] := by decide
  have under : Path.components ⟨"/"⟩ <+: p.components := by
    obtain ⟨cs, whole⟩ := List.head?_eq_some_iff.mp ((Path.head?_components_eq_root p).mpr absolute)
    rw [top, whole]
    exact List.prefix_append [.root] cs
  obtain ⟨names, whole⟩ := Path.exists_names_behind (by decide) under flat
  exact ⟨names, by rw [whole, top, List.singleton_append]⟩

theorem Placed.place_eq (free : fs.LinkFree) {names : List String}
    (components : root.components = .root :: names.map Component.normal) {file relative : Path}
    {q place : Place} {content : Bytes} (h : Placed root fs file relative q place content) :
    place = names ++ q := by
  obtain ⟨name, init, whole, inside, rfl⟩ := h.behind
  obtain ⟨_, found⟩ := h.found
  have behind : within [] (relative.components ++ [.normal name]) = some (init ++ [name]) := by
    rw [within_append, inside]
    rfl
  have shifted := within_behind names behind
  rw [List.append_nil] at shifted
  rw [components, List.cons_append] at whole
  refine free.place_eq whole ?_ found
  rw [within_append, within_names, List.nil_append, Option.bind_some, shifted]

/-- The place in the scratch tree says which script it is, however the directories are named
behind the root. -/
theorem determined_of_linkFree (free : start.LinkFree) (absolute : root.isAbsolute = true)
    (flat : Component.parent ∉ root.components) :
    Determined (fun _ => True) root scratch s start := by
  obtain ⟨names, components⟩ := exists_names_of_absolute absolute flat
  intro fs tree unchanged file relative q place content file' relative' place' content' _ _ h h'
  have still : fs.LinkFree := by
    intro p target there
    by_cases inside : s <+: p
    · obtain ⟨r, rfl⟩ := inside
      exact tree.plain r target there
    · exact free p target ((unchanged p _ (by simp) inside).mp there)
  rw [h.place_eq still components, h'.place_eq still components]

end

/-- A template under its root in a project without links, with its wrapper in the scratch
tree. -/
structure HasWrapper (fs : System) (source : SourceFile) (scratch : Path) : Prop where
  sound : fs.Sound
  free : fs.LinkFree
  absolute : source.root.isAbsolute = true
  under : source.root.components <+: source.dir.components
  flat : Component.parent ∉ source.dir.components
  directory : fs.isDirectory source.dir = true
  prepared : fs.isDirectory scratch = true
  wrapper : ∃ name content, Component.isModuleName name = true ∧
    fs.read ((scratch.join source.relativeDir).join ⟨name⟩) = .ok content

/-- A regular file below the directory of a dependency that is a script. -/
structure Offers (fs : System) (d : Dependency) (g : Path) (content : Bytes) : Prop where
  directory : fs.isDirectory d.dir = true
  below : ∃ names, names ≠ [] ∧ (∀ n ∈ names, IsPlain n) ∧ g = d.dir.below names
  read : fs.read g = .ok content
  script : Discovery.isScript g = true

section

variable {fs : System} {source : SourceFile} {scratch g : Path} {d : Dependency} {s : Place}
  {names : List String} {content : Bytes}

theorem HasWrapper.exists_names (h : HasWrapper fs source scratch) :
    ∃ names : List String,
      source.dir.components = source.root.components ++ names.map Component.normal :=
  Path.exists_names_behind h.absolute h.under h.flat

theorem HasWrapper.root_flat (h : HasWrapper fs source scratch) :
    Component.parent ∉ source.root.components := fun up => h.flat (h.under.subset up)

theorem HasWrapper.linkless (h : HasWrapper fs source scratch) :
    ∃ s, Linkless fs scratch s := by
  obtain ⟨s, entries, found⟩ := directory_of_isDirectory h.prepared
  exact ⟨s, h.sound, ⟨entries, found⟩, fun q => h.free (s ++ q)⟩

theorem HasWrapper.home (h : HasWrapper fs source scratch) (tree : Linkless fs scratch s)
    (components : source.dir.components = source.root.components ++ names.map Component.normal) :
    (scratch.join source.relativeDir).components =
        scratch.components ++ names.map Component.normal ∧
      fs.look (s ++ names) = some .directory := by
  have joined : (scratch.join source.relativeDir).components =
      scratch.components ++ names.map Component.normal :=
    Path.components_join_names (SourceFile.components_relativeDir components)
  refine ⟨joined, ?_⟩
  obtain ⟨name, code, module, read⟩ := h.wrapper
  have plain := Component.isPlain_of_isModuleName module
  obtain ⟨place, executable, found⟩ := System.read_eq_ok.mp read
  have whole : ((scratch.join source.relativeDir).join ⟨name⟩).components =
      scratch.components ++ (names.map Component.normal ++ [.normal name]) := by
    rw [plain.components_join, joined, List.append_assoc]
  have here : place = s ++ (names ++ [name]) :=
    tree.place_eq whole (System.closed_join _ plain) (within_names [] names)
      (System.entryAt_eq_ok.mp found)
  have seen : fs.look ((s ++ names) ++ [name]) ≠ none := by
    rw [List.append_assoc, ← here]
    exact Entry.look_ne_none (System.at?_of_entryAt h.sound found)
  exact Entry.look_below seen (List.cons_ne_nil name [])

theorem Offers.exists_place (h : Offers fs d g content) (sound : fs.Sound) (free : fs.LinkFree) :
    ∃ t inner names executable, fs.entryAt true d.dir = .ok (t, .directory inner) ∧
      names ≠ [] ∧ (∀ n ∈ names, IsPlain n) ∧ g = d.dir.below names ∧
      fs.entryAt true g = .ok (t ++ names, .file content executable) := by
  obtain ⟨t, inner, dir_found⟩ := directory_of_isDirectory h.directory
  obtain ⟨names, filled, plain, rfl⟩ := h.below
  obtain ⟨place, executable, found⟩ := System.read_eq_ok.mp h.read
  have tree : Linkless fs d.dir t := ⟨sound, ⟨inner, dir_found⟩, fun q => free (t ++ q)⟩
  obtain ⟨init, last, rfl⟩ := (List.eq_nil_or_concat names).resolve_left filled
  rw [List.concat_eq_append] at *
  have here : place = t ++ (init ++ [last]) := by
    refine tree.place_eq ?_ (System.closed_below d.dir filled plain) (within_names [] init)
      (System.entryAt_eq_ok.mp found)
    rw [Path.components_below d.dir plain, List.map_append]
    rfl
  exact ⟨t, inner, init ++ [last], executable, dir_found, filled, plain, rfl, here ▸ found⟩

/-- A script below the root is named behind it: it does not stand where a directory does. -/
theorem HasWrapper.exists_behind (h : HasWrapper fs source scratch)
    (under : source.root.components <+: g.components) (flat : Component.parent ∉ g.components)
    {place : Place} {executable : Bool}
    (found : fs.entryAt true g = .ok (place, .file content executable)) :
    ∃ init name,
      g.components = source.root.components ++ (init ++ [name]).map Component.normal := by
  obtain ⟨below, components⟩ := Path.exists_names_behind h.absolute under flat
  rcases List.eq_nil_or_concat below with rfl | ⟨init, name, rfl⟩
  · obtain ⟨names, dir⟩ := h.exists_names
    obtain ⟨top, root⟩ := exists_names_of_absolute h.absolute h.root_flat
    obtain ⟨t, entries, dir_found⟩ := directory_of_isDirectory h.directory
    rw [List.map_nil, List.append_nil, root] at components
    rw [root, List.cons_append, ← List.map_append] at dir
    have here : place = top := h.free.place_eq components (within_names [] top) found
    have there : t = top ++ names := h.free.place_eq dir (within_names [] (top ++ names)) dir_found
    have file : fs.look top = some (.file content executable) :=
      Entry.look_eq_file.mpr (here ▸ System.at?_of_entryAt h.sound found)
    have directory : fs.look (top ++ names) = some .directory :=
      Entry.look_eq_directory.mpr ⟨entries, there ▸ System.at?_of_entryAt h.sound dir_found⟩
    exfalso
    by_cases same : names = []
    · rw [same, List.append_nil] at directory
      cases directory.symm.trans file
    · have above : fs.look top = some .directory :=
        Entry.look_below (Option.ne_none_iff_exists'.mpr ⟨_, directory⟩) same
      cases above.symm.trans file
  · exact ⟨init, name, by rw [components, List.concat_eq_append]⟩

end

theorem Kept.exists_copy {P : Path → Prop} {root scratch file relative : Path} {s place : Place}
    {start fs : System} {copied : Copied} {init : List String} {name : String} {content : Bytes}
    {executable : Bool} (kept : Kept P root scratch s start copied fs) (grows : Grows start fs)
    (sound : start.Sound) (has : copied.has file relative = true)
    (components : file.components = root.components ++ (init ++ [name]).map Component.normal)
    (relatively : relative.components = init.map Component.normal) (closed : Closed file)
    (found : start.entryAt true file = .ok (place, .file content executable)) :
    fs.entryAt true file = .ok (place, .file content executable) ∧
      ∃ x, fs.look (s ++ (init ++ [name])) = some (.file content x) := by
  obtain ⟨c, hc, same⟩ := List.any_eq_true.mp has
  rw [Bool.and_eq_true, Path.same_iff, Path.same_iff] at same
  obtain ⟨-, q, origin, content', copy, apart, there⟩ := kept.held c hc
  obtain ⟨last, front, whole, inside, rfl⟩ := copy.behind
  rw [same.2, relatively, within_names, List.nil_append] at inside
  cases inside
  obtain rfl : name = last := by
    rw [same.1, components, same.2, relatively, List.map_append] at whole
    simpa using List.append_cancel_left whole
  obtain ⟨_, copy_found⟩ := copy.found
  rw [System.entryAt_of_components same.1 copy.closed closed] at copy_found
  obtain ⟨_, _, later_found⟩ := grows.fileAt found
  cases copy_found.symm.trans later_found
  have unchanged := kept.unchanged.read sound kept.tree.sound grows apart found
  cases copy_found.symm.trans unchanged
  exact ⟨unchanged, there⟩

/-- Relative imports survive the copying: in a project without links, the path of a script
relative to a template leads from the template's wrapper to the bytes of the script, where the
dependencies have the template's root and do not climb out of it. -/
theorem copyDependencies_preserves_imports {source : SourceFile} {scratch g : Path}
    {ds : List Dependency} {d : Dependency} {w w' : Workspace} {n : Nat} {content : Bytes}
    (wrapped : HasWrapper w.files source scratch)
    (roots : ∀ e ∈ ds, e.root.components = source.root.components)
    (stays : ∀ e ∈ ds, Stays e) (mem : d ∈ ds)
    (dir : d.dir.components = source.dir.components ∨
      d.dir.components = source.dir.components.dropLast)
    (offers : Offers w.files d g content)
    (under : source.root.components <+: g.components)
    (outside : isInside w.files g scratch = false)
    (notEntry : ∀ relative target, placement? scratch d.root g = some (relative, target) →
      target.same (scratch.join ⟨entryFile⟩) = false)
    (h : outcome (copyDependencies ds scratch) w = (.ok n, w')) :
    w'.files.read g = .ok content ∧
      w'.files.read ((scratch.join source.relativeDir).join (g.relativeTo source.dir)) =
        .ok content := by
  obtain ⟨s, tree⟩ := wrapped.linkless
  obtain ⟨_, scratch_found⟩ := tree.found
  obtain ⟨t, inner, below, executable, dir_found, filled, plain, rfl, found⟩ :=
    offers.exists_place wrapped.sound wrapped.free
  have whole := Path.components_below d.dir plain
  have flat : Component.parent ∉ (d.dir.below below).components := by
    rw [whole, List.mem_append, not_or]
    refine ⟨fun up => wrapped.flat ?_, by simp⟩
    rcases dir with same | above
    · exact same ▸ up
    · exact List.dropLast_subset _ (above ▸ up)
  obtain ⟨init, name, behind⟩ := wrapped.exists_behind under flat found
  obtain ⟨names, dir_components⟩ := wrapped.exists_names
  obtain ⟨home, directory⟩ := wrapped.home tree dir_components
  obtain ⟨copied, rfl, run⟩ := copyDependencies_eq_ok h
  have behind' : (d.dir.below below).components =
      d.root.components ++ (init.map Component.normal ++ [.normal name]) := by
    rw [behind, roots d mem, List.map_append]
    rfl
  obtain ⟨relative, relative_components, placed⟩ := exists_placement scratch behind'
  have has := has_of_run wrapped.sound scratch_found (List.mem_mergeSort.mpr mem) dir_found filled
    (System.at?_of_entryAt wrapped.sound found) offers.script outside placed
    (notEntry _ _ placed) run
  obtain ⟨kept, grows⟩ := kept_of_run tree
    (determined_of_linkFree wrapped.free wrapped.absolute wrapped.root_flat)
    (fun e he => roots e (List.mem_mergeSort.mp he))
    (fun e he => stays e (List.mem_mergeSort.mp he)) (fun _ _ _ _ _ _ _ => trivial) run
  obtain ⟨found', x, there⟩ := kept.exists_copy grows wrapped.sound has behind relative_components
    (System.closed_below d.dir filled plain) found
  exact ⟨System.read_eq_ok.mpr ⟨_, _, found'⟩,
    read_relativeTo kept.tree home (grows.directory directory) (Entry.look_eq_file.mp there)
      (Path.steps_behind dir_components) (Path.steps_behind behind)⟩

/-- A script beside the template's directory, which the template imports by two dots. -/
theorem copyDependencies_preserves_imports_of_parent :
    let fs : System := ⟨.directory [
      ("p", .directory [("app", .directory [("card.weft", .file [99] false)]),
        ("lib", .directory [("util.js", .file [117] false)])]),
      ("s", .directory [("app", .directory [
        ("card_0123456789abcdef0123456789abcdef01234567.js", .file [119] false)])])], []⟩
    let source : SourceFile := ⟨⟨"/p/app/card.weft"⟩, ⟨"/p"⟩⟩
    let way : Path := Path.relativeTo ⟨"/p/lib/util.js"⟩ source.dir
    way.text = "../lib/util.js" ∧
      ∃ w', outcome (copyDependencies [⟨⟨"/p"⟩, ⟨"/p"⟩⟩] ⟨"/s"⟩) ⟨fs, [], []⟩ = (.ok 1, w') ∧
        w'.files.read ((Path.join ⟨"/s"⟩ source.relativeDir).join way) = .ok [117] := by
  intro fs source way
  have one : (outcome (copyDependencies [⟨⟨"/p"⟩, ⟨"/p"⟩⟩] ⟨"/s"⟩) ⟨fs, [], []⟩).1 = .ok 1 := by
    decide +kernel
  refine ⟨by decide +kernel, _, Prod.ext one rfl, ?_⟩
  have wrapped : HasWrapper fs source ⟨"/s"⟩ :=
    ⟨⟨by decide +kernel, by decide +kernel⟩, fun p => Entry.look_ne_link (by decide +kernel) p,
      by decide +kernel, by decide +kernel, by decide +kernel, by decide +kernel, by decide +kernel,
      "card_0123456789abcdef0123456789abcdef01234567.js", [119], by decide +kernel,
      by decide +kernel⟩
  have offers : Offers fs ⟨⟨"/p"⟩, ⟨"/p"⟩⟩ ⟨"/p/lib/util.js"⟩ [117] :=
    ⟨by decide +kernel, ⟨["lib", "util.js"], by decide, by decide +kernel, by rfl⟩,
      by decide +kernel, by decide +kernel⟩
  have stays : Stays ⟨⟨"/p"⟩, ⟨"/p"⟩⟩ := (descends_of_components [] (by decide +kernel)).stays
  refine (copyDependencies_preserves_imports (w := ⟨fs, [], []⟩) (d := ⟨⟨"/p"⟩, ⟨"/p"⟩⟩) wrapped
    (by simp [source]) (by simpa using stays) List.mem_cons_self (.inr (by decide +kernel)) offers
    (by decide +kernel) (by decide +kernel) ?_ (Prod.ext one rfl)).2
  intro relative target placed
  have place : placement? ⟨"/s"⟩ ⟨"/p"⟩ ⟨"/p/lib/util.js"⟩ =
      some (⟨"lib"⟩, ⟨"/s/lib/util.js"⟩) := by rfl
  cases place.symm.trans placed
  decide +kernel

/-- A dependency that climbs out of the root can put another script in the place of the one
that is imported. -/
theorem climbing_dependency_replaces_import :
    let fs : System := ⟨.directory [
      ("p", .directory [("card.weft", .file [99] false), ("f.js", .file [114] false)]),
      ("q", .directory [("s", .directory [
        ("card_0123456789abcdef0123456789abcdef01234567.js", .file [119] false)])]),
      ("s", .directory [("f.js", .file [120] false)])], []⟩
    let source : SourceFile := ⟨⟨"/p/card.weft"⟩, ⟨"/p"⟩⟩
    let scratch : Path := ⟨"/q/s"⟩
    let d : Dependency := ⟨⟨"/p"⟩, ⟨"/p"⟩⟩
    let ds : List Dependency := [d, ⟨⟨"/p/../s"⟩, ⟨"/p"⟩⟩]
    let ran := outcome (copyDependencies ds scratch) ⟨fs, [], []⟩
    HasWrapper fs source scratch ∧ (∀ e ∈ ds, e.root.components = source.root.components) ∧
      d.dir.components = source.dir.components ∧ Offers fs d ⟨"/p/f.js"⟩ [114] ∧
      source.root.components <+: Path.components ⟨"/p/f.js"⟩ ∧
      isInside fs ⟨"/p/f.js"⟩ scratch = false ∧
      placement? scratch d.root ⟨"/p/f.js"⟩ = some (⟨""⟩, ⟨"/q/s/f.js"⟩) ∧
      Path.same ⟨"/q/s/f.js"⟩ (scratch.join ⟨entryFile⟩) = false ∧ ran.1 = .ok 2 ∧
      ran.2.files.read ((scratch.join source.relativeDir).join
        (Path.relativeTo ⟨"/p/f.js"⟩ source.dir)) = .ok [120] := by
  intro fs source scratch d ds ran
  have sorted : List.mergeSort [(⟨⟨"/p"⟩, ⟨"/p"⟩⟩ : Dependency), ⟨⟨"/p/../s"⟩, ⟨"/p"⟩⟩]
      dependencyLe = [⟨⟨"/p"⟩, ⟨"/p"⟩⟩, ⟨⟨"/p/../s"⟩, ⟨"/p"⟩⟩] :=
    List.mergeSort_of_pairwise (by decide +kernel)
  have wrapped : HasWrapper fs source scratch :=
    ⟨⟨by decide +kernel, by decide +kernel⟩, fun p => Entry.look_ne_link (by decide +kernel) p,
      by decide +kernel, by decide +kernel, by decide +kernel, by decide +kernel, by decide +kernel,
      "card_0123456789abcdef0123456789abcdef01234567.js", [119], by decide +kernel,
      by decide +kernel⟩
  have below : (⟨"/p/f.js"⟩ : Path) = Path.below ⟨"/p"⟩ ["f.js"] := by rfl
  have place : placement? ⟨"/q/s"⟩ ⟨"/p"⟩ ⟨"/p/f.js"⟩ = some (⟨""⟩, ⟨"/q/s/f.js"⟩) := by rfl
  have offers : Offers fs d ⟨"/p/f.js"⟩ [114] :=
    ⟨by decide +kernel, ⟨["f.js"], by decide, by decide +kernel, below⟩,
      by decide +kernel, by decide +kernel⟩
  refine ⟨wrapped, by simp [ds, d, source], by decide +kernel, offers, by decide +kernel,
    by decide +kernel, place, by decide +kernel, ?_⟩
  simp only [ran, ds, d, copyDependencies, sorted]
  decide +kernel

end HybridTemplate.Bundle
