import HybridTemplate.Proofs.Bundle.Relocation
import HybridTemplate.Proofs.Files.Above
import HybridTemplate.Proofs.Files.Containing

set_option autoImplicit false

namespace HybridTemplate.Bundle

open Component (Dependency)
open Files
open Files.System (Closed Contained Grows Linkless Reaches)
open HybridTemplate.Path (Component IsPlain)
open Text (Bytes)
open Visit (outcome)

/-- An import goes from a directory down to the place `base ++ below`: behind one dot from the
directory itself, behind two from the one above it. -/
inductive Leads (spec : Path) : (names base below : List String) → Prop
  | here {names below : List String} {rest : List Char}
    (text : spec.text.toList = '.' :: '/' :: rest) (steps : spec.steps = below.map String.toList) :
    Leads spec names names below
  | above {base below : List String} {last : String} {rest : List Char}
    (text : spec.text.toList = '.' :: '.' :: '/' :: rest)
    (steps : spec.steps = ['.', '.'] :: below.map String.toList) :
    Leads spec (base ++ [last]) base below

/-- An import that is carried over: it leads from the directory of the source to a script that is
below the root, but not in the scratch tree, nor where the entry goes. -/
structure Carries (fs : System) (source : SourceFile) (scratch spec : Path) (content : Bytes) :
    Prop where
  leads : ∃ names base below : List String,
    source.dir.components = source.root.components ++ names.map Component.normal ∧
      Leads spec names base below ∧ below ≠ [] ∧ (∀ n ∈ below, IsPlain n) ∧
      base ++ below ≠ [entryFile]
  read : fs.read (source.dir.join spec) = .ok content
  script : Discovery.isScript spec = true
  outside : isInside fs (source.dir.join spec) scratch = false

section

variable {fs : System} {source : SourceFile} {scratch spec home : Path} {content : Bytes}
  {s p top : Place} {names base below : List String} {executable : Bool}

theorem componentOf_names (plain : ∀ n ∈ below, IsPlain n) :
    (below.map String.toList).map Path.componentOf = below.map Component.normal := by
  rw [List.map_map]
  exact List.map_congr_left fun n hn => (plain n hn).componentOf_eq

theorem Leads.isAbsolute_eq (h : Leads spec names base below) : spec.isAbsolute = false := by
  cases h with
  | here text _ => simp [Path.isAbsolute, text]
  | above text _ => simp [Path.isAbsolute, text]

theorem Leads.steps_ne_nil (h : Leads spec names base below) (filled : below ≠ []) :
    spec.steps ≠ [] := by
  cases h with
  | here _ steps => rw [steps]; simpa using filled
  | above _ steps => rw [steps]; exact List.cons_ne_nil _ _

theorem Leads.within_eq (h : Leads spec names base below) (plain : ∀ n ∈ below, IsPlain n) :
    within [] (names.map Component.normal ++ spec.steps.map Path.componentOf) =
      some (base ++ below) := by
  rw [within_append, within_names, List.nil_append, Option.bind_some]
  cases h with
  | here _ steps => rw [steps, componentOf_names plain, within_names]
  | @above base _ last _ _ steps =>
    rw [steps, List.map_cons, componentOf_names plain, Path.componentOf, if_pos rfl, within,
      if_neg (by simp), List.dropLast_concat, within_names]

theorem Leads.reaches (h : Leads spec names base below) (sound : fs.Sound)
    (here : fs.top.at? (p ++ (base ++ below)) = some (.file content executable)) (links : Nat) :
    Reaches fs true links (p ++ names) spec.steps
      (.found (p ++ (base ++ below)) (.file content executable)) := by
  rw [← List.append_assoc] at here ⊢
  have down : Reaches fs true links (p ++ base) (below.map String.toList)
      (.found (p ++ base ++ below) (.file content executable)) :=
    System.reaches_names here rfl (sound.names (Entry.look_ne_none here))
  cases h with
  | here _ steps => rwa [steps]
  | above _ steps =>
    rw [steps]
    refine .up ?_
    rwa [← List.append_assoc, List.dropLast_concat]

/-- From a directory below the scratch directory an import leads to what stands there. -/
theorem read_of_leads (tree : Linkless fs scratch s)
    (components : home.components = scratch.components ++ names.map Component.normal)
    (directory : fs.look (s ++ names) = some .directory)
    (here : fs.look (s ++ (base ++ below)) = some (.file content executable))
    (leads : Leads spec names base below) (filled : below ≠ []) (closed : Closed spec) :
    fs.read (home.join spec) = .ok content := by
  have relative := leads.isAbsolute_eq
  have home_filled : home.text ≠ "" := fun empty => by
    rw [Path.components_eq_nil.mpr empty] at components
    exact tree.filled (Path.components_eq_nil.mp (List.append_eq_nil_iff.mp components.symm).1)
  have joined : (home.join spec).components =
      scratch.components ++ (names.map Component.normal ++ spec.steps.map Path.componentOf) := by
    rw [Path.components_join home_filled relative, components, List.append_assoc]
  have moves : (names.map Component.normal ++ spec.steps.map Path.componentOf).filterMap
      Component.step? = names.map String.toList ++ spec.steps := by
    rw [List.filterMap_append, Path.filterMap_step?_normal, List.filterMap_map]
    simp
  obtain ⟨_, found⟩ := tree.found
  obtain ⟨left, onward⟩ := System.locate_below found
  have some : names.map String.toList ++ spec.steps ≠ [] :=
    List.append_ne_nil_of_right_ne_nil _ (leads.steps_ne_nil filled)
  refine System.read_eq_ok.mpr ⟨s ++ (base ++ below), executable, ?_⟩
  rw [System.entryAt_eq_ok, onward _ _ true joined (closed.join relative home) (moves ▸ some),
    moves]
  have named : ∀ n ∈ names, IsName n :=
    tree.sound.names (Option.ne_none_iff_exists'.mpr ⟨_, directory⟩)
  exact (System.reaches_into directory named
    (leads.reaches tree.sound (Entry.look_eq_file.mp here) left)).walk_eq

theorem directoryAt_of_names (sound : fs.Sound) {dir : Path}
    (components : dir.components = .root :: names.map Component.normal)
    (here : fs.look names = some .directory) :
    ∃ inner, fs.entryAt true dir = .ok (names, .directory inner) := by
  obtain ⟨inner, there⟩ := Entry.look_eq_directory.mp here
  have absolute : dir.isAbsolute = true :=
    (Path.head?_components_eq_root dir).mp (by rw [components]; rfl)
  have filled : dir.text ≠ "" := fun empty => by
    rw [Path.components_eq_nil.mpr empty] at components
    cases components
  have steps : dir.steps = names.map String.toList := by
    rw [Path.steps_eq_filterMap, components]
    exact Path.filterMap_step?_normal names
  refine ⟨inner, System.entryAt_eq_directory.mpr ⟨filled, ?_⟩⟩
  rw [System.start, if_pos absolute, steps]
  have below : fs.top.at? ([] ++ names) = some (.directory inner) := there
  exact System.reaches_names below rfl (sound.names (Entry.look_ne_none below))

/-- Without links a file that is not below the place of the scratch directory is outside it. -/
theorem isInside_of_not_prefix (free : fs.LinkFree) (tree : Linkless fs scratch s) {g : Path}
    {q : Place} {e : Entry} (components : g.components = .root :: q.map Component.normal)
    (found : fs.entryAt true g = .ok (q, e)) (apart : ¬ s <+: q) :
    isInside fs g scratch = false := by
  obtain ⟨_, scratch_found⟩ := tree.found
  rw [← Bool.not_eq_true, isInside_iff tree.sound found scratch_found]
  rintro (written | inside)
  · obtain ⟨rest, whole⟩ := Path.startsWith_iff.mp written
    rw [components] at whole
    rcases start : scratch.components with _ | ⟨c, cs⟩
    · exact tree.filled (Path.components_eq_nil.mp start)
    · rw [start, List.cons_append, List.cons.injEq] at whole
      obtain ⟨rfl, behind⟩ := whole
      obtain ⟨front, tail, rfl, rfl, -⟩ := List.map_eq_append_iff.mp behind.symm
      have place : s = front := free.place_eq start (within_names [] front) scratch_found
      exact apart (place ▸ List.prefix_append front tail)
  · exact apart inside

theorem Carries.look_eq (h : Carries fs source scratch spec content) (sound : fs.Sound)
    (free : fs.LinkFree) (root : source.root.components = .root :: top.map Component.normal)
    (dir : source.dir.components = source.root.components ++ names.map Component.normal)
    (leads : Leads spec names base below) (plain : ∀ n ∈ below, IsPlain n) :
    Closed spec ∧
      ∃ executable, fs.look (top ++ (base ++ below)) = some (.file content executable) ∧
        fs.entryAt true (source.dir.join spec) =
          .ok (top ++ (base ++ below), .file content executable) := by
  obtain ⟨place, executable, found⟩ := System.read_eq_ok.mp h.read
  have filled : source.dir.text ≠ "" := fun empty => by
    rw [Path.components_eq_nil.mpr empty, root] at dir
    cases dir
  have relative := leads.isAbsolute_eq
  have joined : (source.dir.join spec).components =
      .root :: (top.map Component.normal ++
        (names.map Component.normal ++ spec.steps.map Path.componentOf)) := by
    rw [Path.components_join filled relative, dir, root, List.append_assoc, List.cons_append]
  have inside : within [] (top.map Component.normal ++
      (names.map Component.normal ++ spec.steps.map Path.componentOf)) =
        some (top ++ (base ++ below)) := by
    have behind := within_behind top (leads.within_eq plain)
    rw [List.append_nil] at behind
    rw [within_append, within_names, List.nil_append, Option.bind_some, behind]
  obtain rfl := free.place_eq joined inside found
  have closed := (System.closed_of_file sound found rfl).of_join filled relative
  exact ⟨closed, executable, Entry.look_eq_file.mpr (System.at?_of_entryAt sound found), found⟩

theorem Leads.fileName?_eq (h : Leads spec names base below) (filled : below ≠ [])
    (plain : ∀ n ∈ below, IsPlain n) : spec.fileName? = below.getLast? := by
  obtain ⟨front, name, rfl⟩ := (List.eq_nil_or_concat below).resolve_left filled
  rw [List.concat_eq_append] at h plain ⊢
  have ends : ∃ cs, spec.components = cs ++ [.normal name] := by
    have last : spec.steps = spec.steps.dropLast ++ [name.toList] := by
      cases h with
      | here _ steps => rw [steps, List.map_append, List.map_singleton, List.dropLast_concat]
      | above _ steps =>
        rw [steps, List.map_append, List.map_singleton, ← List.cons_append, List.dropLast_concat]
    refine ⟨spec.leading ++ spec.steps.dropLast.map Path.componentOf, ?_⟩
    rw [Path.components_eq, last, List.map_append, List.dropLast_concat, ← List.append_assoc,
      List.map_singleton, (plain name (List.mem_append_right _ List.mem_cons_self)).componentOf_eq]
  obtain ⟨cs, components⟩ := ends
  rw [Path.fileName?_of_components components, List.getLast?_concat]

end

theorem isScript_congr {p q : Path} (same : p.fileName? = q.fileName?) :
    Discovery.isScript p = Discovery.isScript q := by
  rw [Discovery.isScript, Discovery.isScript, Path.extension?, Path.extension?,
    Component.isModulePath, Component.isModulePath, same]

/-- A file below a directory that is given by names is found by its path. -/
theorem found_of_look {fs : System} {dir : Path} {place below : List String} {content : Bytes}
    {executable : Bool} (sound : fs.Sound)
    (components : dir.components = .root :: place.map Component.normal) (filled : below ≠ [])
    (here : fs.look (place ++ below) = some (.file content executable)) :
    (∀ n ∈ below, IsPlain n) ∧
      (∃ inner, fs.entryAt true dir = .ok (place, .directory inner)) ∧
      fs.entryAt true (dir.below below) = .ok (place ++ below, .file content executable) := by
  have there := Entry.look_eq_file.mp here
  have plain := sound.isPlain there
  obtain ⟨inner, found⟩ := directoryAt_of_names sound components
    (Entry.look_below (Entry.look_ne_none there) filled)
  exact ⟨plain, ⟨inner, found⟩, System.entryAt_below sound found there rfl filled
    (Path.components_below dir plain) (System.closed_below dir filled plain) true⟩

theorem target_ne_entry (scratch : Path) {relative : Path} {init : List String} {name : String}
    (plain : IsPlain name) (components : relative.components = init.map Component.normal)
    (other : init ++ [name] ≠ [entryFile]) :
    ((scratch.join relative).join ⟨name⟩).same (scratch.join ⟨entryFile⟩) = false := by
  rw [← Bool.not_eq_true, Path.same_iff, plain.components_join,
    Path.components_join_names components,
    (show IsPlain entryFile by decide).components_join, List.append_assoc]
  intro same
  have names : (init ++ [name]).map Component.normal = [entryFile].map Component.normal := by
    rw [List.map_append]
    exact List.append_cancel_left same
  exact other (List.map_injective_iff.mpr (fun _ _ => Component.normal.inj) names)

/-- A script that is listed for one of the dependencies is at its place behind the root in the
scratch tree when they have been copied. -/
theorem look_of_copied {root scratch : Path} {s top : Place} {base below : List String}
    {ds : List Dependency} {d : Dependency} {w w' : Workspace} {copied : Copied} {content : Bytes}
    {executable : Bool} (tree : Linkless w.files scratch s) (free : w.files.LinkFree)
    (absolute : root.components = .root :: top.map Component.normal)
    (roots : ∀ e ∈ ds, e.root.components = root.components) (stays : ∀ e ∈ ds, Stays e)
    (mem : d ∈ ds) (dir : d.dir.components = root.components ++ base.map Component.normal)
    (filled : below ≠ [])
    (here : w.files.look (top ++ (base ++ below)) = some (.file content executable))
    (script : ∀ file : Path, file.fileName? = below.getLast? → Discovery.isScript file = true)
    (apart : ¬ s <+: top ++ (base ++ below)) (notEntry : base ++ below ≠ [entryFile])
    (run : outcome (ds.foldlM (copyDependency scratch) []) w = (.ok copied, w')) :
    Linkless w'.files scratch s ∧ Grows w.files w'.files ∧
      ∃ x, w'.files.look (s ++ (base ++ below)) = some (.file content x) := by
  have sound := tree.sound
  obtain ⟨_, scratch_found⟩ := tree.found
  rw [← List.append_assoc] at here
  obtain ⟨plain, ⟨inner, dir_found⟩, found⟩ := found_of_look sound
    (by rw [dir, absolute, List.cons_append, List.map_append]) filled here
  have there := Entry.look_eq_file.mp here
  have whole := Path.components_below d.dir plain
  rw [dir, absolute, List.append_assoc, List.cons_append, ← List.map_append, ← List.map_append]
    at whole
  rw [List.append_assoc] at found
  have outside := isInside_of_not_prefix free tree whole found apart
  obtain ⟨init, name, last⟩ := (List.eq_nil_or_concat (base ++ below)).resolve_left
    (List.append_ne_nil_of_right_ne_nil base filled)
  rw [List.concat_eq_append] at last
  rw [last] at notEntry found whole ⊢
  have behind : (d.dir.below below).components =
      d.root.components ++ (init.map Component.normal ++ [.normal name]) := by
    rw [whole, roots d mem, absolute, List.cons_append, List.map_append, List.map_append]
    rfl
  obtain ⟨relative, relatively, placed⟩ := exists_placement scratch behind
  have plain_name : IsPlain name :=
    Path.isPlain_of_mem_components (p := d.dir.below below)
      (behind ▸ List.mem_append_right _ (List.mem_append_right _ List.mem_cons_self))
  have target := target_ne_entry scratch plain_name relatively notEntry
  have named : (d.dir.below below).fileName? = below.getLast? := by
    obtain ⟨front, n, rfl⟩ := (List.eq_nil_or_concat below).resolve_left filled
    rw [List.concat_eq_append] at plain ⊢
    rw [Path.fileName?_below d.dir plain, List.getLast?_concat]
  have has := has_of_run sound scratch_found mem dir_found filled there (script _ named) outside
    placed target run
  obtain ⟨kept, grows⟩ := kept_of_run tree
    (determined_of_linkFree free
      ((Path.head?_components_eq_root root).mp (by rw [absolute]; rfl)) (by rw [absolute]; simp))
    roots stays (fun _ _ _ _ _ _ _ => trivial) run
  obtain ⟨-, copy⟩ := kept.exists_copy grows sound has
    (by rw [behind, roots d mem, List.map_append]; rfl) relatively
    (System.closed_below d.dir filled plain) found
  exact ⟨kept.tree, grows, copy⟩

/-- Whether the directory that an import needs is among those of some dependencies. -/
structure Registered (ds : List Dependency) (source : SourceFile) (spec : Path) : Prop where
  here : ∀ rest, spec.text.toList = '.' :: '/' :: rest →
    ∃ d ∈ ds, d.dir.components = source.dir.components
  above : ∀ rest, spec.text.toList = '.' :: '.' :: '/' :: rest → ∀ cs name,
    source.dir.components = cs ++ [.normal name] → ∃ d ∈ ds, d.dir.components = cs

theorem Registered.exists_mem {ds : List Dependency} {source : SourceFile} {spec : Path}
    {names base below : List String} (h : Registered ds source spec)
    (leads : Leads spec names base below)
    (dir : source.dir.components = source.root.components ++ names.map Component.normal) :
    ∃ d ∈ ds, d.dir.components = source.root.components ++ base.map Component.normal := by
  cases leads with
  | here text _ =>
    obtain ⟨d, mem, same⟩ := h.here _ text
    exact ⟨d, mem, same.trans dir⟩
  | above text _ =>
    rw [List.map_append, ← List.append_assoc] at dir
    exact h.above _ text _ _ dir

/-- An import that is carried over leads from the template's counterpart in the scratch tree to
the bytes that it led to in the project before the scratch tree was filled. -/
theorem Carries.read_copied {source : SourceFile} {scratch spec : Path} {start : System}
    {s top : Place} {names : List String} {ds : List Dependency} {w w' : Workspace} {n : Nat}
    {content : Bytes} (h : Carries start source scratch spec content) (free : start.LinkFree)
    (before : Linkless start scratch s) (tree : Linkless w.files scratch s)
    (contained : Contained s start w.files)
    (root : source.root.components = .root :: top.map Component.normal)
    (dir : source.dir.components = source.root.components ++ names.map Component.normal)
    (wrapped : w.files.look (s ++ names) = some .directory)
    (roots : ∀ e ∈ ds, e.root.components = source.root.components) (stays : ∀ e ∈ ds, Stays e)
    (registered : Registered ds source spec)
    (ran : outcome (copyDependencies ds scratch) w = (.ok n, w')) :
    w'.files.read ((scratch.join source.relativeDir).join spec) = .ok content := by
  obtain ⟨names', base, below, dir', leads, filled, plain, notEntry⟩ := h.leads
  obtain rfl : names = names' :=
    List.map_injective_iff.mpr (fun _ _ => Component.normal.inj)
      (List.append_cancel_left (dir.symm.trans dir'))
  obtain ⟨closed, x, here, found⟩ := h.look_eq before.sound free root dir leads plain
  obtain ⟨_, scratch_found⟩ := before.found
  have apart : ¬ s <+: top ++ (base ++ below) := fun inside => by
    have outside := h.outside
    rw [← Bool.not_eq_true, isInside_iff before.sound found scratch_found] at outside
    exact outside (.inr inside)
  have free' : w.files.LinkFree := by
    intro p target there
    by_cases inside : s <+: p
    · obtain ⟨r, rfl⟩ := inside
      exact tree.plain r target there
    · exact free p target (contained p inside ▸ there)
  have here' := (contained _ apart).trans here
  obtain ⟨copied, rfl, run⟩ := copyDependencies_eq_ok ran
  obtain ⟨d, mem, own⟩ := registered.exists_mem leads dir
  have script (file : Path) (same : file.fileName? = below.getLast?) :
      Discovery.isScript file = true := by
    rw [isScript_congr (same.trans (leads.fileName?_eq filled plain).symm)]
    exact h.script
  obtain ⟨tree', grows, y, copy⟩ := look_of_copied tree free' root
    (fun e he => roots e (List.mem_mergeSort.mp he))
    (fun e he => stays e (List.mem_mergeSort.mp he))
    (List.mem_mergeSort.mpr mem) own filled here' script apart notEntry run
  exact read_of_leads tree'
    (Path.components_join_names (SourceFile.components_relativeDir dir))
    (grows.directory wrapped) copy leads filled closed

end HybridTemplate.Bundle
