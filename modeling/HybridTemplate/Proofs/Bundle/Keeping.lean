import HybridTemplate.Proofs.Bundle.Landing

set_option autoImplicit false

namespace HybridTemplate.Bundle

open Component (Dependency)
open Files
open Files.System (Closed Grows Linkless)
open HybridTemplate.Path (Component IsPlain)
open Text (Bytes)
open Visit (outcome)

structure Placed (root : Path) (fs : System) (file relative : Path) (q place : Place)
    (content : Bytes) : Prop where
  closed : Closed file
  behind : ∃ name init,
    file.components = root.components ++ (relative.components ++ [.normal name]) ∧
    within [] relative.components = some init ∧ q = init ++ [name]
  found : ∃ executable, fs.entryAt true file = .ok (place, .file content executable)

def Unchanged (s : Place) (fs later : System) : Prop :=
  ∀ p f, f ≠ .directory → ¬ s <+: p → (later.look p = some f ↔ fs.look p = some f)

theorem Unchanged.read {s : Place} {fs later : System} (sound : fs.Sound) (sound' : later.Sound)
    (same : Unchanged s fs later) (grows : Grows fs later) {file : Path} {place : Place}
    {content : Bytes} {executable : Bool} (outside : ¬ s <+: place)
    (found : fs.entryAt true file = .ok (place, .file content executable)) :
    later.entryAt true file = .ok (place, .file content executable) := by
  obtain ⟨content', executable', there⟩ := grows.fileAt found
  have seen : fs.look place = some (.file content executable) :=
    Entry.look_eq_file.mpr (System.at?_of_entryAt sound found)
  have now : later.look place = some (.file content' executable') :=
    Entry.look_eq_file.mpr (System.at?_of_entryAt sound' there)
  cases now.symm.trans ((same place _ (by simp) outside).mpr seen)
  exact there

/-- What a run keeps: the scratch tree has no links, nothing outside has changed, and every
copied script stands at its place with the bytes of its source. The directories behind the
root are of some form `P`. -/
structure Kept (P : Path → Prop) (root scratch : Path) (s : Place) (start : System)
    (copied : Copied) (fs : System) : Prop where
  tree : Linkless fs scratch s
  unchanged : Unchanged s start fs
  distinct : copied.Pairwise fun c d => ¬ (c.1.same d.1 = true ∧ c.2.same d.2 = true)
  held : ∀ c ∈ copied, P c.2 ∧ ∃ q place content, Placed root fs c.1 c.2 q place content ∧
    ¬ s <+: place ∧ ∃ executable, fs.look (s ++ q) = some (.file content executable)

/-- Whether the place of a script in the scratch tree says which file it is. -/
def Determined (P : Path → Prop) (root scratch : Path) (s : Place) (start : System) : Prop :=
  ∀ fs, Linkless fs scratch s → Unchanged s start fs →
    ∀ file relative q place content file' relative' place' content', P relative → P relative' →
      Placed root fs file relative q place content →
      Placed root fs file' relative' q place' content' → place = place'

section

variable {P : Path → Prop} {root scratch : Path} {s : Place} {start fs later : System}
  {copied : Copied} {d : Dependency} {file relative target : Path} {place : Place} {content : Bytes}

theorem kept_nil (tree : Linkless fs scratch s) : Kept P root scratch s fs [] fs where
  tree := tree
  unchanged := fun _ _ _ _ => Iff.rfl
  distinct := .nil
  held := fun _ none => absurd none List.not_mem_nil

theorem Kept.step (determined : Determined P root scratch s start)
    (kept : Kept P root scratch s start copied fs) (admitted : P relative)
    (sameRoot : d.root.components = root.components) (stays : Stays d)
    (script : IsScriptOf d fs file place content)
    (copies : Copies scratch d.root copied file relative target fs later) :
    Kept P root scratch s start (copied ++ [(file, relative)]) later := by
  obtain ⟨tree, init, name, inside, -, components, lands⟩ := copies.lands kept.tree stays script
  obtain ⟨executable, found⟩ := script.found
  have grows := (copies.grows kept.tree.sound).1
  have outside := script.not_prefix kept.tree copies.outside
  have aside : Unchanged s fs later := fun p f other apart =>
    lands.elsewhere p f other fun here => apart (here ▸ List.prefix_append s _)
  have new : Placed root fs file relative (init ++ [name]) place content :=
    ⟨script.closed, ⟨name, init, sameRoot ▸ components, inside, rfl⟩, script.found⟩
  have still {f r : Path} {q o : Place} {b : Bytes} (h : Placed root fs f r q o b)
      (apart : ¬ s <+: o) : Placed root later f r q o b := by
    obtain ⟨x, there⟩ := h.found
    exact ⟨h.closed, h.behind, x, aside.read kept.tree.sound tree.sound grows apart there⟩
  refine ⟨tree, ?_, ?_, ?_⟩
  · exact fun p f other apart => (aside p f other apart).trans (kept.unchanged p f other apart)
  · refine List.pairwise_append.mpr ⟨kept.distinct, List.pairwise_singleton _ _, ?_⟩
    intro c hc e he same
    obtain rfl := List.mem_singleton.mp he
    have known : copied.has file relative = true :=
      List.any_eq_true.mpr ⟨c, hc, Bool.and_eq_true_iff.mpr same⟩
    rw [copies.new] at known
    cases known
  · intro c hc
    rcases List.mem_append.mp hc with old | here
    · obtain ⟨form, q, o, b, placed, apart, x, there⟩ := kept.held c old
      refine ⟨form, q, o, b, still placed apart, apart, ?_⟩
      by_cases covered : q = init ++ [name]
      · -- The later copy has the place of this one, so it is of the same file.
        subst covered
        obtain rfl := determined fs kept.tree kept.unchanged c.1 c.2 _ o b file relative place
          content form admitted placed new
        obtain ⟨y, read⟩ := placed.found
        have one := System.at?_of_entryAt kept.tree.sound found
        cases one.symm.trans (System.at?_of_entryAt kept.tree.sound read)
        exact lands.here
      · refine ⟨x, (lands.elsewhere _ _ (by simp) ?_).mpr there⟩
        exact fun same => covered (List.append_cancel_left same)
    · obtain rfl := List.mem_singleton.mp here
      exact ⟨admitted, _, place, content, still new outside, outside, lands.here⟩

end

/-- A run keeps every copy that it makes. -/
theorem kept_of_run {P : Path → Prop} {root scratch : Path} {s : Place} {ds : List Dependency}
    {w w' : Workspace} {copied : Copied} (tree : Linkless w.files scratch s)
    (determined : Determined P root scratch s w.files)
    (sameRoot : ∀ d ∈ ds, d.root.components = root.components) (stays : ∀ d ∈ ds, Stays d)
    (admitted : ∀ d ∈ ds, ∀ (names : List String) (name : String) (relative : Path), names ≠ [] →
      d.dir.components ++ names.map Component.normal =
        d.root.components ++ (relative.components ++ [.normal name]) → P relative)
    (h : outcome (ds.foldlM (copyDependency scratch) []) w = (.ok copied, w')) :
    Kept P root scratch s w.files copied w'.files ∧ Grows w.files w'.files := by
  refine foldlM_copyDependency_keeps (Kept P root scratch s w.files)
    (fun _ _ kept => kept.tree.sound) ?_ (kept_nil tree) h
  intro d mem file place content copied fs later relative target kept script copies
  obtain ⟨name, -, -, -, components⟩ := placement?_eq_some copies.placement
  obtain ⟨names, filled, below⟩ := script.below
  have form := admitted d mem names name relative filled (below.symm.trans components)
  exact kept.step determined form (sameRoot d mem) (stays d mem) script copies

def Named (p : Path) : Prop := ∃ names : List String, p.components = names.map Component.normal

def targetOf (scratch : Path) (c : Path × Path) : Path :=
  (scratch.join c.2).join ⟨c.1.fileName?.getD ""⟩

section

variable {root scratch file relative : Path} {fs : System} {q place : Place} {content : Bytes}

theorem Placed.components_of_named (h : Placed root fs file relative q place content)
    (named : Named relative) :
    file.components = root.components ++ q.map Component.normal ∧
      relative.components = q.dropLast.map Component.normal ∧ file.fileName? = q.getLast? := by
  obtain ⟨names, components⟩ := named
  obtain ⟨name, init, whole, inside, rfl⟩ := h.behind
  rw [components, within_names, List.nil_append] at inside
  cases inside
  have last : file.components =
      (root.components ++ names.map Component.normal) ++ [.normal name] := by
    rw [whole, components, List.append_assoc]
  refine ⟨?_, ?_, ?_⟩
  · rw [last, List.map_append, List.append_assoc]
    rfl
  · rw [components, List.dropLast_concat]
  · rw [Path.fileName?_of_components last, List.getLast?_concat]

theorem Placed.components_targetOf (h : Placed root fs file relative q place content)
    (named : Named relative) :
    (targetOf scratch (file, relative)).components =
      scratch.components ++ q.map Component.normal := by
  obtain ⟨-, relatively, last⟩ := h.components_of_named named
  obtain ⟨name, init, -, -, rfl⟩ := h.behind
  rw [List.getLast?_concat] at last
  rw [List.dropLast_concat] at relatively
  rw [targetOf, last, Option.getD_some, (Path.isPlain_of_fileName? last).components_join,
    Path.components_join_names relatively, List.map_append, List.append_assoc]
  rfl

end

/-- Without dots behind the root, the place of a script says which file it is. -/
theorem determined_of_named (root scratch : Path) (s : Place) (start : System) :
    Determined Named root scratch s start := by
  intro fs _ _ file relative q place content file' relative' place' content' named named'
    placed placed'
  have same : file.components = file'.components :=
    (placed.components_of_named named).1.trans (placed'.components_of_named named').1.symm
  obtain ⟨_, found⟩ := placed.found
  obtain ⟨_, found'⟩ := placed'.found
  rw [System.entryAt_of_components same placed.closed placed'.closed] at found
  cases found.symm.trans found'
  rfl

theorem Kept.read_of_named {root scratch : Path} {s : Place} {start fs : System} {copied : Copied}
    (kept : Kept Named root scratch s start copied fs) (grows : Grows start fs)
    (sound : start.Sound) {c : Path × Path} (mem : c ∈ copied) :
    ∃ content, fs.read c.1 = .ok content ∧ fs.read (targetOf scratch c) = .ok content ∧
      ∀ before, start.read c.1 = .ok before → before = content := by
  obtain ⟨named, q, place, content, placed, outside, x, there⟩ := kept.held c mem
  obtain ⟨y, found⟩ := placed.found
  refine ⟨content, System.read_eq_ok.mpr ⟨place, y, found⟩, ?_, ?_⟩
  · obtain ⟨entries, scratch_found⟩ := kept.tree.found
    obtain ⟨name, init, -, -, rfl⟩ := placed.behind
    have last : c.1.fileName? = some name := by
      rw [(placed.components_of_named named).2.2, List.getLast?_concat]
    have closed : Closed (targetOf scratch c) := by
      rw [targetOf, last, Option.getD_some]
      exact System.closed_join _ (Path.isPlain_of_fileName? last)
    have stands := System.entryAt_below kept.tree.sound scratch_found (Entry.look_eq_file.mp there)
      rfl (List.append_ne_nil_of_right_ne_nil init (List.cons_ne_nil name []))
      (placed.components_targetOf named) closed true
    exact System.read_eq_ok.mpr ⟨_, _, stands⟩
  · intro before read
    obtain ⟨origin, z, first⟩ := System.read_eq_ok.mp read
    obtain ⟨later, z', again⟩ := grows.fileAt first
    cases found.symm.trans again
    have kept' := kept.unchanged.read sound kept.tree.sound grows outside first
    cases found.symm.trans kept'
    rfl

/-- No copy is lost where the dependencies have one root and their directories are named
without dots behind it: every copied script stands at its target with its own bytes, which
the run has not changed, and no two have one target. -/
theorem copyDependencies_keeps_copies {root scratch : Path} {s : Place} {ds : List Dependency}
    {w w' : Workspace} {n : Nat} (tree : Linkless w.files scratch s)
    (sameRoot : ∀ d ∈ ds, d.root.components = root.components) (descends : ∀ d ∈ ds, Descends d)
    (h : outcome (copyDependencies ds scratch) w = (.ok n, w')) :
    ∃ copied : Copied,
      outcome ((ds.mergeSort dependencyLe).foldlM (copyDependency scratch) []) w =
        (.ok copied, w') ∧
      n = copied.length ∧
      (copied.map (targetOf scratch)).Pairwise (fun t u => t.same u = false) ∧
      ∀ c ∈ copied, ∃ content, w'.files.read c.1 = .ok content ∧
        w'.files.read (targetOf scratch c) = .ok content ∧
        ∀ before, w.files.read c.1 = .ok before → before = content := by
  obtain ⟨copied, rfl, run⟩ := copyDependencies_eq_ok h
  obtain ⟨kept, grows⟩ := kept_of_run tree (determined_of_named root scratch s w.files)
    (fun d mem => sameRoot d (List.mem_mergeSort.mp mem))
    (fun d mem => (descends d (List.mem_mergeSort.mp mem)).stays)
    (fun d mem names name relative filled below =>
      (descends d (List.mem_mergeSort.mp mem)).exists_names filled below) run
  refine ⟨copied, run, rfl, ?_, fun c mem => kept.read_of_named grows tree.sound mem⟩
  rw [List.pairwise_map]
  refine kept.distinct.imp_of_mem fun {c d} hc hd apart => ?_
  rw [← Bool.not_eq_true, Path.same_iff]
  intro same
  obtain ⟨named, q, _, _, placed, -⟩ := kept.held c hc
  obtain ⟨named', q', _, _, placed', -⟩ := kept.held d hd
  rw [placed.components_targetOf named,
    placed'.components_targetOf named'] at same
  have names : q = q' :=
    List.map_injective_iff.mpr (fun _ _ => Component.normal.inj) (List.append_cancel_left same)
  subst names
  obtain ⟨file, relative, -⟩ := placed.components_of_named named
  obtain ⟨file', relative', -⟩ := placed'.components_of_named named'
  exact apart ⟨Path.same_iff.mpr (file.trans file'.symm),
    Path.same_iff.mpr (relative.trans relative'.symm)⟩

/-- Two overlapping directories: the script in both is copied once. -/
theorem copyDependencies_keeps_copies_overlapping :
    let fs : System := ⟨.directory [("p", .directory [("a.js", .file [97] false),
      ("q", .directory [("b.js", .file [98] true)])]), ("s", .directory [])], []⟩
    let ds : List Dependency := [⟨⟨"/p"⟩, ⟨"/p"⟩⟩, ⟨⟨"/p/q"⟩, ⟨"/p"⟩⟩]
    let w : Workspace := ⟨fs, [], []⟩
    ∃ w', outcome (copyDependencies ds ⟨"/s"⟩) w = (.ok 2, w') ∧ ∃ copied : Copied,
      copied.length = 2 ∧ ∀ c ∈ copied, ∃ content, w'.files.read c.1 = .ok content ∧
        w'.files.read (targetOf ⟨"/s"⟩ c) = .ok content := by
  have sorted : List.mergeSort [(⟨⟨"/p"⟩, ⟨"/p"⟩⟩ : Dependency), ⟨⟨"/p/q"⟩, ⟨"/p"⟩⟩] dependencyLe =
      [⟨⟨"/p"⟩, ⟨"/p"⟩⟩, ⟨⟨"/p/q"⟩, ⟨"/p"⟩⟩] :=
    List.mergeSort_of_pairwise (by decide +kernel)
  intro fs ds w
  have two : (outcome (copyDependencies ds ⟨"/s"⟩) w).1 = .ok 2 := by
    simp only [w, fs, ds, copyDependencies, sorted]
    decide +kernel
  have ran : outcome (copyDependencies ds ⟨"/s"⟩) w =
      (.ok 2, (outcome (copyDependencies ds ⟨"/s"⟩) w).2) := Prod.ext two rfl
  have tree : Linkless w.files ⟨"/s"⟩ ["s"] :=
    ⟨⟨by decide +kernel, by decide +kernel⟩, ⟨[], by rfl⟩,
      fun q => Entry.look_ne_link (by decide +kernel) _⟩
  have roots : ∀ d ∈ ds, d.root.components = Path.components ⟨"/p"⟩ := by
    simp [ds]
  have below : ∀ d ∈ ds, Descends d := by
    refine List.forall_mem_cons.mpr ⟨?_, List.forall_mem_cons.mpr ⟨?_, by simp⟩⟩
    · exact descends_of_components [] (by decide +kernel)
    · exact descends_of_components ["q"] (by decide +kernel)
  obtain ⟨copied, -, count, -, each⟩ := copyDependencies_keeps_copies tree roots below ran
  refine ⟨_, ran, copied, count.symm, fun c mem => ?_⟩
  obtain ⟨content, read, there, -⟩ := each c mem
  exact ⟨content, read, there⟩

/-- With two roots, two scripts can have one target, and the first copy is lost. -/
theorem two_roots_lose_a_copy :
    let fs : System := ⟨.directory [("a", .directory [("util.js", .file [97] false)]),
      ("b", .directory [("util.js", .file [98] false)]), ("s", .directory [])], []⟩
    let ds : List Dependency := [⟨⟨"/a"⟩, ⟨"/a"⟩⟩, ⟨⟨"/b"⟩, ⟨"/b"⟩⟩]
    let ran := outcome (copyDependencies ds ⟨"/s"⟩) ⟨fs, [], []⟩
    ran.1 = .ok 2 ∧ ran.2.files.read ⟨"/a/util.js"⟩ = .ok [97] ∧
      ran.2.files.read ⟨"/s/util.js"⟩ = .ok [98] := by
  have sorted : List.mergeSort [(⟨⟨"/a"⟩, ⟨"/a"⟩⟩ : Dependency), ⟨⟨"/b"⟩, ⟨"/b"⟩⟩] dependencyLe =
      [⟨⟨"/a"⟩, ⟨"/a"⟩⟩, ⟨⟨"/b"⟩, ⟨"/b"⟩⟩] :=
    List.mergeSort_of_pairwise (by decide +kernel)
  intro fs ds ran
  simp only [ran, ds, copyDependencies, sorted]
  decide +kernel

end HybridTemplate.Bundle
