import HybridTemplate.Proofs.Files.Below
import HybridTemplate.Proofs.Files.Directories

set_option autoImplicit false

namespace HybridTemplate.Files.System

open HybridTemplate.Path (Component)
open Text (Bytes)

variable {fs middle later : System} {s : Place}

/-- Nothing outside a place has changed. -/
def Contained (s : Place) (fs later : System) : Prop := ∀ p, ¬ s <+: p → later.look p = fs.look p

theorem Contained.refl (s : Place) (fs : System) : Contained s fs fs := fun _ _ => rfl

theorem Contained.trans (h : Contained s fs middle) (k : Contained s middle later) :
    Contained s fs later :=
  fun p outside => (k p outside).trans (h p outside)

theorem Sets.contained {q : Place} {f : Face} (h : Sets fs (s ++ q) f later) :
    Contained s fs later :=
  fun _ outside => h.look_of_ne fun here => outside (here ▸ List.prefix_append s q)

section

variable {base path : Path} {cs : List Component} {q : Place}

/-- A walk along the steps of a path that goes on behind a directory's stops where they lead. -/
theorem Linkless.place_of_reaches (h : Linkless fs base s)
    (components : path.components = base.components ++ cs) (inside : within [] cs = some q)
    {t : Target} (reached : Reaches fs true linkLimit (fs.start path) path.steps t) :
    t.place = s ++ q := by
  obtain ⟨entries, found⟩ := h.found
  obtain ⟨filled, there⟩ := entryAt_eq_directory.mp found
  have nonempty : base.components ≠ [] := fun none => filled (Path.components_eq_nil.mp none)
  have start : fs.start path = fs.start base := by
    have absolute : path.isAbsolute = base.isAbsolute := by
      rw [Bool.eq_iff_iff, ← Path.head?_components_eq_root, ← Path.head?_components_eq_root,
        components, List.head?_append_of_ne_nil _ nonempty]
    rw [System.start, System.start, absolute]
  have steps : path.steps = base.steps ++ cs.filterMap Component.step? := by
    rw [Path.steps_eq_filterMap, Path.steps_eq_filterMap, components, List.filterMap_append]
  have plain : ∀ name, Component.normal name ∈ cs → Path.IsPlain name := fun name hn =>
    Path.isPlain_of_mem_components (p := path) (components ▸ List.mem_append_right _ hn)
  rw [start, steps, ← walk_eq_ok] at reached
  by_cases stays : cs.filterMap Component.step? = []
  · rw [stays, List.append_nil, there.walk_eq] at reached
    cases reached
    have still := destination_within (s := s) inside plain
    rw [stays, List.append_nil] at still
    exact still
  · obtain ⟨left, onward⟩ := there.walk_append rfl
    rw [onward true _ stays] at reached
    exact (walk_eq_ok.mp reached).place_below inside plain h.plain

theorem Linkless.contained_makeDirectory (h : Linkless fs base s)
    (components : path.components = base.components ++ cs) (inside : within [] cs = some q)
    (made : fs.makeDirectory path = .ok later) : Contained s fs later := by
  obtain ⟨t, reached, -, sets⟩ := reaches_of_makeDirectory h.sound made
  rw [h.place_of_reaches components inside reached] at sets
  exact sets.contained

/-- The directories that are made on the way are below the directory too. -/
theorem Linkless.contained_makeDirectoriesFrom (h : Linkless fs base s)
    (components : path.components = base.components ++ cs) (inside : within [] cs = some q)
    (depth : Nat) : Contained s fs (fs.makeDirectoriesFrom depth path).1 := by
  induction depth generalizing path cs q with
  | zero => exact .refl s fs
  | succ depth ih =>
    rw [makeDirectoriesFrom]
    split
    · exact .refl s fs
    split
    · rename_i made
      exact h.contained_makeDirectory components inside made
    · rename_i missing
      split
      · exact .refl s fs
      · rename_i above parent
        rcases List.eq_nil_or_concat cs with rfl | ⟨front, last, rfl⟩
        · obtain ⟨entries, found⟩ := h.found
          rw [List.append_nil] at components
          cases missing.symm.trans (makeDirectory_of_found components found)
        · rw [List.concat_eq_append] at components inside
          have parents : above.components = base.components ++ front := by
            rw [(Path.parent?_eq_some parent).2, components, ← List.append_assoc,
              List.dropLast_concat]
          have within_front := inside
          rw [within_append] at within_front
          obtain ⟨r, first, -⟩ := Option.bind_eq_some_iff.mp within_front
          have kept := ih parents first
          have adds := addsDirectories_makeDirectoriesFrom h.sound depth above
          split
          · rename_i stopped
            rwa [stopped] at kept
          · rename_i complete
            rw [complete] at kept adds
            split
            · rename_i made
              exact kept.trans
                ((h.of_addsDirectories adds).contained_makeDirectory components inside made)
            · exact kept
    · exact .refl s fs

theorem Linkless.contained_makeDirectories (h : Linkless fs base s)
    (components : path.components = base.components ++ cs) (inside : within [] cs = some q) :
    Contained s fs (fs.makeDirectories path).1 :=
  h.contained_makeDirectoriesFrom components inside _

end

theorem Reaches.written {followLast : Bool} {links : Nat} {place above : Place}
    {ss : List (List Char)} {name : String} {content : Bytes} {executable : Bool}
    (h : Reaches fs followLast links place ss (.absent above name false)) (grows : Grows fs later)
    (there : later.top.at? (above ++ [name]) = some (.file content executable)) :
    Reaches later followLast links place ss
      (.found (above ++ [name]) (.file content executable)) := by
  generalize target : Target.absent above name false = t at h
  induction h with
  | done _ => cases target
  | stay void _ ih => exact .stay void (ih target)
  | up _ ih => exact .up (ih target)
  | @missing _ _ s rest step _ _ =>
    obtain ⟨rfl, rfl, last⟩ := Target.absent.inj target
    obtain rfl : rest = [] := by simpa using last
    exact .file step there
  | into step here _ ih => exact .into step (grows.directory here) (ih target)
  | file _ _ => cases target
  | link _ _ _ => cases target
  | follow step here followed _ ih => exact .follow step (grows.link here) followed (ih target)

theorem entryAt_of_write (sound : fs.Sound) {p : Path} {content : Bytes}
    (h : fs.write p content = .ok later) :
    ∃ place executable, later.entryAt true p = .ok (place, .file content executable) ∧
      Sets fs place (.file content executable) later ∧ Grows fs later := by
  obtain ⟨t, executable, located, linkless, sets⟩ := write_eq_ok sound h
  obtain ⟨filled, reached⟩ := locate_eq_ok.mp located
  have grows := sets.grows_file linkless
  have here := Entry.look_eq_file.mp sets.look_self
  refine ⟨t.place, executable, ?_, sets, grows⟩
  rw [entryAt_eq_ok, locate_eq_ok, System.start, grows.cwd]
  refine ⟨filled, ?_⟩
  cases t with
  | found place e =>
    obtain ⟨d, again, -⟩ := reached.grows grows
    have start : later.look (later.start p) = some .directory := sets.sound.start p
    rw [System.start, grows.cwd] at start
    have there := again.holds sets.sound start fun _ hs => Path.not_mem_of_mem_segments hs
    cases there.symm.trans here
    exact again
  | absent above name asDirectory =>
    cases asDirectory with
    | false => exact reached.written grows here
    | true =>
      rw [write, located] at h
      cases h

theorem Linkless.write_found {base p : Path} {cs : List Component} {q : Place} {name : String}
    (h : Linkless fs base s) (components : p.components = base.components ++ (cs ++ [.normal name]))
    (closed : Closed p) (inside : within [] cs = some q) {content : Bytes}
    (written : fs.write p content = .ok later) :
    Linkless later base s ∧ Contained s fs later ∧ Grows fs later ∧
      ∃ executable, later.entryAt true p = .ok (s ++ (q ++ [name]), .file content executable) := by
  obtain ⟨tree, -⟩ := h.write components closed inside written
  obtain ⟨place, executable, found, sets, grows⟩ := entryAt_of_write h.sound written
  obtain rfl : place = s ++ (q ++ [name]) :=
    tree.place_eq components closed inside (entryAt_eq_ok.mp found)
  exact ⟨tree, sets.contained, grows, executable, found⟩

end HybridTemplate.Files.System
