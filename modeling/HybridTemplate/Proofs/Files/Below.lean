import HybridTemplate.Proofs.Files.Changing
import HybridTemplate.Proofs.Files.Destination

set_option autoImplicit false

namespace HybridTemplate

open Files

def Path.below (p : Path) (names : List String) : Path := names.foldl (fun p n => p.join ⟨n⟩) p

theorem Path.components_below (p : Path) {names : List String} (plain : ∀ n ∈ names, IsPlain n) :
    (p.below names).components = p.components ++ names.map Component.normal := by
  unfold below
  induction names generalizing p with
  | nil => rw [List.foldl_nil, List.map_nil, List.append_nil]
  | cons n names ih =>
    obtain ⟨first, rest⟩ := List.forall_mem_cons.mp plain
    rw [List.foldl_cons, ih _ rest, first.components_join, List.map_cons, List.append_assoc,
      List.singleton_append]

theorem Path.fileName?_below (p : Path) {above : List String} {name : String}
    (plain : ∀ n ∈ above ++ [name], IsPlain n) :
    (p.below (above ++ [name])).fileName? = some name := by
  have last : (p.below (above ++ [name])).components =
      (p.components ++ above.map Component.normal) ++ [.normal name] := by
    rw [p.components_below plain, List.map_append, List.append_assoc]
    rfl
  exact Path.fileName?_of_components last

theorem Path.filterMap_step?_normal (names : List String) :
    (names.map Component.normal).filterMap Component.step? = names.map String.toList := by
  rw [List.filterMap_map]
  exact congrFun List.filterMap_eq_map names

theorem Path.steps_behind {p base : Path} {names : List String}
    (h : p.components = base.components ++ names.map Path.Component.normal) :
    p.steps = base.steps ++ names.map String.toList := by
  rw [Path.steps_eq_filterMap, h, List.filterMap_append, Path.filterMap_step?_normal,
    ← Path.steps_eq_filterMap]

namespace Files

open HybridTemplate.Path (Component IsPlain isVoid segments meant)
open Text (Bytes)

/-- Where components lead from a place below a directory: two dots go back up, but not out
of the directory. -/
def within : Place → List Component → Option Place
  | q, [] => some q
  | q, .normal name :: cs => within (q ++ [name]) cs
  | q, .parent :: cs => if q = [] then none else within q.dropLast cs
  | q, .current :: cs => within q cs
  | _, .root :: _ => none

theorem within_append (q : Place) (cs ds : List Component) :
    within q (cs ++ ds) = (within q cs).bind fun r => within r ds := by
  induction cs generalizing q with
  | nil => rfl
  | cons c cs ih =>
    cases c with
    | root => rfl
    | current => exact ih q
    | parent =>
      rw [List.cons_append, within, within]
      split
      · rfl
      · exact ih _
    | normal name => exact ih _

theorem within_names (q : Place) (names : List String) :
    within q (names.map Component.normal) = some (q ++ names) := by
  induction names generalizing q with
  | nil => rw [List.map_nil, within, List.append_nil]
  | cons n names ih => rw [List.map_cons, within, ih, List.append_assoc, List.singleton_append]

theorem within_behind (p : Place) {q q' : Place} {cs : List Component}
    (h : within q cs = some q') : within (p ++ q) cs = some (p ++ q') := by
  induction cs generalizing q with
  | nil => cases h; rfl
  | cons c cs ih =>
    cases c with
    | root => cases h
    | current => exact ih h
    | normal name => rw [within, List.append_assoc]; exact ih h
    | parent =>
      rw [within] at h ⊢
      split at h
      · cases h
      · rename_i filled
        rw [if_neg (List.append_ne_nil_of_right_ne_nil p filled),
          List.dropLast_append_of_ne_nil filled]
        exact ih h

theorem not_isAbsolute_of_within {p : Path} {q : Place} (h : within [] p.components = some q) :
    p.isAbsolute = false := by
  rw [← Bool.not_eq_true, ← Path.head?_components_eq_root]
  intro root
  obtain ⟨cs, components⟩ := List.head?_eq_some_iff.mp root
  rw [components, within] at h
  cases h

theorem within_steps {p : Path} (h : p.isAbsolute = false) (q : Place) :
    within q (p.steps.map Path.componentOf) = within q p.components := by
  rw [Path.components_eq, Path.leading, h, if_neg Bool.false_ne_true]
  split <;> rfl

namespace System

variable {fs : System}

section

variable {s q q' : Place} {cs : List Component}

theorem destination_within (h : within q cs = some q')
    (plain : ∀ name, Component.normal name ∈ cs → IsPlain name) :
    destination (s ++ q) (cs.filterMap Component.step?) = s ++ q' := by
  induction cs generalizing q with
  | nil => cases h; rfl
  | cons c cs ih =>
    have below : ∀ name, Component.normal name ∈ cs → IsPlain name :=
      fun name later => plain name (List.mem_cons_of_mem c later)
    cases c with
    | root => cases h
    | current => exact ih h below
    | parent =>
      rw [within] at h
      split at h
      · cases h
      · rename_i filled
        change destination (s ++ q) (['.', '.'] :: cs.filterMap Component.step?) = _
        rw [destination_up, List.dropLast_append_of_ne_nil filled]
        exact ih h below
    | normal name =>
      obtain ⟨named, up, -⟩ := plain name List.mem_cons_self
      change destination (s ++ q) (name.toList :: cs.filterMap Component.step?) = _
      rw [destination_step _ named up, String.ofList_toList, List.append_assoc]
      exact ih h below

/-- On the way the place is below the directory all the time. -/
theorem destination_take_within (h : within q cs = some q')
    (plain : ∀ name, Component.normal name ∈ cs → IsPlain name) (n : Nat) :
    ∃ r, destination (s ++ q) ((cs.filterMap Component.step?).take n) = s ++ r := by
  obtain ⟨front, ⟨rest, rfl⟩, taken⟩ :=
    List.prefix_filterMap_iff.mp (List.take_prefix n (cs.filterMap Component.step?))
  rw [within_append] at h
  obtain ⟨r, there, -⟩ := Option.bind_eq_some_iff.mp h
  rw [taken]
  exact ⟨r, destination_within there fun name hn => plain name (List.mem_append_left rest hn)⟩

/-- Where no link is below a directory, a walk along components that do not climb out of it
stops where they lead. -/
theorem Reaches.place_below {followLast : Bool} {links : Nat} {t : Target}
    (h : Reaches fs followLast links s (cs.filterMap Component.step?) t)
    (inside : within [] cs = some q') (plain : ∀ name, Component.normal name ∈ cs → IsPlain name)
    (linkless : ∀ r target, fs.look (s ++ r) ≠ some (.link target)) : t.place = s ++ q' := by
  have there := destination_within (s := s) inside plain
  have way := destination_take_within (s := s) inside plain
  rw [List.append_nil] at there way
  rw [← there]
  refine h.place_eq fun n target => ?_
  obtain ⟨r, here⟩ := way n
  rw [here]
  exact linkless r target

end

/-- Whether a path is written without meaningless segments at its end. -/
def Closed (p : Path) : Prop := EndsMeant (segments p.text.toList)

theorem Closed.join {q : Path} (closed : Closed q) (relative : q.isAbsolute = false) (p : Path) :
    Closed (p.join q) := by
  by_cases empty : p.text = ""
  · have alone : p.join q = q := by
      rw [Path.join, relative, if_neg Bool.false_ne_true, empty]
      simp
    rwa [alone]
  · obtain ⟨front, joined, -⟩ := Path.exists_join empty relative
    intro t ht
    rw [joined, Path.segments_append_slash,
      List.getLast?_append_of_ne_nil _ (Path.segments_ne_nil _)] at ht
    exact closed t ht

theorem closed_join (p : Path) {name : String} (plain : IsPlain name) : Closed (p.join ⟨name⟩) := by
  refine Closed.join (fun t ht => ?_) plain.isAbsolute_eq p
  rw [plain.segments_eq, List.getLast?_singleton] at ht
  cases ht
  exact plain.1

theorem closed_below (p : Path) {names : List String} (filled : names ≠ [])
    (plain : ∀ n ∈ names, IsPlain n) : Closed (p.below names) := by
  obtain ⟨init, last, rfl⟩ := (List.eq_nil_or_concat names).resolve_left filled
  rw [List.concat_eq_append] at plain ⊢
  rw [Path.below, List.foldl_append]
  exact closed_join _ (plain last (List.mem_append_right init List.mem_cons_self))

theorem Closed.locate_eq {p : Path} (closed : Closed p) (filled : p.text ≠ "") (followLast : Bool) :
    fs.locate followLast p = fs.walk followLast linkLimit (fs.start p) p.steps := by
  have text : p.text.isEmpty = false := by simpa using filled
  rw [locate, text, if_neg Bool.false_ne_true]
  exact walk_all_meant fs followLast linkLimit (fs.start p) closed

theorem locate_of_components {p p' : Path} (same : p.components = p'.components) (closed : Closed p)
    (closed' : Closed p') (followLast : Bool) :
    fs.locate followLast p = fs.locate followLast p' := by
  by_cases empty : p.text = ""
  · have empty' : p'.text = "" :=
      Path.components_eq_nil.mp (same ▸ Path.components_eq_nil.mpr empty)
    rw [locate, locate, empty, empty']
    rfl
  · have filled' : p'.text ≠ "" := fun empty' =>
      empty (Path.components_eq_nil.mp (same.trans (Path.components_eq_nil.mpr empty')))
    rw [closed.locate_eq empty, closed'.locate_eq filled', start, start,
      Path.isAbsolute_of_components same, Path.steps_of_components same]

/-- A closed path is looked up by what it means. -/
theorem entryAt_of_components {p p' : Path} (same : p.components = p'.components)
    (closed : Closed p) (closed' : Closed p') (followLast : Bool) :
    fs.entryAt followLast p = fs.entryAt followLast p' := by
  rw [entryAt, entryAt, locate_of_components same closed closed']

/-- A path behind that of a directory is looked up from the directory. -/
theorem locate_below {base : Path} {s : Place} {entries : List (String × Entry)}
    (found : fs.entryAt true base = .ok (s, .directory entries)) :
    ∃ left, ∀ (p : Path) (cs : List Component) (followLast : Bool),
      p.components = base.components ++ cs → Closed p → cs.filterMap Component.step? ≠ [] →
      fs.locate followLast p = fs.walk followLast left s (cs.filterMap Component.step?) := by
  obtain ⟨filled, reached⟩ := locate_eq_ok.mp (entryAt_eq_ok.mp found)
  obtain ⟨left, onward⟩ := reached.walk_append rfl
  refine ⟨left, fun p cs followLast components closed moves => ?_⟩
  have nonempty : base.components ≠ [] := fun none => filled (Path.components_eq_nil.mp none)
  have behind : p.components ≠ [] := by
    rw [components]
    exact List.append_ne_nil_of_left_ne_nil nonempty cs
  have start : fs.start p = fs.start base := by
    have absolute : p.isAbsolute = base.isAbsolute := by
      rw [Bool.eq_iff_iff, ← Path.head?_components_eq_root, ← Path.head?_components_eq_root,
        components, List.head?_append_of_ne_nil _ nonempty]
    rw [System.start, System.start, absolute]
  have steps : p.steps = base.steps ++ cs.filterMap Component.step? := by
    rw [Path.steps_eq_filterMap, Path.steps_eq_filterMap, components, List.filterMap_append]
  have moved : ∀ t ∈ cs.filterMap Component.step?, isVoid t = false := fun t ht =>
    Path.not_isVoid_of_mem_steps (p := p) (steps ▸ List.mem_append_right _ ht)
  have ends : EndsMeant (cs.filterMap Component.step?) :=
    fun t ht => moved t (List.mem_of_getLast? ht)
  have all : EndsMeant (segments base.text.toList ++ cs.filterMap Component.step?) := by
    intro t ht
    rw [List.getLast?_append_of_ne_nil _ moves] at ht
    exact ends t ht
  have kept : meant (cs.filterMap Component.step?) = cs.filterMap Component.step? :=
    List.filter_eq_self.mpr fun t ht => by rw [moved t ht]; rfl
  calc
    fs.locate followLast p
      = fs.walk followLast linkLimit (fs.start base)
          (base.steps ++ cs.filterMap Component.step?) := by
        rw [closed.locate_eq (fun empty => behind (Path.components_eq_nil.mpr empty)), start, steps]
    _ = fs.walk followLast linkLimit (fs.start base)
          (segments base.text.toList ++ cs.filterMap Component.step?) := by
        have dropped := walk_all_meant fs followLast linkLimit (fs.start base) all
        rw [Path.meant_append, kept] at dropped
        exact dropped.symm
    _ = fs.walk followLast left s (cs.filterMap Component.step?) := onward followLast _ moves

def LinkFree (fs : System) : Prop := ∀ p target, fs.look p ≠ some (.link target)

/-- Without links an absolute path has its place by what it means. -/
theorem LinkFree.place_eq (free : LinkFree fs) {p : Path} {cs : List Component} {q place : Place}
    {e : Entry} {followLast : Bool} (components : p.components = .root :: cs)
    (inside : within [] cs = some q) (found : fs.entryAt followLast p = .ok (place, e)) :
    place = q := by
  have start : fs.start p = [] := by
    rw [System.start, if_pos ((Path.head?_components_eq_root p).mp (by rw [components]; rfl))]
  have steps : p.steps = cs.filterMap Component.step? := by
    rw [Path.steps_eq_filterMap, components]
    rfl
  have plain : ∀ name, Component.normal name ∈ cs → IsPlain name := fun name hn =>
    Path.isPlain_of_mem_components (p := p) (components ▸ List.mem_cons_of_mem _ hn)
  have reached := (locate_eq_ok.mp (entryAt_eq_ok.mp found)).2
  calc
    place = destination [] (segments p.text.toList) := by
      rw [← start]
      exact reached.place_eq fun _ target => free _ target
    _ = destination [] p.steps := (destination_meant _ _).symm
    _ = q := by
      rw [steps]
      exact destination_within (s := []) inside plain

theorem LinkFree.place_concat (free : LinkFree fs) {p : Path} {cs : List Component} {name : String}
    (components : p.components = cs ++ [.normal name]) {followLast : Bool} {t : Target}
    (located : fs.locate followLast p = .ok t) : ∃ above, t.place = above ++ [name] := by
  have reached := (locate_eq_ok.mp located).2
  have plain : IsPlain name := Path.isPlain_of_mem_components (p := p)
    (components ▸ List.mem_append_right cs List.mem_cons_self)
  have steps : p.steps = cs.filterMap Component.step? ++ [name.toList] := by
    rw [Path.steps_eq_filterMap, components, List.filterMap_append]
    rfl
  refine ⟨destination (fs.start p) (cs.filterMap Component.step?), ?_⟩
  rw [reached.place_eq fun _ target => free _ target, ← destination_meant]
  change destination _ p.steps = _
  rw [steps, destination_append, destination_step _ plain.1 plain.2.1, String.ofList_toList]
  rfl

theorem LinkFree.entryAt_eq (free : LinkFree fs) (sound : fs.Sound) {p : Path} {q : Place}
    {e : Entry} (found : fs.entryAt false p = .ok (q, e)) : fs.entryAt true p = .ok (q, e) := by
  have here := at?_of_entryAt sound found
  obtain ⟨filled, reached⟩ := locate_eq_ok.mp (entryAt_eq_ok.mp found)
  refine entryAt_eq_ok.mpr (locate_eq_ok.mpr ⟨filled, reached.of_plain ?_ true⟩)
  rintro place target same
  cases same
  exact free _ target (Entry.look_eq_link.mpr here)

theorem LinkFree.addsDirectories {later : System} (free : LinkFree fs)
    (adds : AddsDirectories fs later) : LinkFree later :=
  fun p target there => free p target ((adds.look_iff (by simp)).mp there)

theorem LinkFree.sets_file {later : System} (free : LinkFree fs) {p : Place} {content : Bytes}
    {executable : Bool} (sets : Sets fs p (.file content executable) later) : LinkFree later := by
  intro q target there
  by_cases here : q = p
  · rw [here, sets.look_self] at there
    cases there
  · rw [sets.look_of_ne here] at there
    exact free q target there

/-- Whether a path leads to a directory below which no link stands. -/
structure Linkless (fs : System) (base : Path) (s : Place) : Prop where
  sound : fs.Sound
  found : ∃ entries, fs.entryAt true base = .ok (s, .directory entries)
  plain : ∀ q target, fs.look (s ++ q) ≠ some (.link target)

namespace Linkless

variable {later : System} {base p : Path} {s q : Place} {cs : List Component} {name : String}

theorem filled (h : Linkless fs base s) : base.text ≠ "" := by
  obtain ⟨entries, found⟩ := h.found
  exact (locate_eq_ok.mp (entryAt_eq_ok.mp found)).1

theorem place_eq (h : Linkless fs base s)
    (components : p.components = base.components ++ (cs ++ [.normal name]))
    (closed : Closed p) (inside : within [] cs = some q) {followLast : Bool} {t : Target}
    (located : fs.locate followLast p = .ok t) : t.place = s ++ (q ++ [name]) := by
  obtain ⟨entries, found⟩ := h.found
  obtain ⟨left, onward⟩ := locate_below found
  have moves : (cs ++ [Component.normal name]).filterMap Component.step? ≠ [] := by
    rw [List.filterMap_append]
    exact List.append_ne_nil_of_right_ne_nil _ (List.cons_ne_nil _ _)
  have named : within [] (cs ++ [Component.normal name]) = some (q ++ [name]) := by
    rw [within_append, inside]
    rfl
  rw [onward p _ followLast components closed moves] at located
  refine (walk_eq_ok.mp located).place_below named (fun n hn => ?_) h.plain
  exact Path.isPlain_of_mem_components (p := p) (components ▸ List.mem_append_right _ hn)

theorem of_addsDirectories (h : Linkless fs base s) (k : AddsDirectories fs later) :
    Linkless later base s where
  sound := k.sound
  found := by
    obtain ⟨entries, found⟩ := h.found
    exact k.grows.directoryAt found
  plain := by
    intro q target there
    exact h.plain q target ((k.look_iff (by simp)).mp there)

theorem of_sets (h : Linkless fs base s) {place : Place} {content : Bytes} {executable : Bool}
    (k : Sets fs place (.file content executable) later)
    (linkless : ∀ target, fs.look place ≠ some (.link target)) : Linkless later base s where
  sound := k.sound
  found := by
    obtain ⟨entries, found⟩ := h.found
    exact (k.grows_file linkless).directoryAt found
  plain := by
    intro q target there
    by_cases here : s ++ q = place
    · rw [here, k.look_self] at there
      cases there
    · rw [k.look_of_ne here] at there
      exact h.plain q target there

theorem write (h : Linkless fs base s)
    (components : p.components = base.components ++ (cs ++ [.normal name]))
    (closed : Closed p) (inside : within [] cs = some q) {content : Bytes}
    (written : fs.write p content = .ok later) :
    Linkless later base s ∧
      ∃ executable, Sets fs (s ++ (q ++ [name])) (.file content executable) later := by
  obtain ⟨t, executable, located, linkless, sets⟩ := write_eq_ok h.sound written
  rw [h.place_eq components closed inside located] at sets linkless
  exact ⟨h.of_sets sets linkless, executable, sets⟩

theorem copy (h : Linkless fs base s)
    (components : p.components = base.components ++ (cs ++ [.normal name]))
    (closed : Closed p) (inside : within [] cs = some q) {source : Path} {origin : Place}
    {content : Bytes} {executable : Bool}
    (read : fs.entryAt true source = .ok (origin, .file content executable))
    (apart : s ++ (q ++ [name]) ≠ origin) (copied : fs.copy source p = .ok later) :
    Linkless later base s ∧ Sets fs (s ++ (q ++ [name])) (.file content executable) later := by
  obtain ⟨origin', content', executable', t, read', located, linkless, sets⟩ :=
    copy_eq_ok h.sound copied
  cases read.symm.trans read'
  rw [h.place_eq components closed inside located] at sets linkless
  rw [if_neg apart] at sets
  exact ⟨h.of_sets sets linkless, sets⟩

end Linkless
end System
end Files
end HybridTemplate
