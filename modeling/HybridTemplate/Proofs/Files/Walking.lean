import HybridTemplate.Proofs.Files.Tree

set_option autoImplicit false

namespace HybridTemplate.Files

open HybridTemplate.Path (isVoid segments meant)
open Text (Bytes)

def Face.Like : Face → Face → Prop
  | .file .., .file .. => True
  | .link s, .link t => s = t
  | .directory, .directory => True
  | _, _ => False

theorem Face.like_refl (f : Face) : f.Like f := by
  cases f with
  | file content executable => trivial
  | link target => exact rfl
  | directory => trivial

theorem Face.Like.trans {f g h : Face} (fg : f.Like g) (gh : g.Like h) : f.Like h := by
  cases f <;> cases g <;> cases h <;> first | trivial | (cases fg; cases gh; rfl)

theorem Face.like_directory {f : Face} : Face.directory.Like f ↔ f = .directory := by
  cases f <;> simp [Face.Like]

theorem Face.like_link {f : Face} {target : String} :
    (Face.link target).Like f ↔ f = .link target := by
  cases f <;> simp [Face.Like, eq_comm]

def IsStep (s : List Char) : Prop :=
  isVoid s = false ∧ s ≠ ['.', '.'] ∧ Text.byteLength s ≤ nameLimit

theorem isName_ofList {s : List Char} (h : IsStep s) (slashless : '/' ∉ s) :
    IsName (String.ofList s) := by
  rw [IsName, Path.IsPlain, String.toList_ofList]
  exact ⟨⟨h.1, h.2.1, slashless⟩, h.2.2⟩

theorem IsName.isStep {name : String} (h : IsName name) : IsStep name.toList :=
  ⟨h.1.1, h.1.2.1, h.2⟩

def Target.place : Target → Place
  | .found p _ => p
  | .absent above name _ => above ++ [name]

namespace System

variable {fs : System}

def look (fs : System) (p : Place) : Option Face := fs.top.look p

/-- A system as a machine holds it: the tree is well formed, and the working directory is a
directory of it. -/
structure Sound (fs : System) : Prop where
  wellFormed : fs.top.isWellFormed = true
  cwd : fs.look fs.cwd = some .directory

theorem Sound.top (h : fs.Sound) : fs.look [] = some .directory := by
  by_cases here : fs.cwd = []
  · exact here ▸ h.cwd
  · refine Entry.look_below (q := fs.cwd) ?_ here
    rw [List.nil_append]
    exact Option.ne_none_iff_exists'.mpr ⟨_, h.cwd⟩

theorem Sound.isName (h : fs.Sound) {p : Place} {name : String}
    (found : fs.look (p ++ [name]) ≠ none) : IsName name :=
  Entry.isName_of_look h.wellFormed found

theorem look_dropLast {p : Place} (h : fs.look p = some .directory) :
    fs.look p.dropLast = some .directory := by
  rcases List.eq_nil_or_concat p with rfl | ⟨above, name, rfl⟩
  · exact h
  · rw [List.concat_eq_append] at h ⊢
    rw [List.dropLast_concat]
    exact Entry.look_below (Option.ne_none_iff_exists'.mpr ⟨_, h⟩) (List.cons_ne_nil name [])

/-- The ways in which a walk succeeds, segment by segment. -/
inductive Reaches (fs : System) (followLast : Bool) :
    (links : Nat) → Place → List (List Char) → Target → Prop
  | done {links : Nat} {place : Place} {e : Entry} (here : fs.top.at? place = some e) :
    Reaches fs followLast links place [] (.found place e)
  | stay {links : Nat} {place : Place} {s : List Char} {rest : List (List Char)} {t : Target}
    (void : isVoid s = true) (on : Reaches fs followLast links place rest t) :
    Reaches fs followLast links place (s :: rest) t
  | up {links : Nat} {place : Place} {rest : List (List Char)} {t : Target}
    (on : Reaches fs followLast links place.dropLast rest t) :
    Reaches fs followLast links place (['.', '.'] :: rest) t
  | missing {links : Nat} {place : Place} {s : List Char} {rest : List (List Char)}
    (step : IsStep s) (none : fs.look (place ++ [String.ofList s]) = none)
    (last : ∀ r ∈ rest, r = []) :
    Reaches fs followLast links place (s :: rest) (.absent place (String.ofList s) !rest.isEmpty)
  | into {links : Nat} {place : Place} {s : List Char} {rest : List (List Char)} {t : Target}
    (step : IsStep s) (here : fs.look (place ++ [String.ofList s]) = some .directory)
    (on : Reaches fs followLast links (place ++ [String.ofList s]) rest t) :
    Reaches fs followLast links place (s :: rest) t
  | file {links : Nat} {place : Place} {s : List Char} {content : Bytes} {executable : Bool}
    (step : IsStep s)
    (here : fs.top.at? (place ++ [String.ofList s]) = some (.file content executable)) :
    Reaches fs followLast links place [s]
      (.found (place ++ [String.ofList s]) (.file content executable))
  | link {links : Nat} {place : Place} {s : List Char} {target : String} (step : IsStep s)
    (here : fs.top.at? (place ++ [String.ofList s]) = some (.link target))
    (kept : followLast = false) :
    Reaches fs followLast links place [s] (.found (place ++ [String.ofList s]) (.link target))
  | follow {links : Nat} {place : Place} {s : List Char} {rest : List (List Char)} {c : Char}
    {cs : List Char} {t : Target} (step : IsStep s)
    (here : fs.look (place ++ [String.ofList s]) = some (.link (String.ofList (c :: cs))))
    (followed : rest ≠ [] ∨ followLast = true)
    (on : Reaches fs followLast links (if c = '/' then [] else place)
      (segments (c :: cs) ++ rest) t) :
    Reaches fs followLast (links + 1) place (s :: rest) t

def follow (fs : System) (followLast : Bool) :
    (links : Nat) → Place → List Char → List (List Char) → Except OsError Target
  | 0, _, _, _ => .error .tooManyLinks
  | _ + 1, _, [], _ => .error .noEntry
  | links + 1, place, c :: cs, rest =>
    fs.walk followLast links (if c = '/' then [] else place) (segments (c :: cs) ++ rest)

theorem walk_eq (fs : System) (followLast : Bool) (links : Nat) :
    fs.walk followLast links = fs.walkWith followLast (fs.follow followLast links) := by
  cases links with
  | zero => rfl
  | succ links =>
    rw [walk]
    refine congrArg _ (funext fun place => funext fun target => funext fun rest => ?_)
    cases target <;> rfl

section

variable {followLast : Bool} {links : Nat} {place : Place} {s : List Char}
  {rest : List (List Char)}

theorem walk_void (h : isVoid s = true) :
    fs.walk followLast links place (s :: rest) = fs.walk followLast links place rest := by
  rw [walk_eq, walkWith, if_pos h]

theorem walk_up :
    fs.walk followLast links place (['.', '.'] :: rest) =
      fs.walk followLast links place.dropLast rest := by
  rw [walk_eq, walkWith, if_neg (by decide), if_pos rfl]

theorem walk_step (h : IsStep s) :
    fs.walk followLast links place (s :: rest) =
      match fs.top.at? (place ++ [String.ofList s]) with
      | none =>
        if rest.all fun t => t.isEmpty then .ok (.absent place (String.ofList s) !rest.isEmpty)
        else .error .noEntry
      | some (.directory _) => fs.walk followLast links (place ++ [String.ofList s]) rest
      | some (.file content executable) =>
        if rest.isEmpty then
          .ok (.found (place ++ [String.ofList s]) (.file content executable))
        else .error .notDirectory
      | some (.link target) =>
        if rest.isEmpty && !followLast then
          .ok (.found (place ++ [String.ofList s]) (.link target))
        else fs.follow followLast links place target.toList rest := by
  obtain ⟨filled, up, short⟩ := h
  rw [walk_eq, walkWith, if_neg (Bool.not_eq_true _ ▸ filled), if_neg up]
  exact if_neg (Nat.not_lt.mpr short)

theorem walk_into (h : IsStep s) (here : fs.look (place ++ [String.ofList s]) = some .directory) :
    fs.walk followLast links place (s :: rest) =
      fs.walk followLast links (place ++ [String.ofList s]) rest := by
  obtain ⟨entries, here⟩ := Entry.look_eq_directory.mp here
  rw [walk_step h, here]

theorem walk_follow (h : IsStep s) {c : Char} {cs : List Char}
    (here : fs.look (place ++ [String.ofList s]) = some (.link (String.ofList (c :: cs))))
    (followed : rest ≠ [] ∨ followLast = true) :
    fs.walk followLast (links + 1) place (s :: rest) =
      fs.walk followLast links (if c = '/' then [] else place) (segments (c :: cs) ++ rest) := by
  have on : (rest.isEmpty && !followLast) = false := by
    rcases followed with more | on
    · simp [more]
    · simp [on]
  rw [walk_step h, Entry.look_eq_link.mp here]
  dsimp only
  rw [on, if_neg Bool.false_ne_true, String.toList_ofList, follow]

end

section

variable {followLast : Bool} {links : Nat} {place : Place} {ss : List (List Char)} {t : Target}

theorem reaches_of_links
    (onLink : ∀ place s rest target, IsStep s →
      fs.look (place ++ [String.ofList s]) = some (.link target) →
      (rest ≠ [] ∨ followLast = true) →
      fs.follow followLast links place target.toList rest = .ok t →
      Reaches fs followLast links place (s :: rest) t)
    (h : fs.walk followLast links place ss = .ok t) : Reaches fs followLast links place ss t := by
  induction ss generalizing place with
  | nil =>
    rw [walk_eq, walkWith] at h
    split at h
    · rename_i e here
      cases h
      exact .done here
    · cases h
  | cons s rest ih =>
    by_cases void : isVoid s = true
    · rw [walk_void void] at h
      exact .stay void (ih h)
    by_cases up : s = ['.', '.']
    · subst up
      rw [walk_up] at h
      exact .up (ih h)
    by_cases long : nameLimit < Text.byteLength s
    · rw [walk_eq, walkWith, if_neg void, if_neg up, if_pos long] at h
      cases h
    have step : IsStep s := ⟨Bool.not_eq_true _ ▸ void, up, Nat.not_lt.mp long⟩
    rw [walk_step step] at h
    split at h
    · rename_i none
      split at h
      · rename_i last
        cases h
        exact .missing step (Entry.look_eq_none.mpr none) (by simpa using last)
      · cases h
    · rename_i entries here
      exact .into step (Entry.look_eq_directory.mpr ⟨entries, here⟩) (ih h)
    · rename_i content executable here
      split at h
      · rename_i last
        cases h
        obtain rfl := List.isEmpty_iff.mp last
        exact .file step here
      · cases h
    · rename_i target here
      split at h
      · rename_i last
        cases h
        obtain ⟨last, kept⟩ := Bool.and_eq_true_iff.mp last
        obtain rfl := List.isEmpty_iff.mp last
        exact .link step here (by simpa using kept)
      · rename_i more
        refine onLink place s rest target step (Entry.look_eq_link.mpr here) ?_ h
        by_cases last : rest = []
        · exact .inr (by simpa [last] using more)
        · exact .inl last

theorem reaches_of_walk (h : fs.walk followLast links place ss = .ok t) :
    Reaches fs followLast links place ss t := by
  induction links generalizing place ss with
  | zero =>
    refine reaches_of_links (fun place s rest target _ _ _ followed => ?_) h
    rw [follow] at followed
    cases followed
  | succ links ih =>
    refine reaches_of_links (fun place s rest target step here more followed => ?_) h
    rcases chars : target.toList with _ | ⟨c, cs⟩
    · rw [chars, follow] at followed
      cases followed
    · rw [chars, follow] at followed
      obtain rfl : target = String.ofList (c :: cs) := by rw [← chars, String.ofList_toList]
      exact .follow step here more (ih followed)

theorem Reaches.walk_eq (h : Reaches fs followLast links place ss t) :
    fs.walk followLast links place ss = .ok t := by
  induction h with
  | done here => rw [System.walk_eq, walkWith, here]
  | stay void _ ih => rw [walk_void void, ih]
  | up _ ih => rw [walk_up, ih]
  | missing step none last =>
    rw [walk_step step, Entry.look_eq_none.mp none]
    exact if_pos (by simpa using last)
  | into step here _ ih => rw [walk_into step here, ih]
  | file step here =>
    rw [walk_step step, here]
    rfl
  | link step here kept =>
    rw [walk_step step, here, kept]
    rfl
  | follow step here followed _ ih => rw [walk_follow step here followed, ih]

theorem walk_eq_ok : fs.walk followLast links place ss = .ok t ↔
    Reaches fs followLast links place ss t :=
  ⟨reaches_of_walk, Reaches.walk_eq⟩

end

/-- What is reported holds of the system: an entry stands at the place that was found, and
what is absent has a directory above it and could be put there. -/
def Holds (fs : System) : Target → Prop
  | .found p e => fs.top.at? p = some e
  | .absent above name _ =>
    fs.look above = some .directory ∧ fs.look (above ++ [name]) = none ∧ IsName name

theorem Reaches.holds {followLast : Bool} {links : Nat} {place : Place} {ss : List (List Char)}
    {t : Target} (h : Reaches fs followLast links place ss t) (sound : fs.Sound)
    (directory : fs.look place = some .directory) (slashless : ∀ s ∈ ss, '/' ∉ s) :
    fs.Holds t := by
  induction h with
  | done here => exact here
  | stay _ _ ih => exact ih directory (List.forall_mem_cons.mp slashless).2
  | up _ ih => exact ih (look_dropLast directory) (List.forall_mem_cons.mp slashless).2
  | missing step none _ =>
    exact ⟨directory, none, isName_ofList step (List.forall_mem_cons.mp slashless).1⟩
  | into _ here _ ih => exact ih here (List.forall_mem_cons.mp slashless).2
  | file _ here => exact here
  | link _ here _ => exact here
  | @follow _ place _ _ c cs _ _ _ _ _ ih =>
    have start : fs.look (if c = '/' then [] else place) = some .directory := by
      by_cases root : c = '/'
      · rw [if_pos root]; exact sound.top
      · rw [if_neg root]; exact directory
    refine ih start fun r hr => ?_
    rcases List.mem_append.mp hr with hr | hr
    · exact Path.not_mem_of_mem_segments hr
    · exact (List.forall_mem_cons.mp slashless).2 r hr

/-- Whether a system has all that another has, up to what is in files. -/
structure Grows (fs later : System) : Prop where
  cwd : later.cwd = fs.cwd
  look : ∀ p f, fs.look p = some f → ∃ g, later.look p = some g ∧ f.Like g

theorem Grows.refl (fs : System) : Grows fs fs :=
  ⟨rfl, fun _ f h => ⟨f, h, f.like_refl⟩⟩

theorem Grows.trans {fs middle later : System} (h : Grows fs middle) (k : Grows middle later) :
    Grows fs later where
  cwd := k.cwd.trans h.cwd
  look := by
    intro p f hf
    obtain ⟨g, hg, fg⟩ := h.look p f hf
    obtain ⟨i, hi, gi⟩ := k.look p g hg
    exact ⟨i, hi, fg.trans gi⟩

theorem Grows.directory {fs later : System} (h : Grows fs later) {p : Place}
    (hp : fs.look p = some .directory) : later.look p = some .directory := by
  obtain ⟨f, hf, like⟩ := h.look p _ hp
  rw [hf, Face.like_directory.mp like]

theorem Grows.link {fs later : System} (h : Grows fs later) {p : Place} {target : String}
    (hp : fs.look p = some (.link target)) : later.look p = some (.link target) := by
  obtain ⟨f, hf, like⟩ := h.look p _ hp
  rw [hf, Face.like_link.mp like]

theorem exists_entry {p : Place} {f : Face} (h : fs.look p = some f) :
    ∃ e, fs.top.at? p = some e ∧ e.face = f :=
  Option.map_eq_some_iff.mp h

section

variable {later : System} {followLast : Bool} {links : Nat} {place : Place}
  {ss : List (List Char)}

/-- A walk that found something finds it in a larger system too. -/
theorem Reaches.grows {p : Place} {e : Entry}
    (h : Reaches fs followLast links place ss (.found p e)) (grows : Grows fs later) :
    ∃ d, Reaches later followLast links place ss (.found p d) ∧ e.face.Like d.face := by
  generalize target : Target.found p e = t at h
  induction h with
  | @done _ _ e here =>
    cases target
    obtain ⟨f, there, like⟩ := grows.look p e.face (congrArg (Option.map Entry.face) here)
    obtain ⟨d, found, rfl⟩ := exists_entry there
    exact ⟨d, .done found, like⟩
  | stay void _ ih =>
    obtain ⟨d, there, like⟩ := ih target
    exact ⟨d, .stay void there, like⟩
  | up _ ih =>
    obtain ⟨d, there, like⟩ := ih target
    exact ⟨d, .up there, like⟩
  | missing _ _ _ => cases target
  | into step here _ ih =>
    obtain ⟨d, there, like⟩ := ih target
    exact ⟨d, .into step (grows.directory here) there, like⟩
  | file step here =>
    cases target
    obtain ⟨f, there, like⟩ := grows.look _ _ (Entry.look_eq_file.mpr here)
    cases f with
    | file content executable => exact ⟨_, .file step (Entry.look_eq_file.mp there), like⟩
    | link _ => cases like
    | directory => cases like
  | link step here kept =>
    cases target
    have there := grows.link (Entry.look_eq_link.mpr here)
    exact ⟨_, .link step (Entry.look_eq_link.mp there) kept, Face.like_refl _⟩
  | follow step here followed _ ih =>
    obtain ⟨d, there, like⟩ := ih target
    exact ⟨d, .follow step (grows.link here) followed there, like⟩

theorem reaches_voids {p : Place} {e : Entry} (h : fs.top.at? p = some e)
    (voids : ∀ s ∈ ss, s = []) : Reaches fs followLast links p ss (.found p e) := by
  induction ss with
  | nil => exact .done h
  | cons s ss ih =>
    obtain ⟨rfl, rest⟩ := List.forall_mem_cons.mp voids
    exact .stay (Path.isVoid_eq_true.mpr (.inl rfl)) (ih rest)

theorem Reaches.created {above : Place} {name : String} {asDirectory : Bool}
    (h : Reaches fs followLast links place ss (.absent above name asDirectory))
    (grows : Grows fs later) (there : later.look (above ++ [name]) = some .directory) :
    ∃ entries, Reaches later followLast links place ss
      (.found (above ++ [name]) (.directory entries)) := by
  generalize target : Target.absent above name asDirectory = t at h
  induction h with
  | done _ => cases target
  | stay void _ ih =>
    obtain ⟨entries, found⟩ := ih target
    exact ⟨entries, .stay void found⟩
  | up _ ih =>
    obtain ⟨entries, found⟩ := ih target
    exact ⟨entries, .up found⟩
  | missing step _ last =>
    cases target
    obtain ⟨entries, here⟩ := Entry.look_eq_directory.mp there
    exact ⟨entries, .into step there (reaches_voids here last)⟩
  | into step here _ ih =>
    obtain ⟨entries, found⟩ := ih target
    exact ⟨entries, .into step (grows.directory here) found⟩
  | file _ _ => cases target
  | link _ _ _ => cases target
  | follow step here followed _ ih =>
    obtain ⟨entries, found⟩ := ih target
    exact ⟨entries, .follow step (grows.link here) followed found⟩

/-- Whether the last link is followed does not matter where no link is reported. -/
theorem Reaches.of_plain {t : Target} (h : Reaches fs false links place ss t)
    (plain : ∀ p target, t ≠ .found p (.link target)) (followLast : Bool) :
    Reaches fs followLast links place ss t := by
  induction h with
  | done here => exact .done here
  | stay void _ ih => exact .stay void (ih plain)
  | up _ ih => exact .up (ih plain)
  | missing step none last => exact .missing step none last
  | into step here _ ih => exact .into step here (ih plain)
  | file step here => exact .file step here
  | link _ _ _ => exact absurd rfl (plain _ _)
  | follow step here followed _ ih =>
    exact .follow step here (.inl (followed.resolve_right Bool.false_ne_true)) (ih plain)

/-- A walk beyond a directory goes on from the directory. -/
theorem Reaches.walk_append {p : Place} {e : Entry}
    (h : Reaches fs true links place ss (.found p e)) (directory : e.isDirectory = true) :
    ∃ left, ∀ followLast more, more ≠ [] →
      fs.walk followLast links place (ss ++ more) = fs.walk followLast left p more := by
  generalize target : Target.found p e = t at h
  induction h with
  | @done links _ _ here =>
    cases target
    exact ⟨links, fun _ _ _ => rfl⟩
  | stay void _ ih =>
    obtain ⟨left, same⟩ := ih target
    exact ⟨left, fun flag more hm => by rw [List.cons_append, walk_void void, same flag more hm]⟩
  | up _ ih =>
    obtain ⟨left, same⟩ := ih target
    exact ⟨left, fun flag more hm => by rw [List.cons_append, walk_up, same flag more hm]⟩
  | missing _ _ _ => cases target
  | into step here _ ih =>
    obtain ⟨left, same⟩ := ih target
    refine ⟨left, fun flag more hm => ?_⟩
    rw [List.cons_append, walk_into step here, same flag more hm]
  | file _ _ => cases target; cases directory
  | link _ _ _ => cases target; cases directory
  | follow step here _ _ ih =>
    obtain ⟨left, same⟩ := ih target
    refine ⟨left, fun flag more hm => ?_⟩
    rw [List.cons_append, walk_follow step here (.inl (List.append_ne_nil_of_right_ne_nil _ hm)),
      ← List.append_assoc, same flag more hm]

end

theorem walk_congr {followLast : Bool} {links : Nat} {place : Place} (s : List Char)
    {rest rest' : List (List Char)}
    (same : ∀ p, fs.walk followLast links p rest = fs.walk followLast links p rest')
    (ends : rest = [] ↔ rest' = []) (voids : (∀ r ∈ rest, r = []) ↔ ∀ r ∈ rest', r = [])
    (onLink : ∀ p target, fs.follow followLast links p target rest =
      fs.follow followLast links p target rest') :
    fs.walk followLast links place (s :: rest) = fs.walk followLast links place (s :: rest') := by
  have last : rest.isEmpty = rest'.isEmpty := by
    rw [Bool.eq_iff_iff, List.isEmpty_iff, List.isEmpty_iff, ends]
  have all : (rest.all fun t => t.isEmpty) = rest'.all fun t => t.isEmpty := by
    rw [Bool.eq_iff_iff]
    simpa using voids
  rw [walk_eq] at same ⊢
  rw [walkWith, walkWith, same, same, last, all]
  simp only [same, onLink]

def EndsMeant (ss : List (List Char)) : Prop := ∀ s ∈ ss.getLast?, isVoid s = false

theorem EndsMeant.tail {s : List Char} {ss : List (List Char)} (h : EndsMeant (s :: ss)) :
    EndsMeant ss := by
  intro t ht
  refine h t ?_
  rw [Option.mem_def] at ht ⊢
  rw [List.getLast?_cons, ht]
  rfl

theorem EndsMeant.exists_meant {ss : List (List Char)} (h : EndsMeant ss) (filled : ss ≠ []) :
    ∃ s ∈ meant ss, s ≠ [] := by
  have last : isVoid (ss.getLast filled) = false := h _ (List.getLast?_eq_some_getLast filled)
  refine ⟨ss.getLast filled, ?_, ?_⟩
  · exact Path.mem_meant.mpr ⟨List.getLast_mem filled, last⟩
  · intro empty
    rw [empty] at last
    cases last

theorem EndsMeant.append_eq_nil_iff {ss : List (List Char)} (h : EndsMeant ss)
    (front : List (List Char)) : front ++ ss = [] ↔ front ++ meant ss = [] := by
  by_cases empty : ss = []
  · rw [empty]
    rfl
  · obtain ⟨last, mem, -⟩ := h.exists_meant empty
    simp only [List.append_eq_nil_iff, empty, List.ne_nil_of_mem mem]

theorem EndsMeant.forall_eq_nil_iff {ss : List (List Char)} (h : EndsMeant ss)
    (front : List (List Char)) :
    (∀ r ∈ front ++ ss, r = []) ↔ ∀ r ∈ front ++ meant ss, r = [] := by
  by_cases empty : ss = []
  · rw [empty]
    rfl
  · obtain ⟨last, mem, filled⟩ := h.exists_meant empty
    refine iff_of_false (fun all => filled (all last ?_)) fun all => filled (all last ?_)
    · exact List.mem_append_right front (Path.mem_meant.mp mem).1
    · exact List.mem_append_right front mem

section

variable {followLast : Bool} {links : Nat} {place : Place} {front rest : List (List Char)}

theorem walk_meant_of_links
    (onLink : ∀ p target front rest, EndsMeant rest →
      fs.follow followLast links p target (front ++ rest) =
      fs.follow followLast links p target (front ++ meant rest))
    (h : EndsMeant rest) :
    fs.walk followLast links place (front ++ rest) =
      fs.walk followLast links place (front ++ meant rest) := by
  induction front generalizing place with
  | cons s front ih =>
    exact walk_congr s (fun p => ih) (h.append_eq_nil_iff front) (h.forall_eq_nil_iff front)
      fun p target => onLink p target front rest h
  | nil =>
    rw [List.nil_append, List.nil_append]
    induction rest generalizing place with
    | nil => rfl
    | cons s rest ih =>
      have same (p : Place) : fs.walk followLast links p rest =
          fs.walk followLast links p (meant rest) := ih h.tail
      by_cases void : isVoid s = true
      · rw [walk_void void, same, Path.meant_cons_of_void void]
      · rw [Path.meant_cons (Bool.not_eq_true _ ▸ void)]
        exact walk_congr s same (h.tail.append_eq_nil_iff []) (h.tail.forall_eq_nil_iff [])
          fun p target => onLink p target [] rest h.tail

/-- Segments that mean nothing may be left out of a walk, but not at its end. -/
theorem walk_meant (h : EndsMeant rest) :
    fs.walk followLast links place (front ++ rest) =
      fs.walk followLast links place (front ++ meant rest) := by
  induction links generalizing place front rest with
  | zero => exact walk_meant_of_links (fun _ _ _ _ _ => rfl) h
  | succ links ih =>
    refine walk_meant_of_links (fun p target front rest h => ?_) h
    cases target with
    | nil => rfl
    | cons c cs =>
      rw [follow, follow, ← List.append_assoc, ← List.append_assoc]
      exact ih h

end

theorem walk_all_meant (fs : System) (followLast : Bool) (links : Nat) (place : Place)
    {ss : List (List Char)} (h : EndsMeant ss) :
    fs.walk followLast links place ss = fs.walk followLast links place (meant ss) := by
  have dropped : fs.walk followLast links place ([] ++ ss) =
      fs.walk followLast links place ([] ++ meant ss) := walk_meant h
  exact dropped

end System
end HybridTemplate.Files
