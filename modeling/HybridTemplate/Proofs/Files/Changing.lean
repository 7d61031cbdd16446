import HybridTemplate.Proofs.Files.Walking

set_option autoImplicit false

namespace HybridTemplate.Files.System

open HybridTemplate.Path (segments)
open Text (Bytes)

variable {fs later : System}

def start (fs : System) (p : Path) : Place := if p.isAbsolute then [] else fs.cwd

theorem Sound.start (h : fs.Sound) (p : Path) : fs.look (fs.start p) = some .directory := by
  unfold System.start
  split
  · exact h.top
  · exact h.cwd

theorem locate_eq_ok {followLast : Bool} {p : Path} {t : Target} :
    fs.locate followLast p = .ok t ↔
      p.text ≠ "" ∧
        Reaches fs followLast linkLimit (fs.start p) (segments p.text.toList) t := by
  rw [locate, ← walk_eq_ok]
  by_cases empty : p.text = ""
  · simp [empty]
  · have filled : p.text.isEmpty = false := by simpa using empty
    rw [filled, if_neg Bool.false_ne_true, System.start]
    exact ⟨fun h => ⟨empty, h⟩, fun h => h.2⟩

theorem holds_of_locate (sound : fs.Sound) {followLast : Bool} {p : Path} {t : Target}
    (h : fs.locate followLast p = .ok t) : fs.Holds t :=
  (locate_eq_ok.mp h).2.holds sound (sound.start p) fun _ hs => Path.not_mem_of_mem_segments hs

theorem entryAt_eq_ok {followLast : Bool} {p : Path} {place : Place} {e : Entry} :
    fs.entryAt followLast p = .ok (place, e) ↔ fs.locate followLast p = .ok (.found place e) := by
  unfold entryAt
  rcases fs.locate followLast p with error | ⟨found, there⟩ | ⟨above, name, asDirectory⟩
  · constructor <;> rintro ⟨⟩
  · constructor <;> rintro ⟨⟩ <;> rfl
  · constructor <;> rintro ⟨⟩

theorem at?_of_entryAt (sound : fs.Sound) {followLast : Bool} {p : Path} {place : Place} {e : Entry}
    (h : fs.entryAt followLast p = .ok (place, e)) : fs.top.at? place = some e :=
  holds_of_locate sound (entryAt_eq_ok.mp h)

theorem read_eq_ok {p : Path} {content : Bytes} :
    fs.read p = .ok content ↔
      ∃ place executable, fs.entryAt true p = .ok (place, .file content executable) := by
  unfold read
  rcases fs.entryAt true p with error | ⟨place, ⟨bytes, executable⟩ | target | entries⟩
  · constructor
    · rintro ⟨⟩
    · rintro ⟨_, _, ⟨⟩⟩
  · constructor
    · rintro ⟨⟩
      exact ⟨place, executable, rfl⟩
    · rintro ⟨_, _, ⟨⟩⟩
      rfl
  · constructor
    · rintro ⟨⟩
    · rintro ⟨_, _, ⟨⟩⟩
  · constructor
    · rintro ⟨⟩
    · rintro ⟨_, _, ⟨⟩⟩

theorem file_of_isFile {p : Path} (h : fs.isFile p = true) :
    ∃ place content executable, fs.entryAt true p = .ok (place, .file content executable) := by
  unfold isFile status? at h
  rcases found : fs.entryAt true p with _ | ⟨place, e⟩
  · rw [found] at h
    cases h
  · rw [found] at h
    cases e with
    | file content executable => exact ⟨place, content, executable, rfl⟩
    | link _ => cases h
    | directory _ => cases h

/-- A path that leads to an entry leads to it in a larger system too. -/
theorem Grows.entryAt (grows : Grows fs later) {followLast : Bool} {p : Path} {place : Place}
    {e : Entry} (h : fs.entryAt followLast p = .ok (place, e)) :
    ∃ d, later.entryAt followLast p = .ok (place, d) ∧ e.face.Like d.face := by
  obtain ⟨filled, reached⟩ := locate_eq_ok.mp (entryAt_eq_ok.mp h)
  obtain ⟨d, again, like⟩ := reached.grows grows
  have same : later.start p = fs.start p := by rw [System.start, System.start, grows.cwd]
  exact ⟨d, entryAt_eq_ok.mpr (locate_eq_ok.mpr ⟨filled, same ▸ again⟩), like⟩

theorem Grows.directoryAt (grows : Grows fs later) {followLast : Bool} {p : Path} {place : Place}
    {entries : List (String × Entry)}
    (h : fs.entryAt followLast p = .ok (place, .directory entries)) :
    ∃ entries', later.entryAt followLast p = .ok (place, .directory entries') := by
  obtain ⟨e, there, like⟩ := grows.entryAt h
  cases e with
  | file _ _ => cases like
  | link _ => cases like
  | directory entries' => exact ⟨entries', there⟩

theorem Grows.fileAt (grows : Grows fs later) {followLast : Bool} {p : Path} {place : Place}
    {content : Bytes} {executable : Bool}
    (h : fs.entryAt followLast p = .ok (place, .file content executable)) :
    ∃ content' executable',
      later.entryAt followLast p = .ok (place, .file content' executable') := by
  obtain ⟨e, there, like⟩ := grows.entryAt h
  cases e with
  | file content' executable' => exact ⟨content', executable', there⟩
  | link _ => cases like
  | directory _ => cases like

/-- Whether a file can be put at a place: there is a directory for it, and it is not in the
place of a directory. -/
def Free (fs : System) (p : Place) : Prop :=
  ∃ above name, p = above ++ [name] ∧ fs.look above = some .directory ∧ IsName name ∧
    fs.look p ≠ some .directory

theorem free_of_absent {above : Place} {name : String} {asDirectory : Bool}
    (h : fs.Holds (.absent above name asDirectory)) : fs.Free (above ++ [name]) := by
  obtain ⟨directory, none, named⟩ := h
  refine ⟨above, name, rfl, directory, named, ?_⟩
  rw [none]
  exact (Option.some_ne_none Face.directory).symm

theorem free_of_file (sound : fs.Sound) {p : Place} {content : Bytes} {executable : Bool}
    (h : fs.top.at? p = some (.file content executable)) : fs.Free p := by
  have seen : fs.look p = some (.file content executable) := Entry.look_eq_file.mpr h
  rcases List.eq_nil_or_concat p with rfl | ⟨above, name, rfl⟩
  · rw [sound.top] at seen
    cases seen
  · rw [List.concat_eq_append] at seen ⊢
    have found : fs.look (above ++ [name]) ≠ none := Option.ne_none_iff_exists'.mpr ⟨_, seen⟩
    refine ⟨above, name, rfl, Entry.look_below found (List.cons_ne_nil name []),
      sound.isName found, fun directory => ?_⟩
    cases seen.symm.trans directory

def TakesFile : Target → Bool
  | .found _ e => e.isFile
  | .absent _ _ asDirectory => !asDirectory

theorem Holds.free {t : Target} (h : fs.Holds t) (sound : fs.Sound) (takes : TakesFile t = true) :
    fs.Free t.place ∧ ∀ link, fs.look t.place ≠ some (.link link) := by
  cases t with
  | found p e =>
    cases e with
    | file content executable =>
      refine ⟨free_of_file sound h, fun link there => ?_⟩
      cases (Entry.look_eq_file.mpr h).symm.trans there
    | link target => cases takes
    | directory entries => cases takes
  | absent above name asDirectory =>
    refine ⟨free_of_absent h, fun link there => ?_⟩
    cases h.2.1.symm.trans there

/-- One place holds something new, and all else is as before. -/
structure Sets (fs : System) (p : Place) (f : Face) (later : System) : Prop where
  free : fs.Free p
  sound : later.Sound
  cwd : later.cwd = fs.cwd
  look : later.look = Function.update fs.look p (some f)

theorem Sets.look_of_ne {p q : Place} {f : Face} (h : Sets fs p f later) (ne : q ≠ p) :
    later.look q = fs.look q := by
  rw [h.look, Function.update_of_ne ne]

theorem Sets.look_self {p : Place} {f : Face} (h : Sets fs p f later) :
    later.look p = some f := by
  rw [h.look, Function.update_self]

theorem Free.sets {p : Place} (free : fs.Free p) (sound : fs.Sound) {e : Entry} (bare : e.Bare)
    (well : e.isWellFormed = true) : Sets fs p e.face (fs.put p e) := by
  have found : fs.Free p := free
  obtain ⟨above, name, rfl, directory, named, leaf⟩ := free
  have look : (fs.put (above ++ [name]) e).look =
      Function.update fs.look (above ++ [name]) (some e.face) :=
    Entry.look_put directory leaf bare
  refine ⟨found, ⟨Entry.isWellFormed_put sound.wellFormed named well, ?_⟩, rfl, look⟩
  have apart : fs.cwd ≠ above ++ [name] := fun same => leaf (same ▸ sound.cwd)
  exact (congrFun look fs.cwd).trans ((Function.update_of_ne apart _ _).trans sound.cwd)

theorem Sets.grows_file {p : Place} {content : Bytes} {executable : Bool}
    (h : Sets fs p (.file content executable) later)
    (linkless : ∀ target, fs.look p ≠ some (.link target)) : Grows fs later where
  cwd := h.cwd
  look := by
    intro q f hf
    by_cases here : q = p
    · subst here
      refine ⟨_, h.look_self, ?_⟩
      obtain ⟨-, -, -, -, -, leaf⟩ := h.free
      cases f with
      | file _ _ => trivial
      | link target => exact absurd hf (linkless target)
      | directory => exact absurd hf leaf
    · exact ⟨f, (h.look_of_ne here).trans hf, f.like_refl⟩

theorem Sets.grows_new {p : Place} {f : Face} (h : Sets fs p f later) (new : fs.look p = none) :
    Grows fs later where
  cwd := h.cwd
  look := by
    intro q g hg
    have apart : q ≠ p := by
      rintro rfl
      rw [new] at hg
      cases hg
    exact ⟨g, (h.look_of_ne apart).trans hg, g.like_refl⟩

/-- A file that is written stands where its path leads. -/
theorem write_eq_ok (sound : fs.Sound) {p : Path} {content : Bytes}
    (h : fs.write p content = .ok later) :
    ∃ t executable, fs.locate true p = .ok t ∧ (∀ link, fs.look t.place ≠ some (.link link)) ∧
      Sets fs t.place (.file content executable) later := by
  unfold write at h
  cases located : fs.locate true p with
  | error e => rw [located] at h; cases h
  | ok t =>
    rw [located] at h
    have result : TakesFile t = true ∧ ∃ x, later = fs.put t.place (.file content x) := by
      rcases t with ⟨place, ⟨old, x⟩ | link | entries⟩ | ⟨above, name, _ | _⟩ <;> cases h
      · exact ⟨rfl, x, rfl⟩
      · exact ⟨rfl, false, rfl⟩
    obtain ⟨takes, x, rfl⟩ := result
    obtain ⟨free, plain⟩ := (holds_of_locate sound located).free sound takes
    exact ⟨t, x, rfl, plain, free.sets sound (Entry.bare_file content x) rfl⟩

/-- A copy stands where its path leads and has the content of the source, unless the two are
one file. -/
theorem copy_eq_ok (sound : fs.Sound) {source target : Path}
    (h : fs.copy source target = .ok later) :
    ∃ origin content executable t,
      fs.entryAt true source = .ok (origin, .file content executable) ∧
      fs.locate true target = .ok t ∧ (∀ link, fs.look t.place ≠ some (.link link)) ∧
      Sets fs t.place (.file (if t.place = origin then [] else content) executable) later := by
  unfold copy at h
  rcases read : fs.entryAt true source with error | ⟨origin, e⟩
  · rw [read] at h
    cases h
  rcases e with ⟨content, executable⟩ | link | entries
  · cases located : fs.locate true target with
    | error e =>
      simp only [bind, Except.bind, read, located] at h
      cases h
    | ok t =>
      simp only [bind, Except.bind, read, located] at h
      have holds := holds_of_locate sound located
      have result : TakesFile t = true ∧
          later = fs.put t.place (.file (if t.place = origin then [] else content) executable) := by
        rcases t with ⟨place, ⟨old, x⟩ | link | entries⟩ | ⟨above, name, _ | _⟩ <;> cases h
        · exact ⟨rfl, rfl⟩
        · have apart : above ++ [name] ≠ origin := by
            rintro rfl
            have there := at?_of_entryAt sound read
            cases (Entry.look_eq_none.mp holds.2.1).symm.trans there
          exact ⟨rfl, by rw [Target.place, if_neg apart]⟩
      obtain ⟨takes, rfl⟩ := result
      obtain ⟨free, plain⟩ := holds.free sound takes
      exact ⟨origin, content, executable, t, rfl, rfl, plain,
        free.sets sound (Entry.bare_file _ executable) rfl⟩
  · rw [read] at h; cases h
  · rw [read] at h; cases h

theorem makeDirectory_eq_ok (sound : fs.Sound) {p : Path} (h : fs.makeDirectory p = .ok later) :
    ∃ above name asDirectory,
      fs.locate false (withoutEndSlashes p) = .ok (.absent above name asDirectory) ∧
      fs.look (above ++ [name]) = none ∧ Sets fs (above ++ [name]) .directory later := by
  unfold makeDirectory at h
  rcases located : fs.locate false (withoutEndSlashes p)
    with error | ⟨place, e⟩ | ⟨above, name, asDirectory⟩
  · rw [located] at h; cases h
  · rw [located] at h; cases h
  · rw [located] at h
    cases h
    have absent := holds_of_locate sound located
    exact ⟨above, name, asDirectory, rfl, absent.2.1,
      (free_of_absent absent).sets sound Entry.bare_directory rfl⟩

theorem withoutEndSlashes_spec (p : Path) :
    ∃ k, p.text.toList = (withoutEndSlashes p).text.toList ++ List.replicate k '/' ∧
      (p.text ≠ "" → (withoutEndSlashes p).text ≠ "") := by
  have slashes : ∀ c ∈ p.text.toList.reverse.takeWhile (· == '/'), c = '/' := fun c hc =>
    beq_iff_eq.mp (List.all_eq_true.mp (List.all_takeWhile) c hc)
  have whole := List.takeWhile_append_dropWhile (p := (· == '/')) (l := p.text.toList.reverse)
  rw [List.eq_replicate_of_mem slashes] at whole
  have turned := congrArg List.reverse whole
  rw [List.reverse_append, List.reverse_replicate, List.reverse_reverse] at turned
  unfold withoutEndSlashes
  split
  · rename_i none
    split
    · exact ⟨0, by simp, id⟩
    · rename_i filled
      rw [none, List.reverse_nil, List.nil_append] at turned
      cases count : (p.text.toList.reverse.takeWhile (· == '/')).length with
      | zero =>
        rw [count] at turned
        exact absurd (String.toList_injective turned.symm) (by simpa using filled)
      | succ k =>
        rw [count] at turned
        exact ⟨k, turned.symm, fun _ => by decide⟩
  · rename_i kept more
    refine ⟨(p.text.toList.reverse.takeWhile (· == '/')).length, ?_, fun _ empty => more ?_⟩
    · rw [String.toList_ofList]
      exact turned.symm
    · rw [← String.toList_inj, String.toList_ofList] at empty
      exact List.reverse_eq_nil_iff.mp empty

theorem entryAt_slashes (sound : fs.Sound) {p q : Path} {k : Nat}
    (text : q.text.toList = p.text.toList ++ List.replicate k '/') {s : Place}
    {entries : List (String × Entry)} (found : fs.entryAt true p = .ok (s, .directory entries)) :
    fs.entryAt true q = .ok (s, .directory entries) := by
  have here := at?_of_entryAt sound found
  obtain ⟨filled, reached⟩ := locate_eq_ok.mp (entryAt_eq_ok.mp found)
  have chars : p.text.toList ≠ [] := fun none => filled (String.toList_injective none)
  have start : fs.start q = fs.start p := by
    rw [System.start, System.start, Path.isAbsolute, Path.isAbsolute, text,
      List.head?_append_of_ne_nil _ chars]
  refine entryAt_eq_ok.mpr (locate_eq_ok.mpr ⟨fun empty => chars ?_, ?_⟩)
  · rw [empty] at text
    exact (List.append_eq_nil_iff.mp text.symm).1
  · rw [start, text, Path.segments_append_slashes]
    cases k with
    | zero => simpa using reached
    | succ k =>
      obtain ⟨left, onward⟩ := reached.walk_append rfl
      rw [← walk_eq_ok, onward true _ (by simp)]
      exact (reaches_voids here fun _ hs => List.eq_of_mem_replicate hs).walk_eq

theorem entryAt_of_makeDirectory (sound : fs.Sound) {p : Path}
    (h : fs.makeDirectory p = .ok later) :
    ∃ s entries, later.entryAt true p = .ok (s, .directory entries) ∧ fs.look s = none ∧
      Sets fs s .directory later := by
  obtain ⟨above, name, asDirectory, located, new, sets⟩ := makeDirectory_eq_ok sound h
  obtain ⟨filled, absent⟩ := locate_eq_ok.mp located
  have grows := sets.grows_new new
  obtain ⟨entries, created⟩ := absent.created grows sets.look_self
  have found : later.entryAt true (withoutEndSlashes p) =
      .ok (above ++ [name], .directory entries) := by
    refine entryAt_eq_ok.mpr (locate_eq_ok.mpr ⟨filled, ?_⟩)
    rw [System.start, grows.cwd]
    exact created.of_plain (fun _ _ => by simp) true
  refine ⟨above ++ [name], entries, ?_, new, sets⟩
  obtain ⟨k, text, -⟩ := withoutEndSlashes_spec p
  exact entryAt_slashes sets.sound text found

theorem removeFile_eq_ok {p : Path} (h : fs.removeFile p = .ok later) :
    ∃ place e, fs.entryAt false p = .ok (place, e) ∧ e.isDirectory = false ∧
      later = { fs with top := fs.top.erase place } := by
  unfold removeFile at h
  rcases found : fs.entryAt false p with error | ⟨place, ⟨content, executable⟩ | target | entries⟩
  · rw [found] at h; cases h
  · rw [found] at h; cases h
    exact ⟨place, _, rfl, rfl, rfl⟩
  · rw [found] at h; cases h
    exact ⟨place, _, rfl, rfl, rfl⟩
  · rw [found] at h; cases h

theorem sound_removeFile (sound : fs.Sound) {p : Path} (h : fs.removeFile p = .ok later) :
    later.Sound := by
  obtain ⟨place, e, found, plain, rfl⟩ := removeFile_eq_ok h
  refine ⟨Entry.isWellFormed_erase sound.wellFormed, ?_⟩
  have here := at?_of_entryAt sound found
  have apart : ¬ place <+: fs.cwd := by
    rintro ⟨q, cwd⟩
    have directory : fs.look place = some .directory := by
      by_cases same : q = []
      · rw [same, List.append_nil] at cwd
        exact cwd ▸ sound.cwd
      · refine Entry.look_below (q := q) ?_ same
        rw [cwd]
        exact Option.ne_none_iff_exists'.mpr ⟨_, sound.cwd⟩
    obtain ⟨entries, there⟩ := Entry.look_eq_directory.mp directory
    cases here.symm.trans there
    cases plain
  exact (Entry.look_erase apart).trans sound.cwd

/-- Directories appear where nothing was, and all else is as before. -/
structure AddsDirectories (fs later : System) : Prop where
  sound : later.Sound
  cwd : later.cwd = fs.cwd
  look : ∀ p, later.look p = fs.look p ∨ (fs.look p = none ∧ later.look p = some .directory)

theorem AddsDirectories.refl (sound : fs.Sound) : AddsDirectories fs fs :=
  ⟨sound, rfl, fun _ => .inl rfl⟩

theorem AddsDirectories.trans {middle : System} (h : AddsDirectories fs middle)
    (k : AddsDirectories middle later) : AddsDirectories fs later where
  sound := k.sound
  cwd := k.cwd.trans h.cwd
  look := by
    intro p
    rcases h.look p with same | ⟨none, directory⟩ <;> rcases k.look p with same' | ⟨none', made⟩
    · exact .inl (same'.trans same)
    · exact .inr ⟨same.symm.trans none', made⟩
    · exact .inr ⟨none, same'.trans directory⟩
    · exact .inr ⟨none, made⟩

theorem AddsDirectories.grows (h : AddsDirectories fs later) : Grows fs later where
  cwd := h.cwd
  look := by
    intro p f hf
    rcases h.look p with same | ⟨none, -⟩
    · exact ⟨f, same.trans hf, f.like_refl⟩
    · cases none.symm.trans hf

/-- What is no directory is neither made nor changed. -/
theorem AddsDirectories.look_iff (h : AddsDirectories fs later) {p : Place} {f : Face}
    (plain : f ≠ .directory) : later.look p = some f ↔ fs.look p = some f := by
  rcases h.look p with same | ⟨none, directory⟩
  · rw [same]
  · rw [none, directory]
    simpa using plain.symm

theorem Sets.addsDirectories {p : Place} (h : Sets fs p .directory later)
    (new : fs.look p = none) : AddsDirectories fs later where
  sound := h.sound
  cwd := h.cwd
  look := by
    intro q
    by_cases here : q = p
    · subst here
      exact .inr ⟨new, h.look_self⟩
    · exact .inl (h.look_of_ne here)

theorem addsDirectories_makeDirectory (sound : fs.Sound) {p : Path}
    (h : fs.makeDirectory p = .ok later) : AddsDirectories fs later := by
  obtain ⟨above, name, _, _, new, sets⟩ := makeDirectory_eq_ok sound h
  exact sets.addsDirectories new

theorem addsDirectories_makeDirectoriesFrom (sound : fs.Sound) (depth : Nat) (p : Path) :
    AddsDirectories fs (fs.makeDirectoriesFrom depth p).1 := by
  induction depth generalizing p with
  | zero => exact .refl sound
  | succ depth ih =>
    rw [makeDirectoriesFrom]
    split
    · exact .refl sound
    split
    · rename_i made
      exact addsDirectories_makeDirectory sound made
    · split
      · exact .refl sound
      · rename_i above _
        have parents := ih above
        split
        · rename_i stopped
          rwa [stopped] at parents
        · rename_i middle complete
          rw [complete] at parents
          split
          · rename_i made
            exact parents.trans (addsDirectories_makeDirectory parents.sound made)
          · exact parents
    · exact .refl sound

/-- Making directories adds directories only, even where it fails. -/
theorem addsDirectories_makeDirectories (sound : fs.Sound) (p : Path) :
    AddsDirectories fs (fs.makeDirectories p).1 :=
  addsDirectories_makeDirectoriesFrom sound _ p

end HybridTemplate.Files.System
