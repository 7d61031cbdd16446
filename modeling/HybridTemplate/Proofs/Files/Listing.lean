import HybridTemplate.Files.Walk
import HybridTemplate.Proofs.Files.Below

set_option autoImplicit false

namespace HybridTemplate.Files

open HybridTemplate.Path (Component IsPlain)
open Text (Bytes)

theorem mem_filesFromAll {p f : Path} {entries : List (String × Entry)} :
    f ∈ filesFromAll p entries ↔ ∃ x ∈ entries, f ∈ filesFrom (p.join ⟨x.1⟩) x.2 := by
  induction entries with
  | nil => simp [filesFromAll]
  | cons x entries ih =>
    obtain ⟨name, e⟩ := x
    rw [filesFromAll, List.mem_append, ih, List.exists_mem_cons_iff]

mutual

theorem exists_of_mem_filesFrom {p f : Path} {e : Entry} (well : e.isWellFormed = true)
    (h : f ∈ filesFrom p e) :
    ∃ names content executable, e.at? names = some (.file content executable) ∧
      f = p.below names := by
  cases e with
  | file content executable =>
    rw [filesFrom, List.mem_singleton] at h
    exact ⟨[], content, executable, rfl, h⟩
  | link target => cases h
  | directory entries =>
    rw [filesFrom] at h
    obtain ⟨sorted, inner⟩ := (Entry.isWellFormed_directory entries).mp well
    obtain ⟨name, c, names, content, executable, mem, here, rfl⟩ :=
      exists_of_mem_filesFromAll (fun x hx => (inner x hx).2) h
    refine ⟨name :: names, content, executable, ?_, rfl⟩
    rw [Entry.at?_cons, Entry.child?, Entry.lookup_of_mem sorted mem]
    exact here

theorem exists_of_mem_filesFromAll {p f : Path} {entries : List (String × Entry)}
    (well : ∀ x ∈ entries, x.2.isWellFormed = true) (h : f ∈ filesFromAll p entries) :
    ∃ name c names content executable, (name, c) ∈ entries ∧
      c.at? names = some (.file content executable) ∧ f = p.below (name :: names) := by
  cases entries with
  | nil => cases h
  | cons x entries =>
    obtain ⟨name, c⟩ := x
    obtain ⟨first, rest⟩ := List.forall_mem_cons.mp well
    rw [filesFromAll, List.mem_append] at h
    rcases h with h | h
    · obtain ⟨names, content, executable, here, rfl⟩ := exists_of_mem_filesFrom first h
      exact ⟨name, c, names, content, executable, List.mem_cons_self, here, rfl⟩
    · obtain ⟨other, d, names, content, executable, mem, here, rfl⟩ :=
        exists_of_mem_filesFromAll rest h
      exact ⟨other, d, names, content, executable, List.mem_cons_of_mem _ mem, here, rfl⟩

end

theorem mem_filesFrom_of_at? {p : Path} {e : Entry} {names : Place} {content : Bytes}
    {executable : Bool} (h : e.at? names = some (.file content executable)) :
    p.below names ∈ filesFrom p e := by
  induction names generalizing p e with
  | nil =>
    cases h
    exact List.mem_singleton_self p
  | cons name names ih =>
    rw [Entry.at?_cons] at h
    obtain ⟨c, found, here⟩ := Option.bind_eq_some_iff.mp h
    cases e with
    | file _ _ => cases found
    | link _ => cases found
    | directory entries =>
      rw [filesFrom, mem_filesFromAll]
      exact ⟨(name, c), Entry.mem_of_lookup found, ih here⟩

namespace System

variable {fs : System}

theorem Sound.names (sound : fs.Sound) {p names : Place} (found : fs.look (p ++ names) ≠ none) :
    ∀ n ∈ names, IsName n := by
  intro n hn
  obtain ⟨before, after, rfl⟩ := List.append_of_mem hn
  suffices inner : fs.look ((p ++ before) ++ [n]) ≠ none from sound.isName inner
  by_cases last : after = []
  · rw [last] at found
    rwa [List.append_assoc]
  · have above : fs.look ((p ++ before) ++ [n]) = some .directory := by
      refine Entry.look_below (q := after) ?_ last
      rw [List.append_assoc, List.append_assoc, List.singleton_append]
      exact found
    rw [above]
    exact Option.some_ne_none Face.directory

theorem Sound.isPlain (sound : fs.Sound) {p names : Place} {e : Entry}
    (here : fs.top.at? (p ++ names) = some e) : ∀ n ∈ names, IsPlain n :=
  fun n hn => (sound.names (Entry.look_ne_none here) n hn).1

theorem entryAt_below (sound : fs.Sound) {base p : Path} {s names : Place} {e : Entry}
    {entries : List (String × Entry)} (found : fs.entryAt true base = .ok (s, .directory entries))
    (here : fs.top.at? (s ++ names) = some e) (plain : e.isLink = false) (filled : names ≠ [])
    (components : p.components = base.components ++ names.map Component.normal)
    (closed : Closed p) (followLast : Bool) : fs.entryAt followLast p = .ok (s ++ names, e) := by
  have steps : (names.map Component.normal).filterMap Component.step? = names.map String.toList :=
    Path.filterMap_step?_normal names
  obtain ⟨left, onward⟩ := locate_below found
  rw [entryAt_eq_ok,
    onward p _ followLast components closed (by rw [steps]; simpa using filled), steps]
  exact (reaches_names here plain (sound.names (Entry.look_ne_none here))).walk_eq

/-- A walk that does not follow the last link stops at the link, or where the other does. -/
theorem Reaches.of_following {links : Nat} {place : Place} {ss : List (List Char)} {t : Target}
    (h : Reaches fs true links place ss t) :
    Reaches fs false links place ss t ∨
      ∃ p target, Reaches fs false links place ss (.found p (.link target)) := by
  induction h with
  | done here => exact .inl (.done here)
  | stay void _ ih => exact ih.imp (.stay void) fun ⟨p, target, on⟩ => ⟨p, target, .stay void on⟩
  | up _ ih => exact ih.imp .up fun ⟨p, target, on⟩ => ⟨p, target, .up on⟩
  | missing step none last => exact .inl (.missing step none last)
  | into step here _ ih =>
    exact ih.imp (.into step here) fun ⟨p, target, on⟩ => ⟨p, target, .into step here on⟩
  | file step here => exact .inl (.file step here)
  | link _ _ kept => cases kept
  | @follow _ place s rest _ _ _ step here followed _ ih =>
    by_cases last : rest = []
    · subst last
      exact .inr ⟨_, _, .link step (Entry.look_eq_link.mp here) rfl⟩
    · exact ih.imp (.follow step here (.inl last)) fun ⟨p, target, on⟩ =>
        ⟨p, target, .follow step here (.inl last) on⟩

theorem filesBelow_eq {p : Path} {s : Place} {entries : List (String × Entry)}
    (found : fs.entryAt true p = .ok (s, .directory entries)) :
    fs.filesBelow p = filesFromAll p entries := by
  obtain ⟨filled, reached⟩ := locate_eq_ok.mp (entryAt_eq_ok.mp found)
  unfold filesBelow
  rcases reached.of_following with same | ⟨q, target, link⟩
  · rw [entryAt_eq_ok.mpr (locate_eq_ok.mpr ⟨filled, same⟩)]
    rfl
  · rw [entryAt_eq_ok.mpr (locate_eq_ok.mpr ⟨filled, link⟩), found]

/-- The listing of a directory has the regular files below it and nothing else. -/
theorem mem_filesBelow (sound : fs.Sound) {p f : Path} {s : Place} {entries : List (String × Entry)}
    (found : fs.entryAt true p = .ok (s, .directory entries)) :
    f ∈ fs.filesBelow p ↔
      ∃ names content executable, names ≠ [] ∧
        fs.top.at? (s ++ names) = some (.file content executable) ∧ f = p.below names := by
  have here : fs.top.at? s = some (.directory entries) := at?_of_entryAt sound found
  have well : (Entry.directory entries).isWellFormed = true :=
    Entry.isWellFormed_of_at? sound.wellFormed here
  have below (names : Place) : fs.top.at? (s ++ names) = (Entry.directory entries).at? names := by
    rw [Entry.at?_append, here, Option.bind_some]
  have listing : fs.filesBelow p = filesFrom p (.directory entries) :=
    (filesBelow_eq found).trans (by rw [filesFrom])
  rw [listing]
  constructor
  · intro listed
    obtain ⟨names, content, executable, there, rfl⟩ := exists_of_mem_filesFrom well listed
    refine ⟨names, content, executable, ?_, (below names).trans there, rfl⟩
    rintro rfl
    cases there
  · rintro ⟨names, content, executable, -, there, rfl⟩
    exact mem_filesFrom_of_at? ((below names).symm.trans there)

theorem toList_intercalate_slash (names : List String) :
    (String.intercalate "/" names).toList = Path.joinSegments (names.map String.toList) := by
  rw [Path.joinSegments_eq_intercalate, String.toList_intercalate]
  rfl

theorem components_placePath {place : Place} (plain : ∀ n ∈ place, IsPlain n) :
    (placePath place).components = .root :: place.map Component.normal := by
  have text : (placePath place).text.toList =
      '/' :: Path.joinSegments (place.map String.toList) := by
    rw [placePath, String.toList_append, toList_intercalate_slash]
    rfl
  have absolute : (placePath place).isAbsolute = true := by
    rw [Path.isAbsolute, text]
    rfl
  have steps : (placePath place).steps = place.map String.toList := by
    have slashless : ∀ t ∈ place.map String.toList, '/' ∉ t := by
      intro t ht
      obtain ⟨n, hn, rfl⟩ := List.mem_map.mp ht
      exact (plain n hn).2.2
    have kept : Path.meant (place.map String.toList) = place.map String.toList := by
      refine List.filter_eq_self.mpr fun t ht => ?_
      obtain ⟨n, hn, rfl⟩ := List.mem_map.mp ht
      rw [(plain n hn).1]
      rfl
    rw [Path.steps, text, Path.segments, if_pos rfl, Path.meant_cons_of_void rfl]
    by_cases empty : place = []
    · subst empty
      rfl
    · rw [Path.segments_joinSegments (by simpa using empty) slashless, kept]
  rw [Path.components_eq, Path.leading, absolute, if_pos rfl, steps, List.singleton_append,
    List.map_map]
  exact congrArg _ (List.map_congr_left fun n hn => (plain n hn).componentOf_eq)

theorem canonical?_eq {p : Path} {place : Place} {e : Entry}
    (found : fs.entryAt true p = .ok (place, e)) : fs.canonical? p = some (placePath place) := by
  rw [canonical?, found]
  rfl

theorem startsWith_placePath {p q : Place} (hp : ∀ n ∈ p, IsPlain n) (hq : ∀ n ∈ q, IsPlain n) :
    (placePath p).startsWith (placePath q) = true ↔ q <+: p := by
  rw [Path.startsWith_iff, components_placePath hp, components_placePath hq, List.cons_prefix_cons]
  constructor
  · rintro ⟨-, h⟩
    exact (List.prefix_map_iff_of_injective fun _ _ => Component.normal.inj).mp h
  · exact fun h => ⟨rfl, h.map _⟩

end System
end HybridTemplate.Files
