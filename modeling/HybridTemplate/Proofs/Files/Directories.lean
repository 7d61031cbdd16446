import HybridTemplate.Proofs.Files.Changing

set_option autoImplicit false

namespace HybridTemplate.Files.System

open HybridTemplate.Path (isVoid segments meant)

variable {fs : System} {links : Nat} {place p : Place} {entries : List (String × Entry)}

section

variable {front rest ss : List (List Char)} {v : List Char} {t : Target}

theorem Reaches.drop_void (void : isVoid v = true)
    (h : Reaches fs true links place (front ++ v :: rest) t) :
    ∃ t', Reaches fs true links place (front ++ rest) t' ∧ t'.place = t.place ∧
      ∀ q e, t = .found q e → t' = .found q e := by
  generalize whole : front ++ v :: rest = ss at h
  induction h generalizing front with
  | done _ => simp at whole
  | stay stays on ih =>
    rcases front with _ | ⟨s, front⟩
    · cases whole
      exact ⟨_, on, rfl, fun _ _ found => found⟩
    · cases whole
      obtain ⟨t', there, same⟩ := ih rfl
      exact ⟨t', .stay stays there, same⟩
  | up _ ih =>
    rcases front with _ | ⟨s, front⟩
    · cases whole
      cases void
    · cases whole
      obtain ⟨t', there, same⟩ := ih rfl
      exact ⟨t', .up there, same⟩
  | missing step none last =>
    rcases front with _ | ⟨s, front⟩
    · cases whole
      cases step.1.symm.trans void
    · cases whole
      refine ⟨_, .missing step none fun r hr => last r ?_, rfl, nofun⟩
      exact (List.Sublist.append_left (List.sublist_cons_self v rest) front).subset hr
  | into step here _ ih =>
    rcases front with _ | ⟨s, front⟩
    · cases whole
      cases step.1.symm.trans void
    · cases whole
      obtain ⟨t', there, same⟩ := ih rfl
      exact ⟨t', .into step here there, same⟩
  | file step _ =>
    rcases front with _ | ⟨s, front⟩
    · cases whole
      cases step.1.symm.trans void
    · simp at whole
  | link _ _ kept => cases kept
  | follow step here _ _ ih =>
    rcases front with _ | ⟨s, front⟩
    · cases whole
      cases step.1.symm.trans void
    · cases whole
      obtain ⟨t', there, same⟩ := ih (List.append_assoc _ front (v :: rest))
      rw [List.append_assoc] at there
      exact ⟨t', .follow step here (.inr rfl) there, same⟩

theorem Reaches.drop_voids (h : Reaches fs true links place (front ++ ss) t) :
    ∃ t', Reaches fs true links place (front ++ meant ss) t' ∧ t'.place = t.place ∧
      ∀ q e, t = .found q e → t' = .found q e := by
  induction ss generalizing front t with
  | nil => exact ⟨t, h, rfl, fun _ _ found => found⟩
  | cons s ss ih =>
    by_cases void : isVoid s = true
    · obtain ⟨t', there, same, found⟩ := h.drop_void void
      obtain ⟨t'', last, same', found'⟩ := ih there
      rw [Path.meant_cons_of_void void]
      exact ⟨t'', last, same'.trans same, fun q e here => found' q e (found q e here)⟩
    · rw [Path.meant_cons (Bool.not_eq_true _ ▸ void), List.append_cons]
      rw [List.append_cons] at h
      exact ih h

/-- A walk goes on along the steps that mean something. -/
theorem Reaches.along_meant (h : Reaches fs true links place ss t) :
    ∃ t', Reaches fs true links place (meant ss) t' ∧ t'.place = t.place ∧
      ∀ q e, t = .found q e → t' = .found q e := by
  have whole : Reaches fs true links place ([] ++ ss) t := h
  exact whole.drop_voids

/-- On the way to a directory it may be put in. -/
theorem Reaches.insert_void (void : isVoid v = true)
    (h : Reaches fs true links place (front ++ rest) (.found p (.directory entries))) :
    Reaches fs true links place (front ++ v :: rest) (.found p (.directory entries)) := by
  generalize whole : front ++ rest = ss at h
  generalize target : Target.found p (.directory entries) = t at h
  induction h generalizing front with
  | done here =>
    obtain ⟨rfl, rfl⟩ := List.append_eq_nil_iff.mp whole
    exact .stay void (.done here)
  | stay stays on ih =>
    rcases front with _ | ⟨s, front⟩
    · cases whole
      exact .stay void (.stay stays on)
    · cases whole
      exact .stay stays (ih rfl target)
  | up on ih =>
    rcases front with _ | ⟨s, front⟩
    · cases whole
      exact .stay void (.up on)
    · cases whole
      exact .up (ih rfl target)
  | missing _ _ _ => cases target
  | into step here on ih =>
    rcases front with _ | ⟨s, front⟩
    · cases whole
      exact .stay void (.into step here on)
    · cases whole
      exact .into step here (ih rfl target)
  | file _ _ => cases target
  | link _ _ kept => cases kept
  | follow step here followed on ih =>
    rcases front with _ | ⟨s, front⟩
    · cases whole
      exact .stay void (.follow step here followed on)
    · cases whole
      have there := ih (List.append_assoc _ front rest) target
      rw [List.append_assoc] at there
      exact .follow step here (.inr rfl) there

theorem Reaches.insert_voids
    (h : Reaches fs true links place (front ++ meant ss) (.found p (.directory entries))) :
    Reaches fs true links place (front ++ ss) (.found p (.directory entries)) := by
  induction ss generalizing front with
  | nil => exact h
  | cons s ss ih =>
    by_cases void : isVoid s = true
    · rw [Path.meant_cons_of_void void] at h
      exact (ih h).insert_void void
    · rw [Path.meant_cons (Bool.not_eq_true _ ▸ void), List.append_cons] at h
      rw [List.append_cons]
      exact ih h

end

theorem entryAt_eq_directory {path : Path} :
    fs.entryAt true path = .ok (p, .directory entries) ↔
      path.text ≠ "" ∧
        Reaches fs true linkLimit (fs.start path) path.steps (.found p (.directory entries)) := by
  rw [entryAt_eq_ok, locate_eq_ok]
  refine and_congr_right fun _ => ⟨fun reached => ?_, fun reached => ?_⟩
  · obtain ⟨t, there, -, found⟩ := reached.along_meant
    rw [found p _ rfl] at there
    exact there
  · have whole : Reaches fs true linkLimit (fs.start path) ([] ++ Path.meant _)
        (.found p (.directory entries)) := reached
    exact whole.insert_voids

/-- A path to a directory is looked up by what it means. -/
theorem directoryAt_of_components {path path' : Path} (same : path'.components = path.components)
    (found : fs.entryAt true path = .ok (p, .directory entries)) :
    fs.entryAt true path' = .ok (p, .directory entries) := by
  obtain ⟨filled, reached⟩ := entryAt_eq_directory.mp found
  refine entryAt_eq_directory.mpr ⟨fun empty => filled ?_, ?_⟩
  · exact Path.components_eq_nil.mp (same ▸ Path.components_eq_nil.mpr empty)
  · rwa [start, Path.isAbsolute_of_components same, Path.steps_of_components same]

theorem Reaches.exists_unfollowed {ss : List (List Char)}
    (h : Reaches fs true links place ss (.found p (.directory entries))) :
    ∃ q e, Reaches fs false links place ss (.found q e) := by
  generalize target : Target.found p (.directory entries) = t at h
  induction h with
  | done here => exact ⟨_, _, .done here⟩
  | stay void _ ih =>
    obtain ⟨q, e, there⟩ := ih target
    exact ⟨q, e, .stay void there⟩
  | up _ ih =>
    obtain ⟨q, e, there⟩ := ih target
    exact ⟨q, e, .up there⟩
  | missing _ _ _ => cases target
  | into step here _ ih =>
    obtain ⟨q, e, there⟩ := ih target
    exact ⟨q, e, .into step here there⟩
  | file step here => exact ⟨_, _, .file step here⟩
  | link _ _ kept => cases kept
  | @follow _ place s rest _ _ _ step here _ _ ih =>
    by_cases last : rest = []
    · subst last
      exact ⟨_, _, .link step (Entry.look_eq_link.mp here) rfl⟩
    · obtain ⟨q, e, there⟩ := ih target
      exact ⟨q, e, .follow step here (.inl last) there⟩

theorem components_withoutEndSlashes (path : Path) :
    (withoutEndSlashes path).components = path.components := by
  obtain ⟨k, text, filled⟩ := withoutEndSlashes_spec path
  by_cases empty : path.text = ""
  · rw [empty] at text
    have none : (withoutEndSlashes path).text = "" :=
      String.toList_injective (List.append_eq_nil_iff.mp text.symm).1
    rw [Path.components_eq_nil.mpr empty, Path.components_eq_nil.mpr none]
  · exact (Path.components_append_slashes (filled empty) text).symm

theorem makeDirectory_of_found {path path' : Path} (same : path'.components = path.components)
    (found : fs.entryAt true path = .ok (p, .directory entries)) :
    fs.makeDirectory path' = .error .alreadyExists := by
  have again := directoryAt_of_components
    ((components_withoutEndSlashes path').trans same) found
  obtain ⟨filled, reached⟩ := locate_eq_ok.mp (entryAt_eq_ok.mp again)
  obtain ⟨q, e, there⟩ := reached.exists_unfollowed
  have located : fs.locate false (withoutEndSlashes path') = .ok (.found q e) :=
    locate_eq_ok.mpr ⟨filled, there⟩
  rw [makeDirectory, located]
  rfl

/-- Where a directory has been made there was nothing, and the steps of its path lead there. -/
theorem reaches_of_makeDirectory {later : System} (sound : fs.Sound) {path : Path}
    (h : fs.makeDirectory path = .ok later) :
    ∃ t, Reaches fs true linkLimit (fs.start path) path.steps t ∧ fs.look t.place = none ∧
      Sets fs t.place .directory later := by
  obtain ⟨above, name, asDirectory, located, new, sets⟩ := makeDirectory_eq_ok sound h
  have reached := (locate_eq_ok.mp located).2.of_plain nofun true
  obtain ⟨t, there, place, -⟩ := reached.along_meant
  have same := components_withoutEndSlashes path
  have here : t.place = above ++ [name] := place
  refine ⟨t, ?_, here ▸ new, here ▸ sets⟩
  rwa [start, Path.isAbsolute_of_components same, ← Path.steps, Path.steps_of_components same]
    at there

end HybridTemplate.Files.System
