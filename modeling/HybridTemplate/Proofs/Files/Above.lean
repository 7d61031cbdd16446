import HybridTemplate.Proofs.Files.Below
import HybridTemplate.Proofs.Files.Directories

set_option autoImplicit false

namespace HybridTemplate

open Files

namespace Path

theorem segments_path_of_body {ps : Parts} (sound : ps.Sound) (filled : ps.body ≠ []) :
    ∃ front, segments ps.path.text.toList = front ++ ps.body := by
  obtain ⟨lead, body⟩ := ps
  have read : segments (joinSegments body) = body := segments_joinSegments filled sound.slashless
  rw [Parts.path, String.toList_ofList, Parts.chars]
  cases lead with
  | root => exact ⟨[[]], congrArg ([] :: ·) read⟩
  | none => exact ⟨[], read⟩
  | current =>
    refine ⟨[['.']], ?_⟩
    have more : body.isEmpty = false := by simpa using filled
    dsimp only
    rw [more, if_neg Bool.false_ne_true]
    exact (segments_append_slash ['.'] _).trans (congrArg _ read)

theorem closed_trimEnd_path {ps : Parts} (sound : ps.Sound) (filled : ps.trimEnd.body ≠ []) :
    System.Closed ps.trimEnd.path := by
  obtain ⟨front, split⟩ := segments_path_of_body sound.trimEnd filled
  intro s last
  rw [split, List.getLast?_append_of_ne_nil _ filled] at last
  obtain ⟨before, reversed⟩ := List.head?_eq_some_iff.mp ((List.head?_reverse).trans last)
  exact Parts.not_isVoid_getLast reversed

theorem closed_parent? {p q : Path} (above : p.parent? = some q) {cs : List Component}
    {name : String} (named : q.components = cs ++ [.normal name]) : System.Closed q := by
  have sound := (sound_parts p).trimEnd
  unfold parent? at above
  dsimp only at above
  rcases trimmed : p.parts.trimEnd with ⟨lead, body⟩
  rw [trimmed] at above sound
  have cut (short : List (List Char)) (start : short <+: body)
      (same : q = (Parts.trimEnd ⟨lead, short⟩).path) : System.Closed q := by
    have parts : Parts.Sound ⟨lead, short⟩ := sound.of_prefix start
    rw [same]
    refine closed_trimEnd_path parts fun none => ?_
    have whole := parts.trimEnd.components_path
    rw [← same, named, Parts.components, none] at whole
    revert whole
    cases (Parts.trimEnd ⟨lead, short⟩).lead <;> cases cs <;> simp [bodyComponents]
  rcases reversed : body.reverse with _ | ⟨s, before⟩
  · rw [reversed] at above
    cases lead with
    | root => cases above
    | none => cases above
    | current =>
      cases above
      cases cs <;> simp at named
  · have short : before.reverse <+: body :=
      ⟨[s], by rw [← List.reverse_cons, ← reversed, List.reverse_reverse]⟩
    rw [reversed] at above
    cases lead <;> cases above <;> exact cut _ short rfl

end Path

namespace Files.System

open HybridTemplate.Path (Component isVoid segments meant)

variable {fs : System}

/-- A walk that ends with a name, or at what is no directory, comes from a directory. -/
theorem Reaches.split_last {links : Nat} {place q : Place} {front : List (List Char)}
    {s : List Char} {e : Entry} (h : Reaches fs false links place (front ++ [s]) (.found q e))
    (directory : fs.look place = some .directory) (sound : fs.Sound)
    (last : e.isDirectory = false ∨ isVoid s = false ∧ s ≠ ['.', '.']) :
    ∃ home inner, IsStep s ∧ q = home ++ [String.ofList s] ∧
      Reaches fs true links place front (.found home (.directory inner)) := by
  have stop {place : Place} (directory : fs.look place = some .directory) :
      ∃ inner, ∀ links, Reaches fs true links place [] (.found place (.directory inner)) := by
    obtain ⟨inner, here⟩ := Entry.look_eq_directory.mp directory
    exact ⟨inner, fun _ => .done here⟩
  have still {links : Nat} {place : Place} (directory : fs.look place = some .directory)
      (on : Reaches fs false links place [] (.found q e)) : e.isDirectory = true := by
    cases on with
    | done here =>
      obtain ⟨inner, there⟩ := Entry.look_eq_directory.mp directory
      cases here.symm.trans there
      rfl
  generalize whole : front ++ [s] = ss at h
  generalize target : Target.found q e = t at h
  induction h generalizing front with
  | done _ => simp at whole
  | stay void on ih =>
    rcases front with _ | ⟨v, front⟩
    · cases whole
      cases target
      rcases last with plain | named
      · cases plain.symm.trans (still directory on)
      · cases named.1.symm.trans void
    · cases whole
      obtain ⟨home, inner, step, there, reached⟩ := ih directory rfl target
      exact ⟨home, inner, step, there, .stay void reached⟩
  | up on ih =>
    rcases front with _ | ⟨v, front⟩
    · cases whole
      cases target
      rcases last with plain | named
      · cases plain.symm.trans (still (look_dropLast directory) on)
      · exact absurd rfl named.2
    · cases whole
      obtain ⟨home, inner, step, there, reached⟩ := ih (look_dropLast directory) rfl target
      exact ⟨home, inner, step, there, .up reached⟩
  | missing _ _ _ => cases target
  | into step here on ih =>
    rcases front with _ | ⟨v, front⟩
    · cases whole
      cases target
      obtain ⟨inner, stopped⟩ := stop directory
      cases on
      exact ⟨_, inner, step, rfl, stopped _⟩
    · cases whole
      obtain ⟨home, inner, last, there, reached⟩ := ih here rfl target
      exact ⟨home, inner, last, there, .into step here reached⟩
  | file step here =>
    rcases front with _ | ⟨v, front⟩
    · cases whole
      cases target
      obtain ⟨inner, stopped⟩ := stop directory
      exact ⟨_, inner, step, rfl, stopped _⟩
    · simp at whole
  | link step here _ =>
    rcases front with _ | ⟨v, front⟩
    · cases whole
      cases target
      obtain ⟨inner, stopped⟩ := stop directory
      exact ⟨_, inner, step, rfl, stopped _⟩
    · simp at whole
  | @follow _ place _ _ c cs _ step here followed on ih =>
    rcases front with _ | ⟨v, front⟩
    · cases whole
      simp at followed
    · cases whole
      have start : fs.look (if c = '/' then [] else place) = some .directory := by
        by_cases root : c = '/'
        · rw [if_pos root]; exact sound.top
        · rw [if_neg root]; exact directory
      obtain ⟨home, inner, last, there, reached⟩ :=
        ih start (List.append_assoc _ front [s]) target
      exact ⟨home, inner, last, there, .follow step here (.inr rfl) reached⟩

/-- What is found, its own link left alone, stands in the directory that the parent of the path
leads to. -/
theorem directoryAt_parent (sound : fs.Sound) {p dir : Path} {q : Place} {e : Entry}
    (found : fs.entryAt false p = .ok (q, e))
    (last : e.isDirectory = false ∨
      Closed p ∧ ∃ cs name, p.components = cs ++ [Component.normal name])
    (above : dir = p.parent?.getD ⟨""⟩) :
    (∃ cs name, p.components = cs ++ [.normal name] ∧ dir.components = cs ∧
      q = q.dropLast ++ [name]) ∧
    (dir.text ≠ "" → ∃ entries, fs.entryAt true dir = .ok (q.dropLast, .directory entries)) := by
  obtain ⟨filled, reached⟩ := locate_eq_ok.mp (entryAt_eq_ok.mp found)
  obtain ⟨front, s, split⟩ := (List.eq_nil_or_concat (segments p.text.toList)).resolve_left
    (Path.segments_ne_nil _)
  rw [List.concat_eq_append] at split
  rw [split] at reached
  have named : e.isDirectory = false ∨ isVoid s = false ∧ s ≠ ['.', '.'] := by
    refine last.imp_right fun ⟨closed, cs, name, components⟩ => ?_
    have meant : isVoid s = false := closed s (by rw [split, List.getLast?_concat]; rfl)
    refine ⟨meant, ?_⟩
    rintro rfl
    rw [Path.components_eq, Path.steps, split, Path.meant_append] at components
    have ends := congrArg List.getLast? components
    simp [Path.meant, Path.componentOf] at ends
  obtain ⟨home, inner, step, rfl, walked⟩ := reached.split_last (sound.start p) sound named
  rw [List.dropLast_concat]
  have moves : p.steps = meant front ++ [s] := by
    rw [Path.steps, split, Path.meant_append, Path.meant_cons step.1]
    rfl
  have components : p.components =
      (p.leading ++ (meant front).map Path.componentOf) ++ [.normal (String.ofList s)] := by
    rw [Path.components_eq, moves, List.map_append, List.append_assoc]
    simp [Path.componentOf, step.2.1]
  obtain ⟨dir', parent, own⟩ := Path.parent?_isSome components
  obtain rfl : dir = dir' := by rw [above, parent]; rfl
  refine ⟨⟨_, _, components, own, rfl⟩, fun some => ⟨inner, entryAt_eq_directory.mpr ⟨some, ?_⟩⟩⟩
  have nonempty : dir.components ≠ [] := fun none => some (Path.components_eq_nil.mp none)
  have absolute : dir.isAbsolute = p.isAbsolute := by
    rw [Bool.eq_iff_iff, ← Path.head?_components_eq_root, ← Path.head?_components_eq_root,
      components, ← own, List.head?_append_of_ne_nil _ nonempty]
  have steps : dir.steps = meant front := by
    rw [Path.steps_eq_filterMap, own, List.filterMap_append, Path.step?_leading, List.nil_append,
      List.filterMap_map]
    simp
  obtain ⟨t, there, -, same⟩ := walked.along_meant
  rw [same _ _ rfl] at there
  rwa [start, absolute, steps]

theorem EndsMeant.cons {s : List Char} {ss : List (List Char)} (h : EndsMeant ss)
    (alone : ss = [] → isVoid s = false) : EndsMeant (s :: ss) := by
  intro t last
  rcases List.eq_nil_or_concat ss with rfl | ⟨front, u, rfl⟩
  · cases last
    exact alone rfl
  · refine h t ?_
    rw [List.concat_eq_append] at last ⊢
    rw [← List.cons_append, List.getLast?_concat] at last
    rwa [List.getLast?_concat]

theorem Reaches.endsMeant {links : Nat} {place q : Place} {ss : List (List Char)} {e : Entry}
    (h : Reaches fs true links place ss (.found q e)) (plain : e.isDirectory = false)
    (directory : fs.look place = some .directory) (sound : fs.Sound) : EndsMeant ss := by
  generalize target : Target.found q e = t at h
  induction h with
  | done _ => exact fun s none => by cases none
  | stay void on ih =>
    refine (ih directory target).cons fun alone => ?_
    subst alone
    cases on with
    | done here =>
      cases target
      obtain ⟨inner, there⟩ := Entry.look_eq_directory.mp directory
      cases here.symm.trans there
      cases plain
  | up _ ih => exact (ih (look_dropLast directory) target).cons fun _ => rfl
  | missing _ _ _ => cases target
  | into step here _ ih => exact (ih here target).cons fun _ => step.1
  | file step _ => exact EndsMeant.cons (fun s none => by cases none) fun _ => step.1
  | link _ _ kept => cases kept
  | @follow _ place _ rest c cs _ step _ _ _ ih =>
    have start : fs.look (if c = '/' then [] else place) = some .directory := by
      by_cases root : c = '/'
      · rw [if_pos root]; exact sound.top
      · rw [if_neg root]; exact directory
    by_cases alone : rest = []
    · subst alone
      exact EndsMeant.cons (fun s none => by cases none) fun _ => step.1
    · refine EndsMeant.cons (fun s last => ih start target s ?_) fun none => absurd none alone
      rwa [List.getLast?_append_of_ne_nil _ alone]

theorem closed_of_file (sound : fs.Sound) {p : Path} {q : Place} {e : Entry}
    (found : fs.entryAt true p = .ok (q, e)) (plain : e.isDirectory = false) : Closed p :=
  (locate_eq_ok.mp (entryAt_eq_ok.mp found)).2.endsMeant plain (sound.start p) sound

theorem Closed.of_join {p q : Path} (filled : p.text ≠ "") (relative : q.isAbsolute = false)
    (closed : Closed (p.join q)) : Closed q := by
  obtain ⟨front, joined, -⟩ := Path.exists_join filled relative
  intro s last
  refine closed s ?_
  rwa [joined, Path.segments_append_slash,
    List.getLast?_append_of_ne_nil _ (Path.segments_ne_nil _)]

end Files.System
end HybridTemplate
