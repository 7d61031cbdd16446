import HybridTemplate.Proofs.Path.Components
import HybridTemplate.SourceFile

set_option autoImplicit false

namespace HybridTemplate.Path

def between : List (List Char) → List (List Char) → List (List Char)
  | s :: ss, t :: ts =>
    if s = t then between ss ts
    else List.replicate (s :: ss).length ['.', '.'] ++ t :: ts
  | ss, ts => List.replicate ss.length ['.', '.'] ++ ts

theorem between_append (front ss ts : List (List Char)) :
    between (front ++ ss) (front ++ ts) = between ss ts := by
  induction front with
  | nil => rfl
  | cons s front ih => rw [List.cons_append, List.cons_append, between, if_pos rfl, ih]

/-- The way leads up to where the two part, and down from there. -/
theorem exists_between (ss ts : List (List Char)) :
    ∃ common up down, ss = common ++ up ∧ ts = common ++ down ∧
      between ss ts = List.replicate up.length ['.', '.'] ++ down := by
  induction ss, ts using between.induct with
  | case1 ss s ts ih =>
    obtain ⟨common, up, down, rfl, rfl, way⟩ := ih
    exact ⟨s :: common, up, down, rfl, rfl, by rw [between, if_pos rfl, way]⟩
  | case2 s ss t ts apart => exact ⟨[], s :: ss, t :: ts, rfl, rfl, by rw [between, if_neg apart]⟩
  | case3 ss ts one =>
    refine ⟨[], ss, ts, rfl, rfl, ?_⟩
    rw [between]
    exact one

theorem exists_between_names (names below : List String) :
    ∃ common up down, names = common ++ up ∧ below = common ++ down ∧
      between (names.map String.toList) (below.map String.toList) =
        List.replicate up.length ['.', '.'] ++ down.map String.toList := by
  obtain ⟨_, _, _, start, goal, way⟩ :=
    exists_between (names.map String.toList) (below.map String.toList)
  obtain ⟨common, up, rfl, rfl, rfl⟩ := List.map_eq_append_iff.mp start
  obtain ⟨common', down, rfl, same, rfl⟩ := List.map_eq_append_iff.mp goal
  obtain rfl : common' = common :=
    List.map_injective_iff.mpr (fun _ _ => String.toList_injective) same
  exact ⟨common', up, down, rfl, rfl, by rw [way, List.length_map]⟩

/-- The path of a file, relative to a directory. -/
def relativeTo (p base : Path) : Path := (Parts.mk .none (between base.steps p.steps)).path

theorem not_isVoid_of_mem_between {p base : Path} {s : List Char}
    (h : s ∈ between base.steps p.steps) : isVoid s = false ∧ '/' ∉ s := by
  obtain ⟨common, up, down, -, steps, way⟩ := exists_between base.steps p.steps
  rw [way, List.mem_append] at h
  rcases h with up | down
  · rw [List.eq_of_mem_replicate up]
    decide
  · have mem : s ∈ p.steps := steps ▸ List.mem_append_right common down
    exact ⟨not_isVoid_of_mem_steps mem, not_mem_of_mem_steps mem⟩

theorem components_relativeTo (p base : Path) :
    (p.relativeTo base).components = (between base.steps p.steps).map componentOf := by
  have sound : Parts.Sound ⟨.none, between base.steps p.steps⟩ :=
    ⟨fun s hs => (not_isVoid_of_mem_between hs).2,
      fun _ s hs => (not_isVoid_of_mem_between (List.mem_of_head? hs)).1⟩
  have kept : (between base.steps p.steps).filter (fun s => !isVoid s) =
      between base.steps p.steps :=
    List.filter_eq_self.mpr fun s hs => by rw [(not_isVoid_of_mem_between hs).1]; rfl
  calc
    (p.relativeTo base).components = bodyComponents (between base.steps p.steps) :=
      sound.components_path
    _ = (between base.steps p.steps).map componentOf := by rw [bodyComponents, kept]

theorem steps_relativeTo (p base : Path) :
    (p.relativeTo base).steps = between base.steps p.steps := by
  rw [steps_eq_filterMap, components_relativeTo, List.filterMap_map]
  simp

theorem segments_relativeTo {p base : Path} (filled : between base.steps p.steps ≠ []) :
    segments (p.relativeTo base).text.toList = between base.steps p.steps := by
  rw [relativeTo, Parts.path, Parts.chars, String.toList_ofList]
  exact segments_joinSegments filled fun s hs => (not_isVoid_of_mem_between hs).2

theorem isAbsolute_relativeTo (p base : Path) : (p.relativeTo base).isAbsolute = false := by
  rw [← Bool.not_eq_true, ← head?_components_eq_root, components_relativeTo]
  intro root
  obtain ⟨s, -, same⟩ := List.mem_map.mp (List.mem_of_head? root)
  exact componentOf_ne_root s same

example : (relativeTo ⟨"/p/lib/util.js"⟩ ⟨"/p/app"⟩).text = "../lib/util.js" := by decide

end HybridTemplate.Path

namespace HybridTemplate

theorem SourceFile.components_relativeDir {source : SourceFile} {cs : List Path.Component}
    (h : source.dir.components = source.root.components ++ cs) :
    source.relativeDir.components = cs := by
  obtain ⟨relative, stripped, components⟩ := Path.exists_stripPrefix? h
  rw [relativeDir, stripped]
  exact components

end HybridTemplate
