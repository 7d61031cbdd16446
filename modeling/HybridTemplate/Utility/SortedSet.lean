set_option autoImplicit false

namespace HybridTemplate.Utility.SortedSet

def insert (s : String) : List String → List String
  | [] => [s]
  | t :: ts => if s < t then s :: t :: ts else if s = t then t :: ts else t :: insert s ts

def insertAll (ss : List String) (set : List String) : List String :=
  ss.foldl (fun set s => insert s set) set

theorem mem_insert {s t : String} {set : List String} : t ∈ insert s set ↔ t = s ∨ t ∈ set := by
  induction set with
  | nil => simp [insert]
  | cons u us ih =>
    rw [insert]
    split
    · simp
    · split
      · rename_i same
        subst same
        simp
      · simp only [List.mem_cons, ih, ← or_assoc, or_comm (a := t = u)]

theorem mem_insertAll {t : String} {ss set : List String} :
    t ∈ insertAll ss set ↔ t ∈ ss ∨ t ∈ set := by
  induction ss generalizing set with
  | nil => simp [insertAll]
  | cons s ss ih =>
    have step : insertAll (s :: ss) set = insertAll ss (insert s set) := rfl
    rw [step, ih, mem_insert, List.mem_cons, or_left_comm, or_assoc]

end HybridTemplate.Utility.SortedSet
