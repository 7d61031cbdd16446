import HybridTemplate.Proofs.Files.Walking

set_option autoImplicit false

namespace HybridTemplate.Files

open HybridTemplate.Path (isVoid segments meant)
open Text (Bytes)

namespace System

variable {fs : System}

def destination (place : Place) : List (List Char) → Place
  | [] => place
  | s :: ss =>
    if isVoid s then destination place ss
    else if s = ['.', '.'] then destination place.dropLast ss
    else destination (place ++ [String.ofList s]) ss

theorem destination_void (place : Place) {s : List Char} (h : isVoid s = true)
    (ss : List (List Char)) : destination place (s :: ss) = destination place ss := by
  rw [destination, if_pos h]

theorem destination_up (place : Place) (ss : List (List Char)) :
    destination place (['.', '.'] :: ss) = destination place.dropLast ss := by
  rw [destination, if_neg (by decide), if_pos rfl]

theorem destination_step (place : Place) {s : List Char} (h : isVoid s = false)
    (up : s ≠ ['.', '.']) (ss : List (List Char)) :
    destination place (s :: ss) = destination (place ++ [String.ofList s]) ss := by
  rw [destination, if_neg (by rw [h]; exact Bool.false_ne_true), if_neg up]

theorem destination_meant (place : Place) (ss : List (List Char)) :
    destination place (meant ss) = destination place ss := by
  induction ss generalizing place with
  | nil => rfl
  | cons s ss ih =>
    by_cases void : isVoid s = true
    · rw [Path.meant_cons_of_void void, destination_void place void, ih]
    · rw [Path.meant_cons (Bool.not_eq_true _ ▸ void), destination, destination, ih, ih, ih]

theorem destination_empty (place : Place) {ss : List (List Char)} (h : ∀ s ∈ ss, s = []) :
    destination place ss = place := by
  induction ss with
  | nil => rfl
  | cons s ss ih =>
    obtain ⟨rfl, rest⟩ := List.forall_mem_cons.mp h
    rw [destination_void place rfl, ih rest]

theorem destination_append (place : Place) (ss tt : List (List Char)) :
    destination place (ss ++ tt) = destination (destination place ss) tt := by
  induction ss generalizing place with
  | nil => rfl
  | cons s ss ih =>
    rw [List.cons_append, destination, destination, ih, ih, ih]
    split
    · rfl
    · split <;> rfl

/-- Where no link is on the way, a walk stops where the segments lead. -/
theorem Reaches.place_eq {followLast : Bool} {links : Nat} {place : Place} {ss : List (List Char)}
    {t : Target} (h : Reaches fs followLast links place ss t)
    (linkless : ∀ n target, fs.look (destination place (ss.take n)) ≠ some (.link target)) :
    t.place = destination place ss := by
  induction h with
  | done _ => rfl
  | @stay _ place s rest _ void _ ih =>
    rw [destination_void place void]
    refine ih fun n target => ?_
    rw [← destination_void place void]
    exact linkless (n + 1) target
  | @up _ place rest _ _ ih =>
    rw [destination_up]
    refine ih fun n target => ?_
    rw [← destination_up]
    exact linkless (n + 1) target
  | @missing _ place s rest step _ last =>
    rw [destination_step place step.1 step.2.1, destination_empty _ last]
    rfl
  | @into _ place s rest _ step _ _ ih =>
    rw [destination_step place step.1 step.2.1]
    refine ih fun n target => ?_
    rw [← destination_step place step.1 step.2.1]
    exact linkless (n + 1) target
  | @file _ place s _ _ step _ =>
    rw [destination_step place step.1 step.2.1]
    rfl
  | @link _ place s _ step _ _ =>
    rw [destination_step place step.1 step.2.1]
    rfl
  | @follow _ place s rest _ _ _ step here _ _ _ =>
    have met := linkless 1
    rw [List.take_succ_cons, List.take_zero, destination_step place step.1 step.2.1] at met
    exact absurd here (met _)

theorem reaches_names {followLast : Bool} {links : Nat} {place : Place} {names : List String}
    {e : Entry} (here : fs.top.at? (place ++ names) = some e) (plain : e.isLink = false)
    (named : ∀ n ∈ names, IsName n) :
    Reaches fs followLast links place (names.map String.toList) (.found (place ++ names) e) := by
  induction names generalizing place with
  | nil =>
    rw [List.append_nil] at here ⊢
    exact .done here
  | cons n names ih =>
    obtain ⟨first, rest⟩ := List.forall_mem_cons.mp named
    have step : IsStep n.toList := first.isStep
    have read : String.ofList n.toList = n := String.ofList_toList
    rw [← List.singleton_append, ← List.append_assoc] at here ⊢
    rw [List.singleton_append, List.map_cons]
    by_cases last : names = []
    · subst last
      rw [List.append_nil] at here ⊢
      cases e with
      | file content executable =>
        rw [← read] at here
        have found : Reaches fs followLast links place [n.toList] _ := .file step here
        rwa [read] at found
      | link target => cases plain
      | directory entries =>
        have inside := Entry.look_eq_directory.mpr ⟨entries, here⟩
        exact .into step (by rw [read]; exact inside) (by rw [read]; exact .done here)
    · have inside : fs.look (place ++ [n]) = some .directory :=
        Entry.look_below (Entry.look_ne_none here) last
      exact .into step (by rw [read]; exact inside) (by rw [read]; exact ih here rest)

section

variable {followLast : Bool} {links : Nat} {place : Place} {names : List String}
  {rest : List (List Char)} {t : Target}

theorem reaches_into (here : fs.look (place ++ names) = some .directory)
    (named : ∀ n ∈ names, IsName n) (on : Reaches fs followLast links (place ++ names) rest t) :
    Reaches fs followLast links place (names.map String.toList ++ rest) t := by
  induction names generalizing place with
  | nil => rwa [List.append_nil] at on
  | cons n names ih =>
    obtain ⟨first, below⟩ := List.forall_mem_cons.mp named
    rw [← List.singleton_append, ← List.append_assoc] at here on
    have inside : fs.look (place ++ [n]) = some .directory := by
      by_cases last : names = []
      · rwa [last, List.append_nil] at here
      · exact Entry.look_below (Option.ne_none_iff_exists'.mpr ⟨_, here⟩) last
    refine .into first.isStep ?_ ?_
    · rw [String.ofList_toList]
      exact inside
    · rw [String.ofList_toList]
      exact ih here below on

/-- Two dots for each name lead back. -/
theorem reaches_back (on : Reaches fs followLast links place rest t) :
    Reaches fs followLast links (place ++ names)
      (List.replicate names.length ['.', '.'] ++ rest) t := by
  induction names generalizing place rest with
  | nil => rwa [List.append_nil]
  | cons n names ih =>
    have last : Reaches fs followLast links (place ++ [n]) (['.', '.'] :: rest) t :=
      .up (by rwa [List.dropLast_concat])
    rw [List.length_cons, List.replicate_succ', List.append_assoc, List.singleton_append,
      List.append_cons]
    exact ih last

end

end System
end HybridTemplate.Files
