import HybridTemplate.Run
import Mathlib.Data.List.Chain

set_option autoImplicit false

namespace HybridTemplate

namespace Run

theorem text_ne_of_mem_prepend {κ : Type} [DecidableEq κ] {r s : Run κ} {rs : List (Run κ)}
    (h : ∀ u ∈ rs, u.text ≠ "") (hs : s ∈ r.prepend rs) : s.text ≠ "" := by
  unfold Run.prepend at hs
  split at hs
  · exact h s hs
  · rename_i filled
    cases rs with
    | nil =>
      obtain rfl := List.mem_singleton.mp hs
      exact filled
    | cons u us =>
      by_cases same : r.kind = u.kind
      · simp only [same, if_true] at hs
        rcases List.mem_cons.mp hs with rfl | later
        · simp [filled]
        · exact h s (List.mem_cons_of_mem u later)
      · simp only [same, if_false] at hs
        rcases List.mem_cons.mp hs with rfl | later
        · exact filled
        · exact h s later

theorem text_ne_of_mem_coalesce {κ : Type} [DecidableEq κ] {r : Run κ} {rs : List (Run κ)}
    (h : r ∈ Run.coalesce rs) : r.text ≠ "" := by
  induction rs generalizing r with
  | nil => simp at h
  | cons s ss ih =>
    rw [Run.coalesce_cons] at h
    exact text_ne_of_mem_prepend (fun _ hu => ih hu) h

@[simp] theorem concat_append {κ : Type} (rs ss : List (Run κ)) :
    Run.concat (rs ++ ss) = Run.concat rs ++ Run.concat ss := by
  simp [Run.concat, String.join_append]

section

variable {κ : Type}

/-- Each character of the runs, with the kind of its run. -/
def expansion (rs : List (Run κ)) : List (κ × Char) :=
  rs.flatMap fun r => r.text.toList.map fun c => (r.kind, c)

/-- No run is empty, and neighbours differ in kind. -/
structure Canonical (rs : List (Run κ)) : Prop where
  filled : ∀ r ∈ rs, r.text ≠ ""
  apart : rs.IsChain fun r s => r.kind ≠ s.kind

@[simp] theorem expansion_nil : expansion ([] : List (Run κ)) = [] := rfl

@[simp] theorem expansion_cons (r : Run κ) (rs : List (Run κ)) :
    expansion (r :: rs) = (r.text.toList.map fun c => (r.kind, c)) ++ expansion rs :=
  List.flatMap_cons

theorem Canonical.tail {r : Run κ} {rs : List (Run κ)} (h : Canonical (r :: rs)) : Canonical rs :=
  ⟨fun s hs => h.filled s (List.mem_cons_of_mem r hs), h.apart.tail⟩

theorem Canonical.ne_of_head? {r : Run κ} {rs : List (Run κ)} (h : Canonical (r :: rs))
    {x : κ × Char} (hx : (expansion rs).head? = some x) : x.1 ≠ r.kind := by
  cases rs with
  | nil => cases hx
  | cons s ss =>
    have chars : s.text.toList ≠ [] := fun none =>
      h.tail.filled s List.mem_cons_self (String.toList_injective none)
    obtain ⟨c, cs, text⟩ := List.exists_cons_of_ne_nil chars
    rw [expansion_cons, text] at hx
    cases hx
    exact (List.isChain_cons_cons.mp h.apart).1.symm

/-- The first run is all that has its kind at the beginning of the expansion. -/
theorem Canonical.split [DecidableEq κ] {r : Run κ} {rs : List (Run κ)} (h : Canonical (r :: rs)) :
    (expansion (r :: rs)).takeWhile (fun x => x.1 = r.kind) =
        (r.text.toList.map fun c => (r.kind, c)) ∧
      (expansion (r :: rs)).dropWhile (fun x => x.1 = r.kind) = expansion rs := by
  have own : ∀ x ∈ r.text.toList.map fun c => (r.kind, c), decide (x.1 = r.kind) = true := by
    simp
  have behind : (expansion rs).takeWhile (fun x => x.1 = r.kind) = [] ∧
      (expansion rs).dropWhile (fun x => x.1 = r.kind) = expansion rs := by
    cases rest : expansion rs with
    | nil => exact ⟨rfl, rfl⟩
    | cons x xs =>
      have other : ¬ decide (x.1 = r.kind) = true := by
        simpa using h.ne_of_head? (by rw [rest]; rfl)
      exact ⟨List.takeWhile_cons_of_neg other, List.dropWhile_cons_of_neg other⟩
  rw [expansion_cons, List.takeWhile_append_of_pos own, List.dropWhile_append_of_pos own,
    behind.1, behind.2, List.append_nil]
  exact ⟨rfl, rfl⟩

/-- A list of runs in canonical form is known from its expansion. -/
theorem Canonical.eq [DecidableEq κ] {rs ss : List (Run κ)} (hr : Canonical rs) (hs : Canonical ss)
    (same : expansion rs = expansion ss) : rs = ss := by
  induction rs generalizing ss with
  | nil =>
    cases ss with
    | nil => rfl
    | cons s ss =>
      have empty : s.text.toList = [] := by
        rw [expansion_cons] at same
        simpa using (List.append_eq_nil_iff.mp same.symm).1
      exact absurd (String.toList_injective empty) (hs.filled s List.mem_cons_self)
  | cons r rs ih =>
    have chars : r.text.toList ≠ [] := fun none =>
      hr.filled r List.mem_cons_self (String.toList_injective none)
    obtain ⟨c, cs, text⟩ := List.exists_cons_of_ne_nil chars
    cases ss with
    | nil =>
      rw [expansion_cons, text] at same
      cases same
    | cons s ss =>
      have chars' : s.text.toList ≠ [] := fun none =>
        hs.filled s List.mem_cons_self (String.toList_injective none)
      obtain ⟨c', cs', text'⟩ := List.exists_cons_of_ne_nil chars'
      have kind : r.kind = s.kind := by
        have first := same
        rw [expansion_cons, expansion_cons, text, text'] at first
        exact congrArg Prod.fst (List.cons.inj first).1
      obtain ⟨front, back⟩ := hr.split
      obtain ⟨front', back'⟩ := hs.split
      rw [same, kind] at front back
      have texts : r.text = s.text := by
        have mapped := front.symm.trans front'
        refine String.toList_injective (List.map_injective_iff.mpr ?_ mapped)
        exact fun _ _ pair => congrArg Prod.snd pair
      have rest := ih hr.tail hs.tail (back.symm.trans back')
      obtain ⟨k, t⟩ := r
      obtain ⟨k', t'⟩ := s
      dsimp only at kind texts
      rw [kind, texts, rest]

theorem expansion_prepend [DecidableEq κ] (r : Run κ) (rs : List (Run κ)) :
    expansion (r.prepend rs) = expansion (r :: rs) := by
  unfold prepend
  split
  · rename_i void
    rw [expansion_cons, void]
    rfl
  · cases rs with
    | nil => rfl
    | cons s ss =>
      by_cases same : r.kind = s.kind
      · simp [same]
      · simp [same]

theorem expansion_coalesce [DecidableEq κ] (rs : List (Run κ)) :
    expansion (coalesce rs) = expansion rs := by
  induction rs with
  | nil => rfl
  | cons r rs ih => rw [coalesce_cons, expansion_prepend, expansion_cons, expansion_cons, ih]

theorem isChain_prepend [DecidableEq κ] {r : Run κ} {rs : List (Run κ)}
    (h : rs.IsChain fun s t => s.kind ≠ t.kind) :
    (r.prepend rs).IsChain fun s t => s.kind ≠ t.kind := by
  unfold prepend
  split
  · exact h
  · cases rs with
    | nil => exact .singleton r
    | cons s ss =>
      by_cases same : r.kind = s.kind
      · simp only [same, if_true]
        cases h with
        | singleton => exact .singleton _
        | cons_cons differs rest => exact .cons_cons differs rest
      · simp only [same, if_false]
        exact .cons_cons same h

theorem canonical_coalesce [DecidableEq κ] (rs : List (Run κ)) : Canonical (coalesce rs) where
  filled := fun _ hr => text_ne_of_mem_coalesce hr
  apart := by
    induction rs with
    | nil => exact .nil
    | cons r rs ih => exact isChain_prepend ih

/-- Coalescing gives the canonical form with the same expansion. -/
theorem eq_coalesce_iff [DecidableEq κ] {rs ss : List (Run κ)} :
    ss = coalesce rs ↔ Canonical ss ∧ expansion ss = expansion rs := by
  constructor
  · rintro rfl
    exact ⟨canonical_coalesce rs, expansion_coalesce rs⟩
  · rintro ⟨canonical, same⟩
    exact canonical.eq (canonical_coalesce rs) (same.trans (expansion_coalesce rs).symm)

theorem coalesce_filter [DecidableEq κ] (rs : List (Run κ)) :
    coalesce (rs.filter fun r => r.text ≠ "") = coalesce rs := by
  induction rs with
  | nil => rfl
  | cons r rs ih =>
    by_cases void : r.text = ""
    · rw [List.filter_cons_of_neg (by simp [void]), ih, coalesce_cons]
      exact (if_pos void).symm
    · rw [List.filter_cons_of_pos (by simp [void]), coalesce_cons, ih, coalesce_cons]

theorem head?_expansion {rs : List (Run κ)} (filled : ∀ r ∈ rs, r.text ≠ "") :
    (expansion rs).head?.map Prod.fst = rs.head?.map kind := by
  cases rs with
  | nil => rfl
  | cons r rs =>
    have chars : r.text.toList ≠ [] := fun none =>
      filled r List.mem_cons_self (String.toList_injective none)
    obtain ⟨c, cs, text⟩ := List.exists_cons_of_ne_nil chars
    rw [expansion_cons, text]
    rfl

theorem getLast?_expansion {rs : List (Run κ)} (filled : ∀ r ∈ rs, r.text ≠ "") :
    (expansion rs).getLast?.map Prod.fst = rs.getLast?.map kind := by
  rcases List.eq_nil_or_concat rs with rfl | ⟨rs, r, rfl⟩
  · rfl
  · have chars : r.text.toList ≠ [] := fun none =>
      filled r (by simp) (String.toList_injective none)
    rw [List.concat_eq_append, expansion, List.flatMap_append, List.flatMap_singleton,
      List.getLast?_append, List.getLast?_map, List.getLast?_eq_some_getLast chars,
      List.getLast?_append]
    rfl

theorem coalesce_append [DecidableEq κ] {rs ss : List (Run κ)} (filled : ∀ r ∈ rs, r.text ≠ "")
    (filled' : ∀ s ∈ ss, s.text ≠ "")
    (apart : ∀ r ∈ rs.getLast?, ∀ s ∈ ss.head?, r.kind ≠ s.kind) :
    coalesce (rs ++ ss) = coalesce rs ++ coalesce ss := by
  obtain ⟨first, same⟩ := eq_coalesce_iff.mp (rfl : coalesce rs = _)
  obtain ⟨second, same'⟩ := eq_coalesce_iff.mp (rfl : coalesce ss = _)
  refine (eq_coalesce_iff.mpr ⟨⟨?_, ?_⟩, ?_⟩).symm
  · exact List.forall_mem_append.mpr ⟨first.filled, second.filled⟩
  · have last : (coalesce rs).getLast?.map kind = rs.getLast?.map kind := by
      rw [← getLast?_expansion first.filled, same, getLast?_expansion filled]
    have next : (coalesce ss).head?.map kind = ss.head?.map kind := by
      rw [← head?_expansion second.filled, same', head?_expansion filled']
    refine List.isChain_append.mpr ⟨first.apart, second.apart, fun r hr s hs => ?_⟩
    rw [Option.mem_def.mp hr, Option.map_some] at last
    rw [Option.mem_def.mp hs, Option.map_some] at next
    obtain ⟨r', hr', kind⟩ := Option.map_eq_some_iff.mp last.symm
    obtain ⟨s', hs', kind'⟩ := Option.map_eq_some_iff.mp next.symm
    rw [← kind, ← kind']
    exact apart r' hr' s' hs'
  · rw [expansion, List.flatMap_append]
    exact (congrArg₂ _ same same').trans List.flatMap_append.symm

theorem coalesce_of_kind [DecidableEq κ] {rs : List (Run κ)} {k : κ}
    (all : ∀ r ∈ rs, r.kind = k) (filled : concat rs ≠ "") :
    coalesce rs = [⟨k, concat rs⟩] := by
  have whole : expansion rs = (concat rs).toList.map fun c => (k, c) := by
    clear filled
    induction rs with
    | nil => rfl
    | cons r rs ih =>
      obtain ⟨here, later⟩ := List.forall_mem_cons.mp all
      rw [expansion_cons, ih later, concat_cons, String.toList_append, List.map_append, here]
  refine (eq_coalesce_iff.mpr ⟨⟨?_, .singleton _⟩, ?_⟩).symm
  · exact List.forall_mem_singleton.mpr filled
  · rw [whole]
    exact List.append_nil _

/-- A search by kind among the runs that are not empty is one among the characters. -/
theorem findSome?_expansion {β : Type} (f : κ → Option β) (rs : List (Run κ)) :
    (expansion rs).findSome? (fun x => f x.1) =
      (rs.filter fun r => r.text ≠ "").findSome? fun r => f r.kind := by
  induction rs with
  | nil => rfl
  | cons r rs ih =>
    rw [expansion_cons, List.findSome?_append, ih]
    by_cases void : r.text = ""
    · simp [void]
    · have chars : r.text.toList ≠ [] := fun none => void (String.toList_injective none)
      obtain ⟨c, cs, text⟩ := List.exists_cons_of_ne_nil chars
      rw [List.filter_cons_of_pos (by simpa using void), List.findSome?_cons, text, List.map_cons,
        List.findSome?_cons]
      cases found : f r.kind with
      | some b => rfl
      | none =>
        have none : (cs.map fun c => (r.kind, c)).findSome? (fun x => f x.1) = none := by
          rw [List.findSome?_eq_none_iff]
          intro x hx
          obtain ⟨d, -, rfl⟩ := List.mem_map.mp hx
          exact found
        rw [none]
        rfl

end

end Run

theorem merge_eq_ok_iff {κ : Type} [DecidableEq κ] {v : Value (Run κ)} {rs : List (Run κ)} :
    merge v = .ok rs ↔ (∀ s ∈ v.texts, s = "") ∧ rs = Run.coalesce v.items := by
  unfold merge Value.firstText?
  cases found : v.texts.find? fun s => s ≠ "" with
  | none =>
    rw [List.find?_eq_none] at found
    have all : ∀ s ∈ v.texts, s = "" := by simpa using found
    simp only [Except.ok.injEq]
    exact ⟨fun h => ⟨all, h.symm⟩, fun h => h.2.symm⟩
  | some s =>
    have filled : s ≠ "" := by simpa using List.find?_some found
    have hs := List.mem_of_find?_eq_some found
    simp only [reduceCtorEq, false_iff, not_and]
    exact fun all => absurd (all s hs) filled

end HybridTemplate
