import HybridTemplate.Proofs.Files.Listing
import Mathlib.Data.List.Sort

set_option autoImplicit false

namespace HybridTemplate.Files

open Text (Bytes)

mutual

def places : Entry → List Place
  | .file .. => [[]]
  | .link _ => []
  | .directory entries => placesAll entries

def placesAll : List (String × Entry) → List Place
  | [] => []
  | (name, e) :: entries => (places e).map (name :: ·) ++ placesAll entries

end

mutual

theorem filesFrom_eq (p : Path) (e : Entry) : filesFrom p e = (places e).map p.below := by
  match e with
  | .file _ _ => rfl
  | .link _ => rfl
  | .directory entries => exact filesFromAll_eq p entries

theorem filesFromAll_eq (p : Path) (entries : List (String × Entry)) :
    filesFromAll p entries = (placesAll entries).map p.below := by
  match entries with
  | [] => rfl
  | (name, e) :: entries =>
    rw [filesFromAll, placesAll, filesFrom_eq (p.join ⟨name⟩) e, filesFromAll_eq p entries,
      List.map_append, List.map_map]
    rfl

end

theorem mem_placesAll {place : Place} {entries : List (String × Entry)} :
    place ∈ placesAll entries ↔ ∃ x ∈ entries, ∃ rest ∈ places x.2, place = x.1 :: rest := by
  induction entries with
  | nil => simp [placesAll]
  | cons x entries ih =>
    obtain ⟨name, e⟩ := x
    rw [placesAll, List.mem_append, ih, List.exists_mem_cons_iff, List.mem_map]
    simp only [eq_comm]

/-- The places are just those at which a file is found. -/
theorem mem_places {e : Entry} (well : e.isWellFormed = true) {place : Place} :
    place ∈ places e ↔ ∃ content executable, e.at? place = some (.file content executable) := by
  induction place generalizing e with
  | nil =>
    cases e with
    | file content executable => simp [places, Entry.at?_nil]
    | link target => simp [places, Entry.at?_nil]
    | directory entries => simp [places, mem_placesAll, Entry.at?_nil]
  | cons name place ih =>
    cases e with
    | file content executable => simp [places, Entry.at?_cons, Entry.child?]
    | link target => simp [places, Entry.at?_cons, Entry.child?]
    | directory entries =>
      obtain ⟨sorted, inner⟩ := (Entry.isWellFormed_directory entries).mp well
      rw [places, mem_placesAll, Entry.at?_cons, Entry.child?]
      constructor
      · rintro ⟨⟨first, c⟩, mem, rest, there, same⟩
        cases same
        rw [Entry.lookup_of_mem sorted mem]
        exact (ih (inner _ mem).2).mp there
      · rintro ⟨content, executable, there⟩
        obtain ⟨c, found, there⟩ := Option.bind_eq_some_iff.mp there
        have mem := Entry.mem_of_lookup found
        exact ⟨(name, c), mem, place, (ih (inner _ mem).2).mpr ⟨content, executable, there⟩, rfl⟩

mutual

theorem pairwise_places (e : Entry) (well : e.isWellFormed = true) :
    (places e).Pairwise (· < ·) := by
  match e with
  | .file _ _ => exact List.pairwise_singleton _ _
  | .link _ => exact .nil
  | .directory entries =>
    obtain ⟨sorted, inner⟩ := (Entry.isWellFormed_directory entries).mp well
    exact pairwise_placesAll entries sorted fun x hx => (inner x hx).2

theorem pairwise_placesAll (entries : List (String × Entry))
    (sorted : entries.Pairwise fun a b => a.1 < b.1)
    (well : ∀ x ∈ entries, x.2.isWellFormed = true) : (placesAll entries).Pairwise (· < ·) := by
  match entries with
  | [] => exact .nil
  | (name, e) :: entries =>
    obtain ⟨first, sorted⟩ := List.pairwise_cons.mp sorted
    obtain ⟨here, below⟩ := List.forall_mem_cons.mp well
    rw [placesAll, List.pairwise_append]
    refine ⟨?_, pairwise_placesAll entries sorted below, ?_⟩
    · rw [List.pairwise_map]
      exact (pairwise_places e here).imp fun before =>
        List.cons_lt_cons_iff.mpr (.inr ⟨rfl, before⟩)
    · intro p hp q hq
      obtain ⟨rest, -, rfl⟩ := List.mem_map.mp hp
      obtain ⟨x, hx, rest', -, rfl⟩ := mem_placesAll.mp hq
      exact List.cons_lt_cons_iff.mpr (.inl (first x hx))

end

/-- Two trees with the same files of one sort list these files alike. -/
theorem filter_places_congr {e d : Entry} (well : e.isWellFormed = true)
    (well' : d.isWellFormed = true) (test : Place → Bool)
    (same : ∀ place, test place = true →
      ((∃ content executable, d.at? place = some (.file content executable)) ↔
        ∃ content executable, e.at? place = some (.file content executable))) :
    (places d).filter test = (places e).filter test := by
  refine ((pairwise_places d well').filter test).eq_of_mem_iff
    ((pairwise_places e well).filter test) fun place => ?_
  rw [List.mem_filter, List.mem_filter, mem_places well, mem_places well']
  constructor
  · rintro ⟨there, sort⟩
    exact ⟨(same place sort).mp there, sort⟩
  · rintro ⟨there, sort⟩
    exact ⟨(same place sort).mpr there, sort⟩

namespace System

variable {fs : System}

theorem filesBelow_eq_places {p : Path} {q : Place} {e : Entry}
    (found : fs.entryAt false p = .ok (q, e)) (plain : e.isLink = false) :
    fs.filesBelow p = (places e).map p.below := by
  unfold filesBelow
  rw [found]
  cases e with
  | file content executable => rfl
  | link target => cases plain
  | directory entries => exact filesFrom_eq p (.directory entries)

end System
end HybridTemplate.Files
