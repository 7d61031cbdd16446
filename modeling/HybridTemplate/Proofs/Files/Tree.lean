import HybridTemplate.Files.System
import HybridTemplate.Proofs.Path.Components
import Mathlib.Logic.Function.Basic

set_option autoImplicit false

namespace HybridTemplate.Files

open Text (Bytes)

/-- An entry as it is seen from outside. -/
inductive Face where
  | file (content : Bytes) (executable : Bool)
  | link (target : String)
  | directory
deriving DecidableEq

def IsName (name : String) : Prop :=
  Path.IsPlain name ∧ Text.byteLength name.toList ≤ nameLimit

instance (name : String) : Decidable (IsName name) := by
  unfold IsName
  infer_instance

namespace Entry

def face : Entry → Face
  | file content executable => .file content executable
  | link target => .link target
  | directory _ => .directory

def look (e : Entry) (p : Place) : Option Face := (e.at? p).map face

theorem at?_append (e : Entry) (p q : Place) :
    e.at? (p ++ q) = (e.at? p).bind fun c => c.at? q := by
  induction p generalizing e with
  | nil => rfl
  | cons name p ih =>
    rw [List.cons_append, at?_cons, at?_cons]
    cases e.child? name with
    | none => rfl
    | some c => exact ih c

theorem look_append {e c : Entry} {p : Place} (h : e.at? p = some c) (q : Place) :
    e.look (p ++ q) = c.look q := by
  rw [look, at?_append, h]
  rfl

theorem look_eq_directory {e : Entry} {p : Place} :
    e.look p = some .directory ↔ ∃ entries, e.at? p = some (directory entries) := by
  unfold look
  rcases e.at? p with _ | ⟨content, executable⟩ | target | entries <;> simp [face]

theorem look_eq_file {e : Entry} {p : Place} {content : Bytes} {executable : Bool} :
    e.look p = some (.file content executable) ↔ e.at? p = some (file content executable) := by
  unfold look
  rcases e.at? p with _ | ⟨c, x⟩ | target | entries <;> simp [face]

theorem look_eq_link {e : Entry} {p : Place} {target : String} :
    e.look p = some (.link target) ↔ e.at? p = some (link target) := by
  unfold look
  rcases e.at? p with _ | ⟨c, x⟩ | target | entries <;> simp [face]

theorem look_eq_none {e : Entry} {p : Place} : e.look p = none ↔ e.at? p = none := by
  rw [look, Option.map_eq_none_iff]

theorem look_ne_none {e d : Entry} {p : Place} (h : e.at? p = some d) : e.look p ≠ none := by
  rw [look, h]
  exact Option.some_ne_none d.face

@[simp] theorem look_nil (e : Entry) : e.look [] = some e.face := rfl

theorem look_cons (e : Entry) (name : String) (p : Place) :
    e.look (name :: p) = (e.child? name).bind fun c => c.look p := by
  rw [look, at?_cons]
  cases e.child? name <;> rfl

theorem look_below {e : Entry} {p q : Place} (h : e.look (p ++ q) ≠ none) (hq : q ≠ []) :
    e.look p = some .directory := by
  obtain ⟨name, q, rfl⟩ := List.exists_cons_of_ne_nil hq
  rw [Ne, look_eq_none, at?_append] at h
  cases found : e.at? p with
  | none =>
    rw [found] at h
    exact absurd rfl h
  | some c =>
    rw [found] at h
    rw [look, found]
    cases c with
    | file content executable => exact absurd rfl h
    | link target => exact absurd rfl h
    | directory entries => rfl

theorem lookup_cons (first other : String) (c : Entry) (entries : List (String × Entry)) :
    ((first, c) :: entries).lookup other =
      if other = first then some c else entries.lookup other := by
  rw [List.lookup_cons]
  by_cases same : other = first
  · rw [if_pos same, beq_iff_eq.mpr same]
  · rw [if_neg same, beq_eq_false_iff_ne.mpr same]

theorem lookup_insertInto (name other : String) (e : Entry) (entries : List (String × Entry)) :
    (insertInto name e entries).lookup other =
      if other = name then some e else entries.lookup other := by
  induction entries with
  | nil => exact lookup_cons name other e []
  | cons entry entries ih =>
    obtain ⟨first, c⟩ := entry
    rw [insertInto]
    by_cases before : name < first
    · rw [if_pos before, lookup_cons]
    · rw [if_neg before]
      by_cases same : name = first
      · rw [if_pos same, lookup_cons, lookup_cons, same]
        by_cases here : other = first <;> simp [here]
      · rw [if_neg same, lookup_cons, lookup_cons, ih]
        by_cases here : other = first
        · simp [here, Ne.symm same]
        · simp [here]

def Bare (e : Entry) : Prop := ∀ p, p ≠ [] → e.look p = none

theorem bare_file (content : Bytes) (executable : Bool) : Bare (file content executable) := by
  intro p hp
  obtain ⟨name, p, rfl⟩ := List.exists_cons_of_ne_nil hp
  rfl

theorem bare_directory : Bare (directory []) := by
  intro p hp
  obtain ⟨name, p, rfl⟩ := List.exists_cons_of_ne_nil hp
  rfl

/-- Putting something at a place where no directory is changes what is seen there only. -/
theorem look_put {e new : Entry} {above : Place} {name : String}
    (directory : e.look above = some .directory) (leaf : e.look (above ++ [name]) ≠ some .directory)
    (bare : new.Bare) :
    (e.put (above ++ [name]) new).look =
      Function.update e.look (above ++ [name]) (some new.face) := by
  induction above generalizing e with
  | nil =>
    rcases e with ⟨content, executable⟩ | target | entries
    · cases directory
    · cases directory
    funext q
    match q with
    | [] => simp [put, face]
    | other :: rest =>
      rw [List.nil_append, put, look_cons, child?, lookup_insertInto]
      by_cases here : other = name
      · subst here
        rw [if_pos rfl, Option.bind_some]
        by_cases last : rest = []
        · subst last
          rw [Function.update_self, look_nil]
        · have apart : other :: rest ≠ [other] := by simpa using last
          rw [Function.update_of_ne apart, bare rest last]
          by_contra found
          exact leaf (look_below (Ne.symm found) last)
      · have apart : other :: rest ≠ [name] := fun h => here (List.cons.inj h).1
        rw [if_neg here, Function.update_of_ne apart, look_cons, child?]
  | cons first above ih =>
    rcases e with ⟨content, executable⟩ | target | entries
    · cases directory
    · cases directory
    rw [look_cons, child?] at directory
    rw [List.cons_append, look_cons, child?] at leaf
    cases found : entries.lookup first with
    | none => rw [found] at directory; cases directory
    | some c =>
      rw [found, Option.bind_some] at directory leaf
      have inner := ih directory leaf
      obtain ⟨next, rest, split⟩ := List.exists_cons_of_ne_nil (l := above ++ [name]) (by simp)
      rw [List.cons_append, split, put, found]
      rw [split] at inner
      funext q
      match q with
      | [] => simp [face]
      | other :: q =>
        rw [look_cons, child?, lookup_insertInto]
        by_cases here : other = first
        · subst here
          rw [if_pos rfl, Option.bind_some, inner]
          by_cases there : q = next :: rest
          · subst there
            rw [Function.update_self, Function.update_self]
          · have apart : other :: q ≠ other :: next :: rest := fun h => there (List.cons.inj h).2
            rw [Function.update_of_ne there, Function.update_of_ne apart, look_cons, child?, found,
              Option.bind_some]
        · have apart : other :: q ≠ first :: next :: rest := fun h => here (List.cons.inj h).1
          rw [if_neg here, Function.update_of_ne apart, look_cons, child?]

mutual

/-- Whether every directory lists its entries by name, in order, each name once. -/
def isWellFormed : Entry → Bool
  | file .. => true
  | link .. => true
  | directory entries =>
    decide (entries.Pairwise fun a b => a.1 < b.1) && areWellFormed entries

def areWellFormed : List (String × Entry) → Bool
  | [] => true
  | (name, e) :: entries => decide (IsName name) && e.isWellFormed && areWellFormed entries

end

theorem areWellFormed_iff (entries : List (String × Entry)) :
    areWellFormed entries = true ↔ ∀ x ∈ entries, IsName x.1 ∧ x.2.isWellFormed = true := by
  induction entries with
  | nil => simp [areWellFormed]
  | cons x entries ih =>
    obtain ⟨name, e⟩ := x
    rw [areWellFormed, List.forall_mem_cons, ← ih]
    simp

theorem isWellFormed_directory (entries : List (String × Entry)) :
    (directory entries).isWellFormed = true ↔
      entries.Pairwise (fun a b => a.1 < b.1) ∧
        ∀ x ∈ entries, IsName x.1 ∧ x.2.isWellFormed = true := by
  rw [isWellFormed, Bool.and_eq_true, areWellFormed_iff, decide_eq_true_iff]

theorem mem_of_lookup {entries : List (String × Entry)} {name : String} {e : Entry}
    (h : entries.lookup name = some e) : (name, e) ∈ entries := by
  obtain ⟨before, after, rfl, -⟩ := List.lookup_eq_some_iff.mp h
  exact List.mem_append_right before List.mem_cons_self

theorem lookup_of_mem {entries : List (String × Entry)} {name : String} {e : Entry}
    (sorted : entries.Pairwise fun a b => a.1 < b.1) (h : (name, e) ∈ entries) :
    entries.lookup name = some e := by
  induction entries with
  | nil => cases h
  | cons x entries ih =>
    obtain ⟨first, c⟩ := x
    obtain ⟨before, sorted⟩ := List.pairwise_cons.mp sorted
    rw [lookup_cons]
    rcases List.mem_cons.mp h with here | later
    · cases here
      rw [if_pos rfl]
    · rw [if_neg (ne_of_gt (before (name, e) later))]
      exact ih sorted later

theorem isWellFormed_of_at? {e c : Entry} {p : Place} (h : e.isWellFormed = true)
    (hc : e.at? p = some c) : c.isWellFormed = true := by
  induction p generalizing e with
  | nil => cases hc; exact h
  | cons name p ih =>
    rw [at?_cons] at hc
    rcases e with ⟨content, executable⟩ | target | entries
    · cases hc
    · cases hc
    · obtain ⟨d, found, hc⟩ := Option.bind_eq_some_iff.mp hc
      exact ih (((isWellFormed_directory entries).mp h).2 _ (mem_of_lookup found)).2 hc

theorem isName_of_look {e : Entry} {p : Place} {name : String} (h : e.isWellFormed = true)
    (found : e.look (p ++ [name]) ≠ none) : IsName name := by
  obtain ⟨entries, above⟩ := look_eq_directory.mp (look_below found (List.cons_ne_nil name []))
  rw [look_append above, look_cons, child?] at found
  have well := (isWellFormed_directory entries).mp (isWellFormed_of_at? h above)
  cases here : entries.lookup name with
  | none => rw [here] at found; exact absurd rfl found
  | some c => exact (well.2 _ (mem_of_lookup here)).1

theorem mem_insertInto {name : String} {e : Entry} {entries : List (String × Entry)}
    {x : String × Entry} (h : x ∈ insertInto name e entries) : x = (name, e) ∨ x ∈ entries := by
  induction entries with
  | nil => simpa [insertInto] using h
  | cons y entries ih =>
    rw [insertInto] at h
    split at h
    · simpa using h
    · split at h
      · rcases List.mem_cons.mp h with h | h
        · exact .inl h
        · exact .inr (List.mem_cons_of_mem y h)
      · rcases List.mem_cons.mp h with rfl | h
        · exact .inr List.mem_cons_self
        · exact (ih h).imp_right (List.mem_cons_of_mem y)

theorem pairwise_insertInto {name : String} {e : Entry} {entries : List (String × Entry)}
    (h : entries.Pairwise fun a b => a.1 < b.1) :
    (insertInto name e entries).Pairwise fun a b => a.1 < b.1 := by
  induction entries with
  | nil => exact List.pairwise_singleton _ _
  | cons x entries ih =>
    obtain ⟨first, sorted⟩ := List.pairwise_cons.mp h
    rw [insertInto]
    by_cases before : name < x.1
    · rw [if_pos before]
      refine List.pairwise_cons.mpr ⟨List.forall_mem_cons.mpr ⟨before, ?_⟩, h⟩
      exact fun y hy => before.trans (first y hy)
    · rw [if_neg before]
      by_cases same : name = x.1
      · rw [if_pos same]
        exact List.pairwise_cons.mpr ⟨fun y hy => same ▸ first y hy, sorted⟩
      · rw [if_neg same]
        refine List.pairwise_cons.mpr ⟨fun y hy => ?_, ih sorted⟩
        rcases mem_insertInto hy with rfl | hy
        · exact lt_of_le_of_ne (not_lt.mp before) (Ne.symm same)
        · exact first y hy

theorem isWellFormed_insertInto {name : String} {new : Entry} {entries : List (String × Entry)}
    (h : (directory entries).isWellFormed = true) (named : IsName name)
    (well : new.isWellFormed = true) :
    (directory (insertInto name new entries)).isWellFormed = true := by
  obtain ⟨sorted, below⟩ := (isWellFormed_directory entries).mp h
  refine (isWellFormed_directory _).mpr ⟨pairwise_insertInto sorted, fun x hx => ?_⟩
  rcases mem_insertInto hx with rfl | hx
  · exact ⟨named, well⟩
  · exact below x hx

theorem isWellFormed_put {e new : Entry} {above : Place} {name : String}
    (h : e.isWellFormed = true) (named : IsName name) (well : new.isWellFormed = true) :
    (e.put (above ++ [name]) new).isWellFormed = true := by
  induction above generalizing e with
  | nil =>
    rcases e with ⟨content, executable⟩ | target | entries
    · exact h
    · exact h
    · exact isWellFormed_insertInto h named well
  | cons first above ih =>
    obtain ⟨next, rest, split⟩ := List.exists_cons_of_ne_nil (l := above ++ [name]) (by simp)
    rcases e with ⟨content, executable⟩ | target | entries
    · rw [List.cons_append, split]; exact h
    · rw [List.cons_append, split]; exact h
    · rw [List.cons_append, split, put]
      cases found : entries.lookup first with
      | none => exact h
      | some c =>
        have below := ((isWellFormed_directory entries).mp h).2 _ (mem_of_lookup found)
        rw [← split]
        exact isWellFormed_insertInto h below.1 (ih below.2)

theorem lookup_filter_ne {entries : List (String × Entry)} {name other : String}
    (ne : other ≠ name) :
    (entries.filter fun entry => entry.1 ≠ name).lookup other = entries.lookup other := by
  induction entries with
  | nil => rfl
  | cons x entries ih =>
    obtain ⟨first, c⟩ := x
    by_cases gone : first = name
    · rw [List.filter_cons_of_neg (by simpa using gone), ih, lookup_cons, if_neg (gone ▸ ne)]
    · rw [List.filter_cons_of_pos (by simpa using gone), lookup_cons, lookup_cons, ih]

theorem look_erase {e : Entry} {p q : Place} (h : ¬ p <+: q) : (e.erase p).look q = e.look q := by
  induction p generalizing e q with
  | nil => exact absurd (List.nil_prefix) h
  | cons name p ih =>
    rcases e with ⟨content, executable⟩ | target | entries
    · rfl
    · rfl
    cases q with
    | nil => cases p with
      | nil => rfl
      | cons next rest =>
        rw [erase]
        split <;> rfl
    | cons other q =>
      rw [List.cons_prefix_cons, not_and] at h
      cases p with
      | nil =>
        have ne : other ≠ name := fun same => h same.symm List.nil_prefix
        rw [erase, look_cons, look_cons, child?, child?, lookup_filter_ne ne]
      | cons next rest =>
        rw [erase]
        cases found : entries.lookup name with
        | none => rfl
        | some c =>
          rw [look_cons, look_cons, child?, child?, lookup_insertInto]
          by_cases here : other = name
          · rw [if_pos here, here, found, Option.bind_some, Option.bind_some, ih (h here.symm)]
          · rw [if_neg here]

theorem isWellFormed_erase {e : Entry} {p : Place} (h : e.isWellFormed = true) :
    (e.erase p).isWellFormed = true := by
  induction p generalizing e with
  | nil => cases e <;> exact h
  | cons name p ih =>
    rcases e with ⟨content, executable⟩ | target | entries
    · exact h
    · exact h
    · obtain ⟨sorted, below⟩ := (isWellFormed_directory entries).mp h
      cases p with
      | nil =>
        rw [erase]
        refine (isWellFormed_directory _).mpr ⟨sorted.filter _, fun x hx => ?_⟩
        exact below x (List.mem_of_mem_filter hx)
      | cons next rest =>
        rw [erase]
        cases found : entries.lookup name with
        | none => exact h
        | some c =>
          have inner := below _ (mem_of_lookup found)
          exact isWellFormed_insertInto h inner.1 (ih inner.2)

mutual

def isLinkFree : Entry → Bool
  | file .. => true
  | link _ => false
  | directory entries => areLinkFree entries

def areLinkFree : List (String × Entry) → Bool
  | [] => true
  | (_, e) :: entries => e.isLinkFree && areLinkFree entries

end

theorem isLinkFree_of_mem {entries : List (String × Entry)} (h : areLinkFree entries = true)
    {x : String × Entry} (hx : x ∈ entries) : x.2.isLinkFree = true := by
  induction entries with
  | nil => cases hx
  | cons y entries ih =>
    obtain ⟨name, e⟩ := y
    rw [areLinkFree, Bool.and_eq_true] at h
    rcases List.mem_cons.mp hx with rfl | later
    · exact h.1
    · exact ih h.2 later

theorem look_ne_link {e : Entry} (h : e.isLinkFree = true) (p : Place) (target : String) :
    e.look p ≠ some (.link target) := by
  induction p generalizing e with
  | nil =>
    cases e with
    | file _ _ => simp [face]
    | link _ => cases h
    | directory _ => simp [face]
  | cons name p ih =>
    rw [look_cons]
    cases e with
    | file _ _ => simp [child?]
    | link _ => cases h
    | directory entries =>
      rw [isLinkFree] at h
      rw [child?]
      cases found : entries.lookup name with
      | none => simp
      | some c => exact ih (isLinkFree_of_mem h (mem_of_lookup found))

end Entry
end HybridTemplate.Files
