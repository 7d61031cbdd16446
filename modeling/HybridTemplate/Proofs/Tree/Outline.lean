import HybridTemplate.Proofs.Tree.Shape
import Mathlib.Data.List.DropRight
import Mathlib.Data.List.Flatten
import Mathlib.Data.List.Perm.Basic

set_option autoImplicit false

/-! An outline has the nodes of a tree in the order in which a traversal leaves them, each
component as a whole: what stands in a component is left out. The components cut it into
stretches. Where no component stands in another, a node of the tree is in one component or in one
stretch. -/
namespace HybridTemplate.Node

def isComponent (n : Node) : Bool := n.kind = .component

theorem isComponent_iff {n : Node} : isComponent n = true ↔ n.kind = .component :=
  decide_eq_true_iff

theorem not_isComponent_iff {n : Node} : isComponent n = false ↔ n.kind ≠ .component :=
  decide_eq_false_iff_not

mutual

def outline : Node → List Node
  | ⟨kind, start, text, children⟩ =>
    (if kind = .component then [] else outlineAll children) ++ [⟨kind, start, text, children⟩]

def outlineAll : List Node → List Node
  | [] => []
  | n :: ns => n.outline ++ outlineAll ns

end

/-- The outline of what stands in a node. -/
def interior (n : Node) : List Node := outlineAll n.children

theorem outlineAll_eq (ns : List Node) : outlineAll ns = ns.flatMap outline := by
  induction ns with
  | nil => rw [outlineAll, List.flatMap_nil]
  | cons n ns ih => rw [outlineAll, ih, List.flatMap_cons]

theorem outline_of_component {n : Node} (h : n.kind = .component) : n.outline = [n] := by
  cases n
  rw [outline, if_pos h, List.nil_append]

theorem outline_of_other {n : Node} (h : n.kind ≠ .component) : n.outline = n.interior ++ [n] := by
  cases n
  rw [outline, if_neg h, interior]

theorem mem_interior {n m : Node} : m ∈ n.interior ↔ ∃ c ∈ n.children, m ∈ c.outline := by
  rw [interior, outlineAll_eq, List.mem_flatMap]

theorem preorder_of_outline {n m : Node} (h : m ∈ n.outline) : m ∈ n.preorder := by
  induction n using children_induction with
  | node n ih =>
    by_cases hc : n.kind = .component
    · rw [outline_of_component hc, List.mem_singleton] at h
      exact mem_preorder.mpr (.inl h)
    · rw [outline_of_other hc, List.mem_append, mem_interior, List.mem_singleton] at h
      rcases h with ⟨c, hc, below⟩ | self
      · exact mem_preorder.mpr (.inr ⟨c, hc, ih c hc below⟩)
      · exact mem_preorder.mpr (.inl self)

theorem preorder_of_interior {n m : Node} (h : m ∈ n.interior) :
    ∃ c ∈ n.children, m ∈ c.preorder := by
  obtain ⟨c, hc, below⟩ := mem_interior.mp h
  exact ⟨c, hc, preorder_of_outline below⟩

theorem mem_components_of_interior {n c : Node} (h : c ∈ n.interior) (hc : c.kind = .component) :
    ∃ d ∈ n.children, c ∈ d.components := by
  obtain ⟨d, hd, below⟩ := preorder_of_interior h
  exact ⟨d, hd, List.mem_filter.mpr ⟨below, decide_eq_true hc⟩⟩

/-- What an entry of an outline stands for. -/
def whole (n : Node) : List Node := if n.kind = .component then n.preorder else [n]

theorem outline_perm (n : Node) : (n.outline.flatMap whole).Perm n.preorder := by
  induction n using children_induction with
  | node n ih =>
    by_cases hc : n.kind = .component
    · rw [outline_of_component hc, List.flatMap_singleton, whole, if_pos hc]
    · have below : (n.interior.flatMap whole).Perm (preorderAll n.children) := by
        rw [interior, outlineAll_eq, preorderAll_eq, List.flatMap_assoc]
        exact List.Perm.flatMap_left _ ih
      rw [outline_of_other hc, List.flatMap_append, List.flatMap_singleton, whole, if_neg hc,
        preorder_eq]
      exact (List.perm_append_singleton n _).trans (below.cons n)

theorem interior_perm (n : Node) : (n.interior.flatMap whole).Perm (preorderAll n.children) := by
  rw [interior, outlineAll_eq, preorderAll_eq, List.flatMap_assoc]
  exact List.Perm.flatMap_left _ fun c _ => outline_perm c

theorem interior_subperm (n : Node) : List.Subperm n.interior n.preorder := by
  have part : n.interior.Sublist (n.interior.flatMap whole) := by
    conv_lhs => rw [← List.flatMap_singleton' n.interior]
    refine List.Sublist.flatMap_right _ fun m _ => ?_
    rw [whole, preorder_eq]
    split
    · exact List.singleton_sublist.mpr List.mem_cons_self
    · exact List.Sublist.refl [m]
  rw [preorder_eq]
  exact (part.subperm.trans (interior_perm n).subperm).trans (List.sublist_cons_self _ _).subperm

theorem free_interior {c : Node} (bare : ∀ d ∈ c.children, d.components = []) :
    ∀ m ∈ c.interior, m.kind ≠ .component := by
  intro m hm hc
  obtain ⟨d, hd, found⟩ := mem_components_of_interior hm hc
  rw [bare d hd] at found
  cases found

theorem ComponentsApart.of_interior {n : Node} (h : n.ComponentsApart) :
    ∀ c ∈ n.interior, c.kind = .component → ∀ d ∈ c.children, d.components = [] := by
  intro c hc kind
  obtain ⟨d, hd, found⟩ := mem_components_of_interior hc kind
  exact h c (mem_components_of_child hd found)

/-- The components in an outline are all there are, where none stands in another. -/
theorem ComponentsApart.filter_outline {n : Node} (h : n.ComponentsApart) :
    n.outline.filter isComponent = n.components := by
  induction n using children_induction with
  | node n ih =>
    by_cases hc : n.kind = .component
    · have bare := List.flatMap_eq_nil_iff.mpr (h n (mem_components_self hc))
      rw [outline_of_component hc, components_eq, if_pos hc, bare, List.append_nil,
        List.filter_singleton, isComponent_iff.mpr hc]
      rfl
    · have below : n.interior.filter isComponent = n.children.flatMap components := by
        rw [interior, outlineAll_eq, List.filter_flatMap, List.flatMap_def, List.flatMap_def]
        exact congrArg List.flatten (List.map_congr_left fun c hc => ih c hc (h.child hc))
      rw [outline_of_other hc, List.filter_append, List.filter_singleton,
        not_isComponent_iff.mpr hc, below, components_eq, if_neg hc]
      exact List.append_nil _

theorem ComponentsApart.filter_interior {n : Node} (h : n.ComponentsApart)
    (hc : n.kind ≠ .component) : n.interior.filter isComponent = n.components := by
  have whole := h.filter_outline
  rwa [outline_of_other hc, List.filter_append, List.filter_singleton, not_isComponent_iff.mpr hc,
    cond_false, List.append_nil] at whole

mutual

def ended : Node → List Node
  | ⟨kind, start, text, children⟩ =>
    endedAll children ++ if kind = .component then [⟨kind, start, text, children⟩] else []

def endedAll : List Node → List Node
  | [] => []
  | n :: ns => n.ended ++ endedAll ns

end

theorem endedAll_eq (ns : List Node) : endedAll ns = ns.flatMap ended := by
  induction ns with
  | nil => rw [endedAll, List.flatMap_nil]
  | cons n ns ih => rw [endedAll, ih, List.flatMap_cons]

theorem ended_eq (n : Node) :
    n.ended = n.children.flatMap ended ++ if n.kind = .component then [n] else [] := by
  cases n
  rw [ended, endedAll_eq]

/-- Components end in the order of the document, where none stands in another. -/
theorem ComponentsApart.ended_eq {n : Node} (h : n.ComponentsApart) : n.ended = n.components := by
  induction n using children_induction with
  | node n ih =>
    have below : n.children.flatMap ended = n.children.flatMap components := by
      rw [List.flatMap_def, List.flatMap_def]
      exact congrArg List.flatten (List.map_congr_left fun c hc => ih c hc (h.child hc))
    rw [Node.ended_eq, components_eq, below]
    by_cases hc : n.kind = .component
    · have bare := List.flatMap_eq_nil_iff.mpr (h n (mem_components_self hc))
      rw [bare, List.nil_append, List.append_nil]
    · rw [if_neg hc, List.nil_append, List.append_nil]

def strays (n : Node) : List (List Node) := n.interior.splitOnP isComponent

def lastStretch (ns : List Node) : List Node := ns.rtakeWhile fun n => !isComponent n

def tail (n : Node) : List Node := lastStretch n.interior

theorem lastStretch_concat (ns : List Node) (n : Node) :
    lastStretch (ns ++ [n]) = if n.kind = .component then [] else lastStretch ns ++ [n] := by
  rw [lastStretch, List.rtakeWhile_concat]
  by_cases hc : n.kind = .component <;> simp [isComponent, lastStretch, hc]

theorem lastStretch_of_free {ns : List Node} (h : ∀ n ∈ ns, n.kind ≠ .component) :
    lastStretch ns = ns := by
  refine List.rtakeWhile_eq_self_iff.mpr fun n hn => ?_
  rw [not_isComponent_iff.mpr (h n hn), Bool.not_false]

theorem flatten_splitOnP {α : Type} (p : α → Bool) (as : List α) :
    (as.splitOnP p).flatten = as.filter fun a => !p a := by
  induction as with
  | nil => rfl
  | cons a as ih =>
    obtain ⟨s, ss, split⟩ := List.exists_cons_of_ne_nil (List.splitOnP_ne_nil p as)
    rw [split] at ih
    rw [List.splitOnP_cons_eq_if_modifyHead, split, List.filter_cons, ← ih]
    cases p a <;> simp

/-- The stretches of a list that goes on behind some nodes outside components. -/
def stretches (ms ns : List Node) : List (List Node) :=
  (ns.splitOnP isComponent).modifyHead (ms ++ ·)

theorem strays_eq (n : Node) : n.strays = stretches [] n.interior :=
  (congrFun List.modifyHead_id _).symm

theorem stretches_nil (ms : List Node) : stretches ms [] = [ms] :=
  congrArg List.singleton (List.append_nil ms)

theorem stretches_component {n : Node} (h : n.kind = .component) (ms ns : List Node) :
    stretches ms (n :: ns) = ms :: stretches [] ns := by
  rw [stretches, List.splitOnP_cons_eq_if_modifyHead, if_pos (isComponent_iff.mpr h),
    List.modifyHead_cons, List.append_nil]
  exact congrArg (List.cons ms) (congrFun List.modifyHead_id _).symm

theorem stretches_other {n : Node} (h : n.kind ≠ .component) (ms ns : List Node) :
    stretches ms (n :: ns) = stretches (ms ++ [n]) ns := by
  rw [stretches, List.splitOnP_cons_eq_if_modifyHead, not_isComponent_iff.mpr h,
    if_neg Bool.false_ne_true, List.modifyHead_modifyHead, stretches]
  congr 1
  exact funext fun s => List.append_cons ms n s

theorem stretches_of_free {ns : List Node} (h : ∀ n ∈ ns, n.kind ≠ .component) (ms : List Node) :
    stretches ms ns = [ms ++ ns] := by
  rw [stretches, List.splitOnP_eq_singleton fun n hn => not_isComponent_iff.mpr (h n hn),
    List.modifyHead_cons]

theorem exists_stretches (ms ns : List Node) :
    ∃ s ss, stretches ms ns = (ms ++ s) :: ss := by
  obtain ⟨s, ss, split⟩ := List.exists_cons_of_ne_nil (List.splitOnP_ne_nil isComponent ns)
  exact ⟨s, ss, by rw [stretches, split, List.modifyHead_cons]⟩

/-- The stretch behind the last component is all there is, where there is no component. -/
theorem tail_perm {c : Node} (bare : ∀ d ∈ c.children, d.components = []) :
    c.tail.Perm (preorderAll c.children) := by
  have free := free_interior bare
  have parts : c.interior.flatMap whole = c.interior := by
    conv_rhs => rw [← List.flatMap_singleton' c.interior]
    rw [List.flatMap_def, List.flatMap_def]
    exact congrArg List.flatten (List.map_congr_left fun m hm => if_neg (free m hm))
  have perm := interior_perm c
  rw [parts] at perm
  rw [tail, lastStretch_of_free free]
  exact perm

/-- What stands in a node stands in one of its components or outside them. -/
theorem mem_preorderAll_iff {n m : Node} :
    m ∈ preorderAll n.children ↔
      (∃ c ∈ n.children.flatMap components, m ∈ c.preorder) ∨ m ∈ n.strays.flatten := by
  rw [strays, flatten_splitOnP, List.mem_filter, preorderAll_eq, List.mem_flatMap]
  constructor
  · intro h
    rw [← List.mem_flatMap, ← preorderAll_eq, ← (interior_perm n).mem_iff, List.mem_flatMap] at h
    obtain ⟨k, hk, inside⟩ := h
    rw [whole] at inside
    by_cases kind : k.kind = .component
    · rw [if_pos kind] at inside
      obtain ⟨d, hd, found⟩ := mem_components_of_interior hk kind
      exact .inl ⟨k, List.mem_flatMap.mpr ⟨d, hd, found⟩, inside⟩
    · rw [if_neg kind, List.mem_singleton] at inside
      rw [inside, not_isComponent_iff.mpr kind]
      exact .inr ⟨hk, rfl⟩
  · rintro (⟨c, hc, inside⟩ | ⟨hm, -⟩)
    · obtain ⟨d, hd, found⟩ := List.mem_flatMap.mp hc
      exact ⟨d, hd, preorder_trans (List.mem_of_mem_filter found) inside⟩
    · exact preorder_of_interior hm

end HybridTemplate.Node
