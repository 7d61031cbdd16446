import HybridTemplate.Proofs.Traversal.Runs
import HybridTemplate.Proofs.Tree.Productions

set_option autoImplicit false

namespace HybridTemplate.Node

variable {α β : Type} {yields : Node → List (Value α) → Value α}

mutual

/-- What a node hands up, where it yields a value for those that its children hand up. -/
def handedBy (yields : Node → List (Value α) → Value α) : Node → Value α
  | ⟨kind, start, text, children⟩ =>
    yields ⟨kind, start, text, children⟩ (handedByAll yields children)

def handedByAll (yields : Node → List (Value α) → Value α) : List Node → List (Value α)
  | [] => []
  | n :: ns => handedBy yields n :: handedByAll yields ns

end

theorem handedByAll_eq (yields : Node → List (Value α) → Value α) (ns : List Node) :
    handedByAll yields ns = ns.map (handedBy yields) := by
  induction ns with
  | nil => rw [handedByAll, List.map_nil]
  | cons n ns ih => rw [handedByAll, ih, List.map_cons]

theorem handedBy_eq (yields : Node → List (Value α) → Value α) (n : Node) :
    handedBy yields n = yields n (n.children.map (handedBy yields)) := by
  cases n
  rw [handedBy, handedByAll_eq]

theorem handedBy_leaf {n : Node} (h : n.Follows) (leaf : n.kind.isLeaf = true)
    (passes : ∀ vs, yields n vs = Table.passOn n vs) : handedBy yields n = .text n.text := by
  rw [handedBy_eq, passes, h.of_leaf leaf]
  rfl

/-- Nodes hand up what the attributes below them do: the last child of an attribute with space
before it, the first child of an attribute, and the values of all. -/
structure PassesAttributes (yields : Node → List (Value α) → Value α) : Prop where
  spacedAttribute : ∀ {n : Node} (vs : List (Value α)), n.kind = .spacedAttribute →
    yields n vs = vs.getLast?.getD .empty
  markupAttribute : ∀ {n : Node} (vs : List (Value α)), n.kind = .markupAttribute →
    yields n vs = vs.head?.getD .empty
  attributes : ∀ {n : Node} (vs : List (Value α)), n.kind = .attributes →
    yields n vs = Table.passOn n vs

namespace PassesAttributes

variable {f : α → β} {g : Node → Option β}

theorem items_spacedAttribute (passes : PassesAttributes yields)
    (each : ∀ b : Node, b.Conforms → b.kind.isAttribute = true →
      (handedBy yields b).items.map f = (g b).toList)
    {s : Node} (h : s.Conforms) (hs : s.kind = .spacedAttribute) :
    (handedBy yields s).items.map f = (s.children.flatMap Node.children).filterMap g := by
  obtain ⟨t, a, eq, ht, ha⟩ := h.follows.spacedAttribute hs
  have child : ∀ c ∈ [t, a], c.Conforms := fun c hc => h.child (eq ▸ hc)
  simp only [List.forall_mem_cons] at child
  obtain ⟨ct, ca, -⟩ := child
  obtain ⟨b, inner, hb⟩ := ca.follows.markupAttribute ha
  have space := ct.follows.of_leaf (by rw [ht]; rfl)
  have whole : handedBy yields s = handedBy yields b := by
    rw [handedBy_eq yields s, passes.spacedAttribute _ hs, eq]
    change handedBy yields a = _
    rw [handedBy_eq yields a, passes.markupAttribute _ ha, inner]
    rfl
  rw [whole, eq, each b (ca.child (inner ▸ List.mem_singleton_self b)) hb]
  simp only [List.flatMap_cons, List.flatMap_nil, space, inner, List.nil_append, List.append_nil]
  cases found : g b <;> simp [found]

theorem items_attributes (passes : PassesAttributes yields)
    (each : ∀ b : Node, b.Conforms → b.kind.isAttribute = true →
      (handedBy yields b).items.map f = (g b).toList)
    {a : Node} (h : a.Conforms) (ha : a.kind = .attributes) :
    (handedBy yields a).items.map f =
      (a.children.flatMap fun s => s.children.flatMap Node.children).filterMap g := by
  have spaced := h.follows.attributes ha
  rw [handedBy_eq, passes.attributes _ ha, Table.items_passOn, List.flatMap_map, List.map_flatMap,
    List.filterMap_flatMap, List.flatMap_def, List.flatMap_def]
  refine congrArg List.flatten (List.map_congr_left fun s hs => ?_)
  exact passes.items_spacedAttribute each (h.child hs) (spaced s hs)

end PassesAttributes
end HybridTemplate.Node
