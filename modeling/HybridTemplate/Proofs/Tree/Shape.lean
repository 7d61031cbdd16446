import HybridTemplate.Tree.Node

set_option autoImplicit false

namespace HybridTemplate.Node

def Composed (n : Node) : Prop :=
  ∀ m ∈ n.preorder, m.children ≠ [] → m.text = textOf m.children

@[simp] theorem textOf_nil : textOf [] = "" := String.join_nil

@[simp] theorem textOf_cons (n : Node) (ns : List Node) : textOf (n :: ns) = n.text ++ textOf ns :=
  String.join_cons

theorem toList_textOf (ns : List Node) :
    (textOf ns).toList = ns.flatMap fun n => n.text.toList := by
  induction ns with
  | nil => simp
  | cons n ns ih => rw [textOf_cons, String.toList_append, ih, List.flatMap_cons]

theorem preorder_eq (n : Node) : n.preorder = n :: preorderAll n.children := by
  cases n
  rw [preorder]

theorem preorderAll_eq (ns : List Node) : preorderAll ns = ns.flatMap preorder := by
  induction ns with
  | nil => rw [preorderAll, List.flatMap_nil]
  | cons n ns ih => rw [preorderAll, ih, List.flatMap_cons]

theorem mem_preorder {m n : Node} :
    m ∈ n.preorder ↔ m = n ∨ ∃ c ∈ n.children, m ∈ c.preorder := by
  rw [preorder_eq, preorderAll_eq, List.mem_cons, List.mem_flatMap]

theorem flatMap_preorder {α : Type} (f : Node → List α) (n : Node) :
    n.preorder.flatMap f = f n ++ n.children.flatMap fun c => c.preorder.flatMap f := by
  rw [preorder_eq, preorderAll_eq, List.flatMap_cons, List.flatMap_assoc]

theorem filter_preorder (f : Node → Bool) (n : Node) :
    n.preorder.filter f = [n].filter f ++ n.children.flatMap fun c => c.preorder.filter f := by
  rw [preorder_eq, preorderAll_eq, ← List.singleton_append, List.filter_append, List.filter_flatMap]

/-- What holds of a node once it holds of its children holds of all nodes. -/
@[elab_as_elim] theorem children_induction {P : Node → Prop}
    (node : ∀ n : Node, (∀ c ∈ n.children, P c) → P n) (n : Node) : P n := by
  match n with
  | ⟨kind, start, text, children⟩ =>
    refine node _ fun c hc => ?_
    have smaller := List.sizeOf_lt_of_mem hc
    exact children_induction node c
termination_by sizeOf n
decreasing_by
  simp only [Node.mk.sizeOf_spec]
  dsimp only at smaller
  omega

theorem preorder_trans {k m n : Node} (hm : m ∈ n.preorder) (hk : k ∈ m.preorder) :
    k ∈ n.preorder := by
  induction n using children_induction with
  | node n ih =>
    rcases mem_preorder.mp hm with rfl | ⟨c, hc, hm⟩
    · exact hk
    · exact mem_preorder.mpr (.inr ⟨c, hc, ih c hc hm⟩)

theorem Composed.text_eq {n : Node} (h : n.Composed) (hn : n.children ≠ []) :
    n.text = textOf n.children :=
  h n (by rw [preorder_eq]; exact List.mem_cons_self) hn

theorem Composed.child {n c : Node} (h : n.Composed) (hc : c ∈ n.children) : c.Composed := by
  intro m hm
  refine h m ?_
  rw [preorder_eq, preorderAll_eq]
  exact List.mem_cons_of_mem n (List.mem_flatMap.mpr ⟨c, hc, hm⟩)

def components (n : Node) : List Node := n.preorder.filter fun m => m.kind = .component

def ComponentsApart (n : Node) : Prop := ∀ c ∈ n.components, ∀ d ∈ c.children, d.components = []

theorem components_eq (n : Node) :
    n.components = (if n.kind = .component then [n] else []) ++ n.children.flatMap components := by
  have own : [n].filter (fun m => m.kind = .component) =
      if n.kind = .component then [n] else [] := by
    by_cases hc : n.kind = .component <;> simp [hc]
  rw [components, filter_preorder, own]
  rfl

theorem mem_components_self {c : Node} (hc : c.kind = .component) : c ∈ c.components := by
  rw [components_eq, if_pos hc]
  exact List.mem_cons_self

theorem mem_components_of_child {n c d : Node} (hc : c ∈ n.children) (hd : d ∈ c.components) :
    d ∈ n.components := by
  rw [components_eq]
  exact List.mem_append_right _ (List.mem_flatMap.mpr ⟨c, hc, hd⟩)

theorem ComponentsApart.child {n d : Node} (h : n.ComponentsApart) (hd : d ∈ n.children) :
    d.ComponentsApart :=
  fun c hc => h c (mem_components_of_child hd hc)

mutual

/-- The nodes in document order, each with those above it, the nearest first. -/
def lines (above : List Node) : Node → List (Node × List Node)
  | ⟨kind, start, text, children⟩ =>
    (⟨kind, start, text, children⟩, above) ::
      linesAll (⟨kind, start, text, children⟩ :: above) children

def linesAll (above : List Node) : List Node → List (Node × List Node)
  | [] => []
  | n :: ns => n.lines above ++ linesAll above ns

end

theorem lines_eq (above : List Node) (n : Node) :
    n.lines above = (n, above) :: linesAll (n :: above) n.children := by
  cases n
  rw [lines]

theorem linesAll_eq (above ns : List Node) : linesAll above ns = ns.flatMap (lines above) := by
  induction ns with
  | nil => rw [linesAll, List.flatMap_nil]
  | cons n ns ih => rw [linesAll, ih, List.flatMap_cons]

/-- What stood above before stands above every node. -/
theorem suffix_of_mem_lines {n : Node} {above : List Node} {l : Node × List Node}
    (h : l ∈ n.lines above) : above <:+ l.2 := by
  induction n using children_induction generalizing above with
  | node n ih =>
    rw [lines_eq, linesAll_eq] at h
    rcases List.mem_cons.mp h with rfl | below
    · exact List.suffix_rfl
    · obtain ⟨c, hc, hl⟩ := List.mem_flatMap.mp below
      exact (List.suffix_cons n above).trans (ih c hc hl)

theorem suffix_of_mem_linesAll {ns above : List Node} {l : Node × List Node}
    (h : l ∈ linesAll above ns) : above <:+ l.2 := by
  rw [linesAll_eq] at h
  obtain ⟨n, -, hl⟩ := List.mem_flatMap.mp h
  exact suffix_of_mem_lines hl

end HybridTemplate.Node
