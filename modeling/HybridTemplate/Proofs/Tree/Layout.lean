import HybridTemplate.Proofs.Tree.Shape

set_option autoImplicit false

namespace HybridTemplate.Node

/-- Trees that leaves and branches make. -/
inductive Built : Node → Prop
  | leaf (kind : Kind) (text : String) : Built (leaf kind text)
  | branch (kind : Kind) (children : List Node) (h : ∀ c ∈ children, Built c) :
    Built (branch kind children)

/-- Whether laying the tree out where it stands changes nothing. -/
def LaidOut (n : Node) : Prop := n.rebase n.start = n

mutual

def shift (k : Nat) : Node → Node
  | ⟨kind, start, text, children⟩ => ⟨kind, start + k, text, shiftAll k children⟩

def shiftAll (k : Nat) : List Node → List Node
  | [] => []
  | n :: ns => n.shift k :: shiftAll k ns

end

theorem shiftAll_eq (k : Nat) (ns : List Node) : shiftAll k ns = ns.map (shift k) := by
  induction ns with
  | nil => rw [shiftAll, List.map_nil]
  | cons n ns ih => rw [shiftAll, ih, List.map_cons]

@[simp] theorem shift_kind (k : Nat) (n : Node) : (n.shift k).kind = n.kind := by
  cases n; rw [shift]

@[simp] theorem shift_start (k : Nat) (n : Node) : (n.shift k).start = n.start + k := by
  cases n; rw [shift]

@[simp] theorem shift_text (k : Nat) (n : Node) : (n.shift k).text = n.text := by
  cases n; rw [shift]

@[simp] theorem shift_children (k : Nat) (n : Node) :
    (n.shift k).children = n.children.map (shift k) := by
  cases n; rw [shift, shiftAll_eq]

mutual

theorem preorder_shift (k : Nat) (n : Node) : (n.shift k).preorder = n.preorder.map (shift k) := by
  match n with
  | ⟨kind, start, text, children⟩ =>
    have below := preorderAll_shiftAll k children
    rw [preorder_eq, shift_children, ← shiftAll_eq, below, preorder_eq, List.map_cons]

theorem preorderAll_shiftAll (k : Nat) (ns : List Node) :
    preorderAll (shiftAll k ns) = (preorderAll ns).map (shift k) := by
  match ns with
  | [] => rw [shiftAll, preorderAll, List.map_nil]
  | n :: ns =>
    rw [shiftAll, preorderAll, preorderAll, List.map_append, preorder_shift k n,
      preorderAll_shiftAll k ns]

end

@[simp] theorem child?_shift (k : Nat) (n : Node) (kind : Kind) :
    (n.shift k).child? kind = (n.child? kind).map (shift k) := by
  rw [child?, child?, shift_children, List.find?_map]
  simp only [Function.comp_def, shift_kind]

@[simp] theorem find?_shift (k : Nat) (n : Node) (kind : Kind) :
    (n.shift k).find? kind = (n.find? kind).map (shift k) := by
  rw [find?, find?, preorder_shift, List.find?_map]
  simp only [Function.comp_def, shift_kind]

theorem components_shift (k : Nat) (n : Node) :
    (n.shift k).components = n.components.map (shift k) := by
  simp [components, preorder_shift, List.filter_map, Function.comp_def]

mutual

theorem shift_rebase (j k : Nat) (n : Node) : (n.rebase j).shift k = n.rebase (j + k) := by
  match n with
  | ⟨kind, start, text, children⟩ => rw [rebase, rebase, shift, shiftAll_rebaseAll]

theorem shiftAll_rebaseAll (j k : Nat) (ns : List Node) :
    shiftAll k (rebaseAll j ns) = rebaseAll (j + k) ns := by
  match ns with
  | [] => rw [rebaseAll, rebaseAll, shiftAll]
  | n :: ns =>
    rw [rebaseAll, rebaseAll, shiftAll, shift_rebase j k n, shiftAll_rebaseAll _ k ns,
      Nat.add_right_comm]

end

mutual

theorem rebase_rebase (j k : Nat) (n : Node) : (n.rebase j).rebase k = n.rebase k := by
  match n with
  | ⟨kind, start, text, children⟩ => rw [rebase, rebase, rebase, rebaseAll_rebaseAll]

theorem rebaseAll_rebaseAll (j k : Nat) (ns : List Node) :
    rebaseAll k (rebaseAll j ns) = rebaseAll k ns := by
  match ns with
  | [] => rw [rebaseAll, rebaseAll]
  | n :: ns =>
    rw [rebaseAll, rebaseAll, rebaseAll, rebase_rebase j k n, rebase_text,
      rebaseAll_rebaseAll _ _ ns]

end

theorem rebase_children (k : Nat) (n : Node) :
    (n.rebase k).children = rebaseAll k n.children := by
  cases n; rw [rebase]

theorem find?_rebaseAll (k : Nat) (ns : List Node) (kind : Kind) :
    ((rebaseAll k ns).find? fun c => c.kind = kind).map text =
      (ns.find? fun c => c.kind = kind).map text := by
  induction ns generalizing k with
  | nil => rw [rebaseAll]
  | cons n ns ih =>
    rw [rebaseAll, List.find?_cons, List.find?_cons, rebase_kind]
    split
    · rw [Option.map_some, Option.map_some, rebase_text]
    · exact ih _

theorem child?_rebase (k : Nat) (n : Node) (kind : Kind) :
    ((n.rebase k).child? kind).map text = (n.child? kind).map text := by
  rw [child?, child?, rebase_children, find?_rebaseAll]

theorem laidOut_rebase (k : Nat) (n : Node) : (n.rebase k).LaidOut := by
  rw [LaidOut, rebase_start, rebase_rebase]

theorem Built.laidOut {n : Node} (h : n.Built) : n.LaidOut := by
  cases h with
  | leaf kind text => rw [LaidOut, Node.leaf, rebase, rebaseAll]
  | branch kind children h => exact laidOut_rebase 0 _

theorem Built.start_eq {n : Node} (h : n.Built) : n.start = 0 := by
  cases h with
  | leaf kind text => rfl
  | branch kind children h => exact rebase_start 0 _

theorem laidOut_of_rebaseAll {k : Nat} {ns : List Node} (h : rebaseAll k ns = ns) :
    ∀ n ∈ ns, n.LaidOut := by
  induction ns generalizing k with
  | nil => exact List.forall_mem_nil _
  | cons n ns ih =>
    rw [rebaseAll, List.cons.injEq] at h
    have head : n.LaidOut := h.1 ▸ laidOut_rebase k n
    exact List.forall_mem_cons.mpr ⟨head, ih h.2⟩

theorem LaidOut.child {n c : Node} (h : n.LaidOut) (hc : c ∈ n.children) : c.LaidOut := by
  have children : rebaseAll n.start n.children = n.children := by
    rw [← rebase_children, h]
  exact laidOut_of_rebaseAll children c hc

theorem LaidOut.shift_eq {n : Node} (h : n.LaidOut) : (n.rebase 0).shift n.start = n := by
  rw [shift_rebase, Nat.zero_add]
  exact h

theorem LaidOut.children_eq {n : Node} (h : n.LaidOut) :
    rebaseAll n.start n.children = n.children := by
  rw [← rebase_children, h]

theorem split_of_rebaseAll {k : Nat} {ns : List Node} (h : rebaseAll k ns = ns) :
    ∀ n ∈ ns, ∃ front back, textOf ns = front ++ n.text ++ back ∧
      n.start = k + front.utf8ByteSize := by
  induction ns generalizing k with
  | nil => exact List.forall_mem_nil _
  | cons n ns ih =>
    rw [rebaseAll, List.cons.injEq] at h
    have start : n.start = k := by rw [← h.1, rebase_start]
    refine List.forall_mem_cons.mpr ⟨⟨"", textOf ns, by simp, by simp [start]⟩, fun m hm => ?_⟩
    obtain ⟨front, back, whole, place⟩ := ih h.2 m hm
    refine ⟨n.text ++ front, back, by simp [whole, String.append_assoc], ?_⟩
    rw [place, String.utf8ByteSize_append, Nat.add_assoc]

theorem inside_of_rebaseAll {k : Nat} {ns : List Node} (h : rebaseAll k ns = ns) :
    ∀ n ∈ ns, k ≤ n.start ∧ n.stop ≤ k + (textOf ns).utf8ByteSize := by
  intro n hn
  obtain ⟨front, back, whole, place⟩ := split_of_rebaseAll h n hn
  have size := congrArg String.utf8ByteSize whole
  simp only [String.utf8ByteSize_append] at size
  rw [stop]
  omega

theorem pairwise_of_rebaseAll {k : Nat} {ns : List Node} (h : rebaseAll k ns = ns) :
    ns.Pairwise fun a b => a.stop ≤ b.start := by
  induction ns generalizing k with
  | nil => exact .nil
  | cons n ns ih =>
    rw [rebaseAll, List.cons.injEq] at h
    have start : n.start = k := by rw [← h.1, rebase_start]
    have stop : n.stop = n.start + n.text.utf8ByteSize := rfl
    refine .cons (fun m hm => ?_) (ih h.2)
    have rest := inside_of_rebaseAll h.2 m hm
    omega

/-- A node of a laid-out tree is a part of the text, and its offset is where the part begins. -/
theorem LaidOut.split {n : Node} (laid : n.LaidOut) (composed : n.Composed) :
    ∀ m ∈ n.preorder, ∃ front back, n.text = front ++ m.text ++ back ∧
      m.start = n.start + front.utf8ByteSize := by
  induction n using children_induction with
  | node n ih =>
    intro m hm
    rcases mem_preorder.mp hm with rfl | ⟨c, hc, hm⟩
    · exact ⟨"", "", by simp, by simp⟩
    · obtain ⟨front, back, inner, start⟩ :=
        ih c hc (laid.child hc) (composed.child hc) m hm
      obtain ⟨before, behind, whole, place⟩ := split_of_rebaseAll laid.children_eq c hc
      refine ⟨before ++ front, back ++ behind, ?_, ?_⟩
      · rw [composed.text_eq (List.ne_nil_of_mem hc), whole, inner]
        simp only [String.append_assoc]
      · rw [start, place, String.utf8ByteSize_append, Nat.add_assoc]

theorem LaidOut.inside {n : Node} (laid : n.LaidOut) (composed : n.Composed) :
    ∀ m ∈ n.preorder, n.start ≤ m.start ∧ m.stop ≤ n.stop := by
  intro m hm
  obtain ⟨front, back, whole, place⟩ := laid.split composed m hm
  have size := congrArg String.utf8ByteSize whole
  simp only [String.utf8ByteSize_append] at size
  rw [stop, stop]
  omega

def Beside (a b : Node) : Prop := a.stop ≤ b.start ∨ b.stop ≤ a.start

theorem LaidOut.beside {n c d : Node} (laid : n.LaidOut) (hc : c ∈ n.children)
    (hd : d ∈ n.children) (ne : c ≠ d) : c.Beside d := by
  have row := List.pairwise_iff_getElem.mp (pairwise_of_rebaseAll laid.children_eq)
  obtain ⟨i, hi, rfl⟩ := List.mem_iff_getElem.mp hc
  obtain ⟨j, hj, rfl⟩ := List.mem_iff_getElem.mp hd
  rcases Nat.lt_trichotomy i j with lt | rfl | gt
  · exact .inl (row i j hi hj lt)
  · exact absurd rfl ne
  · exact .inr (row j i hj hi gt)

theorem Beside.below {c d a b : Node} (h : c.Beside d) (laidLeft : c.LaidOut)
    (composedLeft : c.Composed) (laidRight : d.LaidOut) (composedRight : d.Composed)
    (ha : a ∈ c.preorder) (hb : b ∈ d.preorder) : a.Beside b := by
  have left := laidLeft.inside composedLeft a ha
  have right := laidRight.inside composedRight b hb
  unfold Beside at h ⊢
  omega

end HybridTemplate.Node
