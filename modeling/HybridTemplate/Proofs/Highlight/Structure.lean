import HybridTemplate.Highlight
import HybridTemplate.Proofs.Run
import HybridTemplate.Proofs.Tree.Shape

set_option autoImplicit false

namespace HybridTemplate.Highlight

mutual

/-- What the structural pass hands up for a node. -/
def shape : Node → Value (Run TokenKind)
  | ⟨kind, start, text, children⟩ =>
    match tokenKind? kind text with
    | some k => .item ⟨k, text⟩
    | none => Table.passOn ⟨kind, start, text, children⟩ (shapes children)

def shapes : List Node → List (Value (Run TokenKind))
  | [] => []
  | n :: ns => shape n :: shapes ns

end

theorem leave_outcome (n : Node) (vs : List (Value (Run TokenKind))) :
    Visit.outcome (table.leave n vs) () =
      (.ok (match tokenKind? n.kind n.text with
        | some k => .item ⟨k, n.text⟩
        | none => Table.passOn n vs), ()) := by
  have known := tokenKind?_isSome_text n.kind "" n.text
  cases h : tokenKind? n.kind n.text with
  | none =>
    have unknown : (tokenKind? n.kind "").isSome = false := by rw [known, h, Option.isSome_none]
    simp [Table.leave, table, unknown]
  | some k =>
    have handled : (tokenKind? n.kind "").isSome = true := by rw [known, h, Option.isSome_some]
    simp [Table.leave, table, handled, itemHandler, h]

mutual

theorem visit_outcome (n : Node) : Visit.outcome (table.visit n) () = (.ok (shape n), ()) := by
  match n with
  | ⟨kind, start, text, children⟩ =>
    have entered : Visit.outcome (table.enter ⟨kind, start, text, children⟩) () = (.ok ⟨⟩, ()) :=
      rfl
    rw [Table.visit_eq, Visit.outcome_bind, entered]
    simp only [Visit.outcome_bind, visitAll_outcome children, leave_outcome]
    rw [shape]

theorem visitAll_outcome (ns : List Node) :
    Visit.outcome (table.visitAll ns) () = (.ok (shapes ns), ()) := by
  match ns with
  | [] => rfl
  | n :: ns =>
    rw [Table.visitAll]
    simp only [Visit.outcome_bind, visit_outcome n, visitAll_outcome ns, Visit.outcome_pure]
    rw [shapes]

end

theorem runs_eq_merge (tree : Node) : runs tree = merge (shape tree) := by
  change (Visit.outcome (table.visit tree) ()).1.bind merge = _
  rw [visit_outcome]
  rfl

mutual

/-- Without a text that is not empty, the items of a composed tree have its text. -/
theorem concat_items_shape (n : Node) (h : n.Composed) (typed : ∀ s ∈ (shape n).texts, s = "") :
    Run.concat (shape n).items = n.text := by
  match n with
  | ⟨kind, start, text, children⟩ =>
    rw [shape] at typed ⊢
    split at typed
    · simp [Value.items]
    · rename_i unknown
      unfold Table.passOn at typed ⊢
      match children with
      | [] =>
        have void : text = "" := typed text (by simp [shapes, Value.texts])
        simp [shapes, Value.items, void]
      | c :: cs =>
        have below := concat_itemsAll_shapes (c :: cs) (fun d hd => h.child hd)
          (by simpa [shapes, Value.texts] using typed)
        rw [← h.text_eq (List.cons_ne_nil c cs)] at below
        simpa [shapes, Value.items] using below

theorem concat_itemsAll_shapes (ns : List Node) (h : ∀ n ∈ ns, n.Composed)
    (typed : ∀ s ∈ Value.textsAll (shapes ns), s = "") :
    Run.concat (Value.itemsAll (shapes ns)) = Node.textOf ns := by
  match ns with
  | [] => simp [shapes, Value.itemsAll]
  | n :: ns =>
    rw [shapes, Value.textsAll] at typed
    rw [shapes, Value.itemsAll, Run.concat_append, Node.textOf_cons]
    rw [concat_items_shape n (h n List.mem_cons_self)
      (fun s hs => typed s (List.mem_append_left _ hs))]
    rw [concat_itemsAll_shapes ns (fun m hm => h m (List.mem_cons_of_mem n hm))
      (fun s hs => typed s (List.mem_append_right _ hs))]

end

theorem concat_runs {tree : Node} {rs : List (Run TokenKind)} (composed : tree.Composed)
    (h : runs tree = .ok rs) : Run.concat rs = tree.text := by
  rw [runs_eq_merge] at h
  obtain ⟨typed, rfl⟩ := merge_eq_ok_iff.mp h
  rw [Run.concat_coalesce]
  exact concat_items_shape tree composed typed

theorem text_ne_of_mem_runs {tree : Node} {rs : List (Run TokenKind)} (h : runs tree = .ok rs)
    {r : Run TokenKind} (hr : r ∈ rs) : r.text ≠ "" := by
  rw [runs_eq_merge] at h
  obtain ⟨_, rfl⟩ := merge_eq_ok_iff.mp h
  exact Run.text_ne_of_mem_coalesce hr

end HybridTemplate.Highlight
