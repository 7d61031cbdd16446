import HybridTemplate.Proofs.Tree.Layout

set_option autoImplicit false

namespace HybridTemplate.Node

def bytesBetween (s : String) (i j : Nat) : ByteArray := s.toByteArray.extract i j

theorem bytesBetween_append (front text back : String) :
    bytesBetween (front ++ text ++ back) front.utf8ByteSize
      (front.utf8ByteSize + text.utf8ByteSize) = text.toByteArray := by
  have behind : (front ++ text ++ back).toByteArray =
      front.toByteArray ++ (text.toByteArray ++ back.toByteArray) := by
    rw [String.append_assoc, String.toByteArray_append, String.toByteArray_append]
  rw [bytesBetween, behind, ByteArray.extract_append, String.size_toByteArray,
    ByteArray.extract_eq_empty_iff.mpr (by simp), Nat.sub_self, Nat.add_sub_cancel_left,
    ByteArray.extract_append_eq_left String.size_toByteArray.symm, ByteArray.empty_append]

/-- Whether nodes stand one behind another from one place to another. -/
def Tiles (i : Nat) : List Node → Nat → Prop
  | [], j => i = j
  | n :: ns, j => n.start = i ∧ Tiles n.stop ns j

theorem tiles_of_rebaseAll {k : Nat} {ns : List Node} (h : rebaseAll k ns = ns) :
    Tiles k ns (k + (textOf ns).utf8ByteSize) := by
  induction ns generalizing k with
  | nil => simp [Tiles]
  | cons n ns ih =>
    rw [rebaseAll, List.cons.injEq] at h
    have start : n.start = k := by rw [← h.1, rebase_start]
    have rest := ih h.2
    rw [textOf_cons, String.utf8ByteSize_append, ← Nat.add_assoc]
    refine ⟨start, ?_⟩
    rw [stop, start]
    exact rest

theorem textOf_rebaseAll (k : Nat) (ns : List Node) : textOf (rebaseAll k ns) = textOf ns := by
  induction ns generalizing k with
  | nil => rw [rebaseAll]
  | cons n ns ih => rw [rebaseAll, textOf_cons, textOf_cons, rebase_text, ih]

theorem composed_iff {n : Node} :
    n.Composed ↔ (n.children ≠ [] → n.text = textOf n.children) ∧ ∀ c ∈ n.children, c.Composed := by
  constructor
  · exact fun h => ⟨h.text_eq, fun c hc => h.child hc⟩
  · rintro ⟨own, below⟩ m hm inner
    rcases mem_preorder.mp hm with rfl | ⟨c, hc, inside⟩
    · exact own inner
    · exact below c hc m inside inner

mutual

theorem Composed.rebase {n : Node} (h : n.Composed) (k : Nat) : (n.rebase k).Composed := by
  match n with
  | ⟨kind, start, text, children⟩ =>
    obtain ⟨own, below⟩ := composed_iff.mp h
    have moved := composed_rebaseAll below k
    rw [Node.rebase]
    refine composed_iff.mpr ⟨fun inner => ?_, moved⟩
    dsimp only at own inner ⊢
    rw [textOf_rebaseAll]
    refine own fun none => inner ?_
    rw [none, rebaseAll]

theorem composed_rebaseAll {ns : List Node} (h : ∀ n ∈ ns, n.Composed) (k : Nat) :
    ∀ n ∈ rebaseAll k ns, n.Composed := by
  match ns with
  | [] =>
    rw [rebaseAll]
    exact List.forall_mem_nil _
  | n :: ns =>
    obtain ⟨first, rest⟩ := List.forall_mem_cons.mp h
    rw [rebaseAll]
    exact List.forall_mem_cons.mpr ⟨first.rebase k, composed_rebaseAll rest _⟩

end

theorem Built.composed {n : Node} (h : n.Built) : n.Composed := by
  induction h with
  | leaf kind text => exact composed_iff.mpr ⟨fun inner => absurd rfl inner, List.forall_mem_nil _⟩
  | branch kind children _ ih =>
    have whole : (⟨kind, 0, textOf children, children⟩ : Node).Composed :=
      composed_iff.mpr ⟨fun _ => rfl, ih⟩
    exact whole.rebase 0

theorem LaidOut.of_mem {m n : Node} (h : n.LaidOut) (hm : m ∈ n.preorder) : m.LaidOut := by
  induction n using children_induction with
  | node n ih =>
    rcases mem_preorder.mp hm with rfl | ⟨c, hc, below⟩
    · exact h
    · exact ih c hc (h.child hc) below

theorem Composed.of_mem {m n : Node} (h : n.Composed) (hm : m ∈ n.preorder) : m.Composed :=
  fun k hk => h k (preorder_trans hm hk)

theorem LaidOut.tiles {n : Node} (laid : n.LaidOut) (text : n.text = textOf n.children) :
    Tiles n.start n.children n.stop := by
  rw [stop, text]
  exact tiles_of_rebaseAll laid.children_eq

/-- Where a tree is moved several times, only the last move counts. -/
theorem rebase_foldl (n : Node) (places : List Nat) (k : Nat) :
    (places.foldl (fun m j => m.rebase j) n).rebase k = n.rebase k := by
  induction places generalizing n with
  | nil => rfl
  | cons j places ih => rw [List.foldl_cons, ih, rebase_rebase]

/-- What is laid out at a place of a source reads the source. -/
theorem LaidOut.reads {n : Node} (laid : n.LaidOut) (composed : n.Composed)
    {before behind : String} (place : before.utf8ByteSize = n.start) {m : Node}
    (hm : m ∈ n.preorder) :
    bytesBetween (before ++ n.text ++ behind) m.start m.stop = m.text.toByteArray := by
  obtain ⟨front, back, whole, start⟩ := laid.split composed m hm
  have source : before ++ n.text ++ behind = (before ++ front) ++ m.text ++ (back ++ behind) := by
    rw [whole]
    simp only [String.append_assoc]
  rw [source, stop, start, ← place, ← String.utf8ByteSize_append]
  exact bytesBetween_append _ _ _

/-- In a tree that is built and then moved any number of times, every node reads the source from
where it begins to where it ends, children fill their parents, and only the last move counts. -/
theorem built_reads_source {n : Node} (built : n.Built) (places : List Nat) (s : Nat) :
    let root := (places.foldl (fun m j => m.rebase j) n).rebase s
    root = n.rebase s ∧
      (∀ m ∈ root.preorder, s ≤ m.start ∧ m.stop ≤ s + root.text.utf8ByteSize ∧
        bytesBetween root.text (m.start - s) (m.stop - s) = m.text.toByteArray) ∧
      (∀ m ∈ root.preorder, m.children ≠ [] ∨ m.text = "" → Tiles m.start m.children m.stop) ∧
      ∀ before behind : String, before.utf8ByteSize = s → ∀ m ∈ root.preorder,
        bytesBetween (before ++ root.text ++ behind) m.start m.stop = m.text.toByteArray := by
  intro root
  have last : root = n.rebase s := rebase_foldl n places s
  have laid : root.LaidOut := last ▸ laidOut_rebase s n
  have composed : root.Composed := last ▸ built.composed.rebase s
  have start : root.start = s := by rw [last, rebase_start]
  refine ⟨last, fun m hm => ?_, fun m hm branch => ?_, fun before behind place m hm => ?_⟩
  · obtain ⟨front, back, whole, place⟩ := laid.split composed m hm
    have size := congrArg String.utf8ByteSize whole
    simp only [String.utf8ByteSize_append] at size
    have stop : m.stop = m.start + m.text.utf8ByteSize := rfl
    refine ⟨by omega, by omega, ?_⟩
    have fromRoot : m.start - s = front.utf8ByteSize := by omega
    have toRoot : m.stop - s = front.utf8ByteSize + m.text.utf8ByteSize := by omega
    rw [whole, fromRoot, toRoot]
    exact bytesBetween_append _ _ _
  · refine (laid.of_mem hm).tiles ?_
    rcases branch with inner | none
    · exact (composed.of_mem hm).text_eq inner
    · by_cases inner : m.children = []
      · rw [none, inner, textOf_nil]
      · exact (composed.of_mem hm).text_eq inner
  · exact laid.reads composed (place.trans start.symm) hm

theorem built_reads_source_of_wide_text :
    let tree : Node := .branch .document [.leaf .markupText "é", .branch .element [],
      .branch .fragment [.leaf .space "", .leaf .markupText "ab"]]
    let root := ([7, 3].foldl (fun m j => m.rebase j) tree).rebase 5
    tree.Built ∧ root.preorder.map (fun m => (m.start, m.stop)) =
        [(5, 9), (5, 7), (7, 7), (7, 9), (7, 7), (7, 9)] ∧
      ∀ m ∈ root.preorder, bytesBetween ("<!-->" ++ root.text ++ "\n") m.start m.stop =
        m.text.toByteArray := by
  intro tree root
  have built : tree.Built := by
    repeat' first
      | exact .leaf _ _
      | exact List.forall_mem_nil _
      | refine List.forall_mem_cons.mpr ⟨?_, ?_⟩
      | refine .branch _ _ ?_
  have reads := built_reads_source built [7, 3] 5
  exact ⟨built, by decide +kernel, reads.2.2.2 "<!-->" "\n" (by decide +kernel)⟩

end HybridTemplate.Node
