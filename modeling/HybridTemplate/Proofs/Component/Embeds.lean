import HybridTemplate.Proofs.Component.Gathering
import HybridTemplate.Proofs.Component.Parts

set_option autoImplicit false

namespace HybridTemplate.Component

open Visit (outcome)

def collectedIn (n : Node) : List Node := n.preorder.flatMap collectedBy

theorem collectedIn_eq (n : Node) :
    collectedIn n = collectedBy n ++ n.children.flatMap collectedIn :=
  Node.flatMap_preorder collectedBy n

theorem collectedBy_of_leaf {n : Node} (leaf : n.kind.isLeaf = true) : collectedBy n = [] := by
  cases hn : n.kind <;> simp_all [collectedBy, Kind.isLeaf, Kind.production]

theorem collectedIn_clientEmbed {e : Node} (h : e.Conforms) (he : e.kind = .clientEmbed) :
    collectedIn e = [] := by
  have leaves := h.follows.clientEmbed he
  rw [collectedIn, h.preorder_of_leaves leaves, List.flatMap_eq_nil_iff]
  refine List.forall_mem_cons.mpr ⟨by simp [collectedBy, he], fun c hc => ?_⟩
  exact collectedBy_of_leaf (leaves c hc)

/-- What a node collects stands in a child that collects nothing else. -/
theorem child_of_collectedBy {n e : Node} (h : n.Conforms) (he : e ∈ collectedBy n) :
    e.kind = .clientEmbed ∧ ∃ c ∈ n.children, e ∈ c.preorder ∧ collectedIn c = [] := by
  have self (e : Node) : e ∈ e.preorder := Node.mem_preorder.mpr (.inl rfl)
  have direct (mem : e ∈ n.children.filter fun c => c.kind = .clientEmbed) :
      e.kind = .clientEmbed ∧ ∃ c ∈ n.children, e ∈ c.preorder ∧ collectedIn c = [] := by
    obtain ⟨mem, kind⟩ := List.mem_filter.mp mem
    have kind := of_decide_eq_true kind
    exact ⟨kind, e, mem, self e, collectedIn_clientEmbed (h.child mem) kind⟩
  unfold collectedBy at he
  split at he
  · exact direct he
  · exact direct he
  · split at he
    · cases he
    · obtain ⟨v, hv, he⟩ := List.mem_flatMap.mp he
      obtain ⟨memv, kindv⟩ := List.mem_filter.mp hv
      obtain ⟨mem, kind⟩ := List.mem_filter.mp he
      have kind := of_decide_eq_true kind
      have kindv := of_decide_eq_true kindv
      obtain ⟨g, value, -⟩ := (h.child memv).follows.attributeValue kindv
      obtain rfl : e = g := by simpa [value] using mem
      refine ⟨kind, v, memv, Node.mem_preorder.mpr (.inr ⟨e, mem, self e⟩), ?_⟩
      rw [collectedIn_eq, value, List.flatMap_singleton,
        collectedIn_clientEmbed ((h.child memv).child mem) kind]
      simp [collectedBy, kindv]
  · cases he

theorem mem_of_collectedIn {n e : Node} (h : n.Conforms) (he : e ∈ collectedIn n) :
    e ∈ n.preorder ∧ e.kind = .clientEmbed := by
  induction n using Node.children_induction with
  | node n ih =>
    rw [collectedIn_eq, List.mem_append, List.mem_flatMap] at he
    rw [Node.mem_preorder]
    rcases he with own | ⟨c, hc, below⟩
    · obtain ⟨kind, c, hc, mem, -⟩ := child_of_collectedBy h own
      exact ⟨.inr ⟨c, hc, mem⟩, kind⟩
    · obtain ⟨mem, kind⟩ := ih c hc (h.child hc) below
      exact ⟨.inr ⟨c, hc, mem⟩, kind⟩

theorem pairwise_children {n : Node} (laid : n.LaidOut) : n.children.Pairwise Node.Beside :=
  (Node.pairwise_of_rebaseAll laid.children_eq).imp Or.inl

theorem pairwise_collectedBy {n : Node} (laid : n.LaidOut) (h : n.Conforms) :
    (collectedBy n).Pairwise Node.Beside := by
  have row := pairwise_children laid
  cases hn : n.kind
  case elementChildren | jointEmbed =>
    simp only [collectedBy, hn]
    exact row.filter _
  case kvAttribute =>
    obtain ⟨g, -, -, -, -, collected⟩ := lastValue_kvAttribute h hn
    cases hb : bindingKind? n with
    | some kind => simp [collectedBy, hn, hb]
    | none =>
      rw [collected hb]
      exact (List.pairwise_singleton _ g).filter _
  all_goals simp [collectedBy, hn]

theorem pairwise_collectedIn {n : Node} (laid : n.LaidOut) (h : n.Conforms) :
    (collectedIn n).Pairwise Node.Beside := by
  induction n using Node.children_induction with
  | node n ih =>
    have apart {c d a b : Node} (hc : c ∈ n.children) (hd : d ∈ n.children) (beside : c.Beside d)
        (ha : a ∈ c.preorder) (hb : b ∈ d.preorder) : a.Beside b :=
      beside.below (laid.child hc) (h.child hc).composed (laid.child hd) (h.child hd).composed ha hb
    have below : (n.children.flatMap collectedIn).Pairwise Node.Beside := by
      rw [List.pairwise_flatMap]
      refine ⟨fun c hc => ih c hc (laid.child hc) (h.child hc), ?_⟩
      refine (pairwise_children laid).imp_of_mem fun hc hd beside a ha b hb => ?_
      exact apart hc hd beside (mem_of_collectedIn (h.child hc) ha).1
        (mem_of_collectedIn (h.child hd) hb).1
    rw [collectedIn_eq, List.pairwise_append]
    refine ⟨pairwise_collectedBy laid h, below, fun a ha b hb => ?_⟩
    obtain ⟨-, c, hc, mem, bare⟩ := child_of_collectedBy h ha
    obtain ⟨d, hd, hb⟩ := List.mem_flatMap.mp hb
    have other : c ≠ d := by
      rintro rfl
      rw [bare] at hb
      cases hb
    exact apart hc hd (laid.beside hc hd other) mem (mem_of_collectedIn (h.child hd) hb).1

def EmbedsFilled (n : Node) : Prop := ∀ e ∈ n.preorder, e.kind = .clientEmbed → e.text ≠ ""

theorem pairwise_start {n : Node} (laid : n.LaidOut) (h : n.Conforms) (filled : EmbedsFilled n) :
    (collectedIn n).Pairwise fun a b => a.start ≠ b.start := by
  have size {e : Node} (he : e ∈ collectedIn n) : e.start < e.stop := by
    obtain ⟨mem, kind⟩ := mem_of_collectedIn h he
    have some : e.text.utf8ByteSize ≠ 0 :=
      fun none => filled e mem kind (String.utf8ByteSize_eq_zero_iff.mp none)
    rw [Node.stop]
    omega
  refine (pairwise_collectedIn laid h).imp_of_mem fun ha hb beside => ?_
  have left := size ha
  have right := size hb
  unfold Node.Beside at beside
  omega

theorem pairwise_mergeSort_of_ne {α : Type} (key : α → Nat) {l : List α}
    (h : l.Pairwise fun a b => key a ≠ key b) :
    (l.mergeSort fun a b => key a ≤ key b).Pairwise fun a b => key a < key b := by
  have ordered : (l.mergeSort fun a b => key a ≤ key b).Pairwise fun a b =>
      decide (key a ≤ key b) = true :=
    List.pairwise_mergeSort (fun a b c => by simpa using Nat.le_trans)
      (fun a b => by simpa using Nat.le_total _ _) l
  have apart := (List.mergeSort_perm l fun a b => key a ≤ key b).symm.pairwise h Ne.symm
  refine (ordered.and apart).imp fun h => ?_
  have le := of_decide_eq_true h.1
  omega

/-- Embeds with different places are ordered in one way. -/
theorem exists_ordered {es : List Node} {ps : List (Nat × String)} (perm : ps.Perm (es.map placed))
    (apart : es.Pairwise fun a b => a.start ≠ b.start) :
    ∃ fs : List Node, fs.Perm es ∧ (fs.Pairwise fun a b => a.start < b.start) ∧
      (ps.mergeSort fun a b => a.1 ≤ b.1).map (·.2) = fs.map clientCode := by
  have placedApart : ps.Pairwise fun a b => a.1 ≠ b.1 :=
    perm.symm.pairwise (List.pairwise_map.mpr apart) Ne.symm
  have nodes := pairwise_mergeSort_of_ne Node.start apart
  have places := pairwise_mergeSort_of_ne Prod.fst placedApart
  have sorted := List.mergeSort_perm es fun a b => a.start ≤ b.start
  have same : (ps.mergeSort fun a b => a.1 ≤ b.1) =
      (es.mergeSort fun a b => a.start ≤ b.start).map placed := by
    have once (a b : Nat × String) (lt : a.1 < b.1) (gt : b.1 < a.1) : a = b := by omega
    exact ((List.mergeSort_perm ps _).trans (perm.trans (sorted.map placed).symm)).eq_of_pairwise
      (fun a b _ _ => once a b) places (List.pairwise_map.mpr nodes)
  refine ⟨_, sorted, nodes, ?_⟩
  rw [same, List.map_map]
  rfl

/-- Whether descriptors have the embeds that the component's nodes collect, each of them once and
in the order of their places. -/
def HasEmbeds (c : Node) (ds : List Descriptor) : Prop :=
  ds.length ≤ 1 ∧ ∀ d ∈ ds, ∃ es : List Node, es.Perm (c.preorder.flatMap collectedBy) ∧
    (es.Pairwise fun a b => a.start < b.start) ∧ d.embeds = es.map clientCode

theorem hasEmbeds_finished {c : Node} {p : Pending} (laid : c.LaidOut) (h : c.Conforms)
    (filled : EmbedsFilled c) (adds : Adds c.preorder .empty p) : HasEmbeds c (finished p c) := by
  obtain ⟨es, perm, ordered, codes⟩ := exists_ordered adds.embeds (pairwise_start laid h filled)
  unfold finished
  split
  · exact ⟨Nat.zero_le 1, List.forall_mem_nil _⟩
  · exact ⟨Nat.le_refl 1, List.forall_mem_singleton.mpr ⟨es, perm, ordered, codes⟩⟩

theorem explains_hasEmbeds :
    Explains (fun n => n.LaidOut ∧ ∀ c ∈ n.components, c.Conforms ∧ EmbedsFilled c) HasEmbeds where
  child := fun _ _ ⟨laid, good⟩ hc =>
    ⟨laid.child hc, fun d hd => good d (Node.mem_components_of_child hc hd)⟩
  part := by
    rintro c ⟨laid, good⟩ hc bare x vs z hx run
    obtain ⟨conforms, filled⟩ := good c (Node.mem_components_self hc)
    exact hasEmbeds_finished laid conforms filled (adds_component conforms hc bare hx run)

namespace Extractor

/-- The descriptor of a component has the embeds that its nodes collect, each of them once and in
the order of their places. -/
theorem extract_embeds {tree : Node} (built : tree.Built) (apart : tree.ComponentsApart)
    (good : ∀ c ∈ tree.components, c.Conforms ∧ EmbedsFilled c) (calls : List Call)
    (source : String) (file : Option SourceFile) {ds : List Descriptor}
    (h : ((fresh.after calls).extract tree source file).1.result = .ok ds) :
    ∃ parts, ds = parts.flatten ∧ List.Forall₂ HasEmbeds tree.components parts :=
  explains_hasEmbeds.extract_eq_ok ⟨built.laidOut, good⟩ apart calls source file h

theorem extract_embeds_below_sibling :
    let embed : String → Node := fun code =>
      .branch .clientEmbed
        [.leaf .clientEmbedDelim "$\x7b", .leaf .clientExpr code, .leaf .clientEmbedDelim "\x7d"]
    let within : List Node → Node := fun items =>
      .branch .element [.branch .fragment
        [.leaf .elementPunct "<>", .branch .elementChildren items, .leaf .elementPunct "</>"]]
    let tree : Node := .branch .component
      [.branch .componentHeader [.leaf .componentName "Card"],
        .branch .componentBody [within [embed "a", within [embed "b"], embed "c"]]]
    ∃ ds, tree.Built ∧ tree.ComponentsApart ∧
      (∀ c ∈ tree.components, c.Conforms ∧ EmbedsFilled c) ∧
      ((fresh.after []).extract tree "" none).1.result = .ok ds ∧ ds.length = 1 ∧
      ∃ parts, ds = parts.flatten ∧ List.Forall₂ HasEmbeds tree.components parts := by
  intro embed within tree
  have built : tree.Built := by
    repeat' first
      | exact .leaf _ _
      | exact List.forall_mem_nil _
      | refine List.forall_mem_cons.mpr ⟨?_, ?_⟩
      | refine .branch _ _ ?_
  have apart : tree.ComponentsApart := by
    unfold Node.ComponentsApart
    decide +kernel
  have good : ∀ c ∈ tree.components, c.Conforms ∧ EmbedsFilled c := by
    unfold EmbedsFilled
    decide +kernel
  exact ⟨_, built, apart, good, rfl, rfl, extract_embeds built apart good [] "" none rfl⟩

end Extractor
end HybridTemplate.Component
