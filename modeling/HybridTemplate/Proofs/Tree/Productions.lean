import HybridTemplate.Proofs.Tree.Layout

set_option autoImplicit false

namespace HybridTemplate

namespace Kind

def isHostLeaf : Kind → Bool
  | hostCode | hostComment | hostString | formatString => true
  | _ => false

def isItem : Kind → Bool
  | hostCode | hostComment | hostString | formatString | component | element | elementWithScript
  | webScript | markupText | markupComment | space | punct | serverEmbed | clientEmbed
  | jointEmbed => true
  | _ => false

def isAttribute : Kind → Bool
  | kvAttribute | novalueAttribute | spreadAttribute | sameNameAttribute | utilityLiteral => true
  | _ => false

def isValue : Kind → Bool
  | quotedValue | formatString | serverEmbed | clientEmbed | jointEmbed => true
  | _ => false

end Kind

/-- What the kinds of a node's children are. -/
inductive Production where
  /-- There are none. -/
  | leaf
  | many (p : Kind → Bool)
  | one (p : Kind → Bool)
  | words (ws : List (List Kind))
  /-- Any number of kinds before and behind one that is `k`. -/
  | around (p : Kind → Bool) (k : Kind)
  /-- Any number of kinds between two that are `k`. -/
  | between (k : Kind) (p : Kind → Bool)

namespace Production

def accepts : Production → List Kind → Bool
  | leaf, ks => ks.isEmpty
  | many p, ks => ks.all p
  | one p, ks => ks.length == 1 && ks.all p
  | words ws, ks => ws.contains ks
  | around p k, ks => (ks.filter fun j => !p j) == [k]
  | between k p, ks => ks == k :: (ks.drop 1).dropLast ++ [k] && ((ks.drop 1).dropLast).all p

def mentions : Production → Kind → Bool
  | leaf, _ => false
  | many p, j | one p, j => p j
  | words ws, j => ws.any fun w => w.contains j
  | around p k, j | between k p, j => p j || j == k

theorem mentions_of_accepts {r : Production} {ks : List Kind} (h : r.accepts ks = true) {j : Kind}
    (hj : j ∈ ks) : r.mentions j = true := by
  cases r with
  | leaf =>
    rw [List.isEmpty_iff.mp h] at hj
    cases hj
  | many p => exact List.all_eq_true.mp h j hj
  | one p => exact List.all_eq_true.mp (Bool.and_eq_true_iff.mp h).2 j hj
  | words ws =>
    exact List.any_eq_true.mpr ⟨ks, List.contains_iff_mem.mp h, List.contains_iff_mem.mpr hj⟩
  | around p k =>
    cases hp : p j with
    | true => simp [mentions, hp]
    | false =>
      have found : j ∈ ks.filter fun i => !p i := by simp [hj, hp]
      rw [beq_iff_eq.mp h, List.mem_singleton] at found
      simp [mentions, found]
  | between k p =>
    obtain ⟨ends, inner⟩ := Bool.and_eq_true_iff.mp h
    rw [beq_iff_eq.mp ends] at hj
    simp only [List.cons_append, List.mem_cons, List.mem_append, List.not_mem_nil, or_false] at hj
    rcases hj with rfl | inside | rfl
    · simp [mentions]
    · simp [mentions, List.all_eq_true.mp inner j inside]
    · simp [mentions]

theorem ne_nil_of_between {p : Kind → Bool} {k : Kind} {ks : List Kind}
    (h : (between k p).accepts ks = true) : ks ≠ [] := by
  rintro rfl
  cases h

end Production

namespace Kind

def production : Kind → Production
  | document | componentBody | elementChildren => .many isItem
  | component => .words [[componentHeader, componentBody]]
  | componentHeader => .around isHostLeaf componentName
  | element => .words [[selfClosingElement], [pairedElement], [fragment]]
  | selfClosingElement | startTag =>
    .words [[elementPunct, elementName, attributes, space, elementPunct]]
  | pairedElement => .words [[startTag, elementChildren, endTag]]
  | endTag => .words [[elementPunct, elementName, space, elementPunct]]
  | fragment => .words [[elementPunct, elementChildren, elementPunct]]
  | elementWithScript => .words [[element, space, punct, space, webScript]]
  | webScript =>
    .words [[elementPunct, elementName, attributes, space, elementPunct, scriptBody, endTag]]
  | scriptBody => .many fun k => k == scriptCode || k == staticImport
  | staticImport => .around (· == scriptCode) moduleSpecifier
  | attributes => .many (· == spacedAttribute)
  | spacedAttribute => .words [[space, markupAttribute]]
  | markupAttribute => .one isAttribute
  | kvAttribute => .words [[attributeName, space, operator, space, attributeValue]]
  | novalueAttribute => .words [[attributeName]]
  | spreadAttribute => .between serverEmbedDelim isHostLeaf
  | sameNameAttribute =>
    .words [[serverEmbedDelim, space, hostCode, space, serverEmbedDelim]]
  | utilityLiteral => .words [[quotedValue]]
  | attributeValue => .one isValue
  | serverEmbed =>
    .between serverEmbedDelim fun k => isHostLeaf k || k == element || k == elementWithScript
  | clientEmbed => .words [[clientEmbedDelim, clientExpr, clientEmbedDelim]]
  | jointEmbed => .words [[serverEmbed, space, clientEmbed], [formatString, space, clientEmbed]]
  | hostCode | hostComment | hostString | formatString | space | punct | elementPunct | elementName
  | attributeName | operator | quotedValue | markupText | markupComment | serverEmbedDelim
  | clientEmbedDelim | clientExpr | scriptCode | moduleSpecifier | componentName => .leaf
  | other _ => .words []

def isLeaf (k : Kind) : Bool :=
  match k.production with
  | .leaf => true
  | _ => false

/-- A document stands in no other node. -/
theorem not_mentions_document (k : Kind) : k.production.mentions document = false := by
  cases k <;> rfl

theorem not_mentions_scriptBody {k : Kind} (hk : k ≠ webScript) :
    k.production.mentions scriptBody = false := by
  cases k <;> first | rfl | exact absurd rfl hk

theorem not_mentions_staticImport {k : Kind} (hk : k ≠ scriptBody) :
    k.production.mentions staticImport = false := by
  cases k <;> first | rfl | exact absurd rfl hk

end Kind

namespace Node

/-- Whether the children of a node are as its kind has them. Only a leaf has a text of its own. -/
def Follows (n : Node) : Prop :=
  n.kind.production.accepts (n.children.map kind) = true ∧
    (n.kind.isLeaf = false → n.text = textOf n.children)

instance (n : Node) : Decidable n.Follows := inferInstanceAs (Decidable (_ ∧ _))

def Conforms (n : Node) : Prop := ∀ m ∈ n.preorder, m.Follows

instance (n : Node) : Decidable n.Conforms := inferInstanceAs (Decidable (∀ m ∈ n.preorder, _))

theorem Conforms.follows {n : Node} (h : n.Conforms) : n.Follows :=
  h n (mem_preorder.mpr (.inl rfl))

theorem Conforms.child {n c : Node} (h : n.Conforms) (hc : c ∈ n.children) : c.Conforms :=
  fun m hm => h m (mem_preorder.mpr (.inr ⟨c, hc, hm⟩))

theorem Conforms.of_mem {m n : Node} (h : n.Conforms) (hm : m ∈ n.preorder) : m.Conforms :=
  fun k hk => h k (preorder_trans hm hk)

namespace Follows

variable {n : Node}

theorem of_leaf (h : n.Follows) (leaf : n.kind.isLeaf = true) : n.children = [] := by
  have accepted := h.1
  unfold Kind.isLeaf at leaf
  split at leaf
  · rename_i production
    rw [production, Production.accepts, List.isEmpty_iff, List.map_eq_nil_iff] at accepted
    exact accepted
  · cases leaf

theorem word (h : n.Follows) {w : List Kind} (production : n.kind.production = .words [w]) :
    n.children.map kind = w := by
  have accepted := h.1
  rw [production] at accepted
  simpa [Production.accepts] using accepted

theorem every (h : n.Follows) {p : Kind → Bool} (production : n.kind.production = .many p) :
    ∀ c ∈ n.children, p c.kind = true := by
  have accepted := h.1
  rw [production] at accepted
  simpa [Production.accepts] using accepted

theorem single (h : n.Follows) {p : Kind → Bool} (production : n.kind.production = .one p) :
    ∃ c, n.children = [c] ∧ p c.kind = true := by
  have accepted := h.1
  rw [production] at accepted
  obtain ⟨length, known⟩ := Bool.and_eq_true_iff.mp accepted
  rw [beq_iff_eq, List.length_map, List.length_eq_one_iff] at length
  obtain ⟨c, eq⟩ := length
  rw [eq] at known
  exact ⟨c, eq, by simpa using known⟩

theorem mentions (h : n.Follows) {c : Node} (hc : c ∈ n.children) :
    n.kind.production.mentions c.kind = true :=
  Production.mentions_of_accepts h.1 (List.mem_map_of_mem hc)

theorem kvAttribute (h : n.Follows) (hn : n.kind = .kvAttribute) :
    ∃ a s o t v, n.children = [a, s, o, t, v] ∧ a.kind = .attributeName ∧ s.kind = .space ∧
      o.kind = .operator ∧ t.kind = .space ∧ v.kind = .attributeValue := by
  have kinds := h.word (by rw [hn]; rfl)
  simp only [List.map_eq_cons_iff, List.map_eq_nil_iff] at kinds
  obtain ⟨a, _, eq, ha, s, _, rfl, hs, o, _, rfl, ho, t, _, rfl, ht, v, _, rfl, hv, rfl⟩ := kinds
  exact ⟨a, s, o, t, v, eq, ha, hs, ho, ht, hv⟩

theorem attributeValue (h : n.Follows) (hn : n.kind = .attributeValue) :
    ∃ v, n.children = [v] ∧ v.kind.isValue = true :=
  h.single (by rw [hn]; rfl)

theorem markupAttribute (h : n.Follows) (hn : n.kind = .markupAttribute) :
    ∃ a, n.children = [a] ∧ a.kind.isAttribute = true :=
  h.single (by rw [hn]; rfl)

theorem spacedAttribute (h : n.Follows) (hn : n.kind = .spacedAttribute) :
    ∃ s a, n.children = [s, a] ∧ s.kind = .space ∧ a.kind = .markupAttribute := by
  have kinds := h.word (by rw [hn]; rfl)
  simp only [List.map_eq_cons_iff, List.map_eq_nil_iff] at kinds
  obtain ⟨s, _, eq, hs, a, _, rfl, ha, rfl⟩ := kinds
  exact ⟨s, a, eq, hs, ha⟩

theorem jointEmbed (h : n.Follows) (hn : n.kind = .jointEmbed) :
    ∃ s t e, n.children = [s, t, e] ∧ (s.kind = .serverEmbed ∨ s.kind = .formatString) ∧
      t.kind = .space ∧ e.kind = .clientEmbed := by
  have accepted := h.1
  rw [hn] at accepted
  simp only [Kind.production, Production.accepts, List.contains_iff_mem, List.mem_cons,
    List.not_mem_nil, or_false, List.map_eq_cons_iff, List.map_eq_nil_iff] at accepted
  rcases accepted with ⟨s, _, eq, hs, t, _, rfl, ht, e, _, rfl, he, rfl⟩ |
    ⟨s, _, eq, hs, t, _, rfl, ht, e, _, rfl, he, rfl⟩
  · exact ⟨s, t, e, eq, .inl hs, ht, he⟩
  · exact ⟨s, t, e, eq, .inr hs, ht, he⟩

theorem webScript (h : n.Follows) (hn : n.kind = .webScript) :
    ∃ p q a s r b e, n.children = [p, q, a, s, r, b, e] ∧ p.kind = .elementPunct ∧
      q.kind = .elementName ∧ a.kind = .attributes ∧ s.kind = .space ∧ r.kind = .elementPunct ∧
      b.kind = .scriptBody ∧ e.kind = .endTag := by
  have kinds := h.word (by rw [hn]; rfl)
  simp only [List.map_eq_cons_iff, List.map_eq_nil_iff] at kinds
  obtain ⟨p, _, eq, hp, q, _, rfl, hq, a, _, rfl, ha, s, _, rfl, hs, r, _, rfl, hr, b, _, rfl, hb,
    e, _, rfl, he, rfl⟩ := kinds
  exact ⟨p, q, a, s, r, b, e, eq, hp, hq, ha, hs, hr, hb, he⟩

theorem tag (h : n.Follows) (hn : n.kind = .startTag ∨ n.kind = .selfClosingElement) :
    ∃ p q a s r, n.children = [p, q, a, s, r] ∧ p.kind = .elementPunct ∧ q.kind = .elementName ∧
      a.kind = .attributes ∧ s.kind = .space ∧ r.kind = .elementPunct := by
  have kinds := h.word (w := [.elementPunct, .elementName, .attributes, .space, .elementPunct])
    (by rcases hn with hn | hn <;> rw [hn] <;> rfl)
  simp only [List.map_eq_cons_iff, List.map_eq_nil_iff] at kinds
  obtain ⟨p, _, eq, hp, q, _, rfl, hq, a, _, rfl, ha, s, _, rfl, hs, r, _, rfl, hr, rfl⟩ := kinds
  exact ⟨p, q, a, s, r, eq, hp, hq, ha, hs, hr⟩

theorem attributes (h : n.Follows) (hn : n.kind = .attributes) :
    ∀ c ∈ n.children, c.kind = .spacedAttribute :=
  fun c hc => beq_iff_eq.mp (h.every (by rw [hn]; rfl) c hc)

theorem scriptBody (h : n.Follows) (hn : n.kind = .scriptBody) :
    ∀ c ∈ n.children, c.kind = .scriptCode ∨ c.kind = .staticImport := by
  intro c hc
  have kind := h.mentions hc
  simpa only [hn, Kind.production, Production.mentions, Bool.or_eq_true, beq_iff_eq] using kind

theorem elementChildren (h : n.Follows) (hn : n.kind = .elementChildren) :
    ∀ c ∈ n.children, c.kind.isItem = true :=
  h.every (by rw [hn]; rfl)

theorem clientEmbed (h : n.Follows) (hn : n.kind = .clientEmbed) :
    ∀ c ∈ n.children, c.kind.isLeaf = true := by
  intro c hc
  have kind := h.mentions hc
  simp only [hn, Kind.production, Production.mentions, List.any_cons, List.any_nil, Bool.or_false,
    List.contains_iff_mem, List.mem_cons, List.not_mem_nil, or_false] at kind
  rcases kind with hk | hk | hk <;> rw [hk] <;> rfl

theorem staticImport (h : n.Follows) (hn : n.kind = .staticImport) :
    ∀ c ∈ n.children, c.kind.isLeaf = true := by
  intro c hc
  have kind := h.mentions hc
  simp only [hn, Kind.production, Production.mentions, Bool.or_eq_true, beq_iff_eq] at kind
  rcases kind with hk | hk <;> rw [hk] <;> rfl

theorem endTag (h : n.Follows) (hn : n.kind = .endTag) :
    ∀ c ∈ n.children, c.kind.isLeaf = true := by
  intro c hc
  have kind := h.mentions hc
  simp only [hn, Kind.production, Production.mentions, List.any_cons, List.any_nil, Bool.or_false,
    List.contains_iff_mem, List.mem_cons, List.not_mem_nil, or_false] at kind
  rcases kind with hk | hk | hk | hk <;> rw [hk] <;> rfl

theorem serverEmbed (h : n.Follows) (hn : n.kind = .serverEmbed) : n.children ≠ [] := by
  have accepted := h.1
  rw [hn] at accepted
  exact fun none => Production.ne_nil_of_between accepted (by rw [none, List.map_nil])

theorem child_ne (h : n.Follows) {k : Kind} (absent : n.kind.production.mentions k = false) :
    ∀ c ∈ n.children, c.kind ≠ k := by
  intro c hc kind
  have mention := h.mentions hc
  rw [kind, absent] at mention
  cases mention

end Follows

theorem Conforms.preorder_of_leaf {n : Node} (h : n.Conforms) (leaf : n.kind.isLeaf = true) :
    n.preorder = [n] := by
  rw [preorder_eq, h.follows.of_leaf leaf, preorderAll]

theorem Conforms.preorder_of_leaves {n : Node} (h : n.Conforms)
    (leaves : ∀ c ∈ n.children, c.kind.isLeaf = true) : n.preorder = n :: n.children := by
  have below : n.children.map preorder = n.children.map fun c => [c] :=
    List.map_congr_left fun c hc => (h.child hc).preorder_of_leaf (leaves c hc)
  rw [preorder_eq, preorderAll_eq, List.flatMap_def, below, ← List.flatMap_def,
    List.flatMap_singleton']

/-- Below a node whose children are leaves there are no other kinds. -/
theorem Conforms.kind_ne_of_leaves {m n : Node} {kind : Kind} (h : n.Conforms)
    (leaves : ∀ c ∈ n.children, c.kind.isLeaf = true) (hm : m ∈ n.preorder) (own : n.kind ≠ kind)
    (inner : kind.isLeaf = false) : m.kind ≠ kind := by
  rw [h.preorder_of_leaves leaves, List.mem_cons] at hm
  rcases hm with rfl | part
  · exact own
  · intro same
    rw [← same, leaves m part] at inner
    cases inner

/-- An attribute with a value has one node as its value; the others are leaves. -/
theorem Conforms.kvAttribute {n : Node} (h : n.Conforms) (hn : n.kind = .kvAttribute) :
    ∃ a s o t v g, n.children = [a, s, o, t, v] ∧ v.children = [g] ∧ a.kind = .attributeName ∧
      s.kind = .space ∧ o.kind = .operator ∧ t.kind = .space ∧ v.kind = .attributeValue ∧
      g.kind.isValue = true ∧ g.Conforms ∧
      n.preorder = n :: a :: s :: o :: t :: v :: g.preorder := by
  obtain ⟨a, s, o, t, v, eq, ha, hs, ho, ht, hv⟩ := h.follows.kvAttribute hn
  have child : ∀ c ∈ [a, s, o, t, v], c.Conforms := fun c hc => h.child (eq ▸ hc)
  simp only [List.forall_mem_cons] at child
  obtain ⟨ca, cs, co, ct, cv, -⟩ := child
  obtain ⟨g, value, hg⟩ := cv.follows.attributeValue hv
  have cg : g.Conforms := cv.child (value ▸ List.mem_singleton_self g)
  refine ⟨a, s, o, t, v, g, eq, value, ha, hs, ho, ht, hv, hg, cg, ?_⟩
  rw [preorder_eq n, eq]
  simp only [preorderAll, preorder_eq v, value, ca.preorder_of_leaf (by rw [ha]; rfl),
    cs.preorder_of_leaf (by rw [hs]; rfl), co.preorder_of_leaf (by rw [ho]; rfl),
    ct.preorder_of_leaf (by rw [ht]; rfl)]
  simp

theorem Conforms.composed {n : Node} (h : n.Conforms) : n.Composed := by
  intro m hm inner
  have follows := h m hm
  refine follows.2 (Bool.eq_false_iff.mpr fun leaf => inner (follows.of_leaf leaf))

theorem Conforms.ne_document {n c m : Node} (h : n.Conforms) (hc : c ∈ n.children)
    (hm : m ∈ c.preorder) : m.kind ≠ .document := by
  induction c using children_induction generalizing n with
  | node c ih =>
    rcases mem_preorder.mp hm with rfl | ⟨d, hd, below⟩
    · exact h.follows.child_ne (Kind.not_mentions_document n.kind) m hc
    · exact ih d hd (h.child hc) hd below

def componentOf (name : String) (body : List Node) : Node :=
  .branch .component [.branch .componentHeader [.leaf .componentName name],
    .branch .componentBody body]

def elementOf (key value : String) : Node :=
  .branch .element [.branch .selfClosingElement [.leaf .elementPunct "<", .leaf .elementName "p",
    .branch .attributes [.branch .spacedAttribute [.leaf .space " ", .branch .markupAttribute
      [.branch .kvAttribute [.leaf .attributeName key, .leaf .space "", .leaf .operator "=",
        .leaf .space "", .branch .attributeValue [.leaf .quotedValue value]]]]],
    .leaf .space " ", .leaf .elementPunct "/>"]]

def scriptOf (body : List Node) : Node :=
  .branch .webScript [.leaf .elementPunct "<", .leaf .elementName "script", .branch .attributes [],
    .leaf .space "", .leaf .elementPunct ">", .branch .scriptBody body,
    .branch .endTag [.leaf .elementPunct "</", .leaf .elementName "script", .leaf .space "",
      .leaf .elementPunct ">"]]

end Node
end HybridTemplate
