import HybridTemplate.Proofs.Utility.PlainMarkup

set_option autoImplicit false

namespace HybridTemplate.Utility.TreeWalk

theorem attributeName_eq (n : Node) :
    attributeName n = ((n.child? .attributeName).map Node.text).elim "" Text.trim := by
  rw [attributeName]
  cases n.child? .attributeName <;> rfl

theorem elementName_rebase (k : Nat) (n : Node) : elementName (n.rebase k) = elementName n := by
  have same := Node.child?_rebase k n .elementName
  exact congrArg (Option.getD · "") same

theorem attributeName_rebase (k : Nat) (n : Node) :
    attributeName (n.rebase k) = attributeName n := by
  rw [attributeName_eq, attributeName_eq, Node.child?_rebase]

theorem leave_rebase (isHtml : HtmlTable) (k : Nat) (n : Node) (vs : List (Value Item)) :
    (table isHtml).leave (n.rebase k) vs = (table isHtml).leave n vs := by
  unfold Table.leave
  rw [Node.rebase_kind]
  cases n.kind <;>
    simp only [table, tag, keyValue, keyAlone, utilityLiteral, Table.passOn, Handler.suppress,
      Handler.firstChild, Handler.lastChild, elementName_rebase, attributeName_rebase,
      Node.rebase_text]

mutual

theorem visit_rebase (isHtml : HtmlTable) (k : Nat) (n : Node) :
    (table isHtml).visit (n.rebase k) = (table isHtml).visit n := by
  match n with
  | ⟨kind, start, text, children⟩ =>
    have below := visitAll_rebaseAll isHtml k children
    rw [Table.visit_eq, Table.visit_eq, Node.rebase_children, below]
    simp only [leave_rebase]
    rfl

theorem visitAll_rebaseAll (isHtml : HtmlTable) (k : Nat) (ns : List Node) :
    (table isHtml).visitAll (Node.rebaseAll k ns) = (table isHtml).visitAll ns := by
  match ns with
  | [] => rw [Node.rebaseAll]
  | n :: ns =>
    rw [Node.rebaseAll, Table.visitAll, Table.visitAll, visit_rebase isHtml k n]
    simp only [visitAll_rebaseAll isHtml _ ns]

end

section

variable {isHtml : HtmlTable} {kind : Kind} {cs : List Node} {vs : List (Value Item)}
  {v : Value Item} {ps qs : List Pair}

theorem Gives.branch (below : Gives ((table isHtml).visitAll cs) vs ps)
    (left : Gives ((table isHtml).leave ⟨kind, 0, Node.textOf cs, cs⟩ vs) v qs) :
    Gives ((table isHtml).visit (.branch kind cs)) v (ps ++ qs) := by
  rw [Node.branch, visit_rebase]
  exact Gives.visit below left

/-- A node whose handler records nothing. -/
theorem Gives.handed (below : Gives ((table isHtml).visitAll cs) vs ps)
    (left : (table isHtml).leave ⟨kind, 0, Node.textOf cs, cs⟩ vs = pure v) :
    Gives ((table isHtml).visit (.branch kind cs)) v ps := by
  have own : Gives ((table isHtml).leave ⟨kind, 0, Node.textOf cs, cs⟩ vs) v [] := by
    rw [left]
    exact gives_pure v
  have whole := below.branch own
  rwa [List.append_nil] at whole

theorem Gives.visitAll_singleton {n : Node} (h : Gives ((table isHtml).visit n) v ps) :
    Gives ((table isHtml).visitAll [n]) [v] ps := by
  have whole := h.visitAll_cons gives_visitAll_nil
  rwa [List.append_nil] at whole

theorem gives_leaf (none : (table isHtml).handler? kind = none) (s : String) :
    Gives ((table isHtml).visit (.leaf kind s)) (.text s) [] := by
  have left : Gives ((table isHtml).leave (.leaf kind s) []) (.text s) [] := by
    rw [Table.leave, Node.leaf, none]
    exact gives_pure _
  exact Gives.visit gives_visitAll_nil left

theorem gives_leaf_of_isLeaf (leaf : kind.isLeaf = true) (s : String) :
    ∃ v, Gives ((table isHtml).visit (.leaf kind s)) v [] := by
  by_cases format : kind = .formatString
  · have left : Gives ((table isHtml).leave (.leaf kind s) []) .empty [] := by
      rw [format]
      exact gives_pure _
    exact ⟨.empty, Gives.visit gives_visitAll_nil left⟩
  · have none : (table isHtml).handler? kind = none := by
      cases kind <;> first | rfl | contradiction
    exact ⟨.text s, gives_leaf none s⟩

theorem trim_name (a : PlainAttribute) : Text.trim a.name = a.name := by
  have clear : ∀ c ∈ a.name.toList, Text.isBlank c = false := by
    intro c hc
    have key := a.nameChars c hc
    simp only [MarkupScan.isKeyChar, Bool.not_eq_true', Bool.or_eq_false_iff] at key
    exact key.1.1.1.1
  rw [Text.trim, Text.stripBy_of_none clear, String.ofList_toList]

theorem gives_keyed (a : PlainAttribute) :
    Gives ((table isHtml).visit a.keyed) (.item (.pair a.pair.1 a.pair.2)) [] := by
  have name : Gives ((table isHtml).visit (.leaf .attributeName a.name)) (.text a.name) [] :=
    gives_leaf rfl a.name
  unfold PlainAttribute.keyed PlainAttribute.pair
  cases a.assigned? with
  | none =>
    let cs : List Node := [.leaf .attributeName a.name]
    have named : attributeName ⟨.novalueAttribute, 0, Node.textOf cs, cs⟩ = a.name := by
      simp [attributeName, Node.child?, cs, Node.leaf, trim_name]
    refine name.visitAll_singleton.handed ?_
    change pure (Value.item (Item.pair (attributeName _) none)) = _
    rw [named]
    rfl
  | some v =>
    let written := String.ofList v.value.chars
    let cs : List Node := [.leaf .attributeName a.name, .leaf .space v.before.1,
      .leaf .operator "=", .leaf .space v.behind.1,
      .branch .attributeValue [.leaf .quotedValue written]]
    have value : Gives ((table isHtml).visit (.branch .attributeValue [.leaf .quotedValue written]))
        (.text written) [] :=
      (gives_leaf rfl written).visitAll_singleton.handed rfl
    have below : Gives ((table isHtml).visitAll cs)
        [.text a.name, .text v.before.1, .text "=", .text v.behind.1, .text written] [] :=
      name.visitAll_cons <| (gives_leaf rfl _).visitAll_cons <| (gives_leaf rfl _).visitAll_cons <|
        (gives_leaf rfl _).visitAll_cons value.visitAll_singleton
    have named : attributeName ⟨.kvAttribute, 0, Node.textOf cs, cs⟩ = a.name := by
      simp [attributeName, Node.child?, cs, Node.leaf, trim_name]
    refine below.handed ?_
    change pure (Value.item (Item.pair (attributeName _) (some written))) = _
    rw [named]
    rfl

theorem gives_attribute (a : PlainAttribute) :
    Gives ((table isHtml).visit a.node) (.item (.pair a.pair.1 a.pair.2)) [] := by
  have keyed : Gives ((table isHtml).visit (.branch .markupAttribute [a.keyed]))
      (.item (.pair a.pair.1 a.pair.2)) [] :=
    (gives_keyed a).visitAll_singleton.handed rfl
  have space : Gives ((table isHtml).visit (.leaf .space a.space.1)) (.text a.space.1) [] :=
    gives_leaf rfl _
  exact (space.visitAll_cons keyed.visitAll_singleton).handed rfl

theorem gives_attributes (as : List PlainAttribute) :
    Gives ((table isHtml).visitAll (as.map PlainAttribute.node))
      (as.map fun a => .item (.pair a.pair.1 a.pair.2)) [] := by
  induction as with
  | nil => exact gives_visitAll_nil
  | cons a as ih => exact (gives_attribute a).visitAll_cons ih

theorem startsLowercase_name (t : PlainTag) : Text.startsLowercase t.name = true := by
  have lower := t.lowercase
  unfold Text.startsLowercase
  split
  · rename_i none
    rw [none] at lower
    cases lower
  · rename_i c _ name
    rw [name] at lower
    have lower : c.isLower = true := lower
    have last : c.val ≤ 'z'.val := of_decide_eq_true (Bool.and_eq_true_iff.mp lower).2
    have ascii : c.val < 128 := Nat.lt_of_le_of_lt last (by decide)
    exact (Text.isLowercase_ascii ascii).trans lower

end

def noHtml : HtmlTable := fun _ _ => false

theorem gives_plainTag {kind : Kind} (tagged : (table noHtml).handler? kind = some (tag noHtml))
    (t : PlainTag) : Gives ((table noHtml).visit (.branch kind t.nodes)) .empty t.pairs := by
  let attributes : List Node := t.attributes.map PlainAttribute.node
  let vs : List (Value Item) := [.text "<", .text t.name,
    Table.passOn ⟨.attributes, 0, Node.textOf attributes, attributes⟩
      (t.attributes.map fun a => .item (.pair a.pair.1 a.pair.2)),
    .text t.space.1, .text t.closing]
  have below : Gives ((table noHtml).visitAll t.nodes) vs [] :=
    (gives_leaf rfl _).visitAll_cons <| (gives_leaf rfl _).visitAll_cons <|
      ((gives_attributes t.attributes).handed rfl).visitAll_cons <|
        (gives_leaf rfl _).visitAll_cons (gives_leaf rfl _).visitAll_singleton
  have name : elementName ⟨kind, 0, Node.textOf t.nodes, t.nodes⟩ = t.name := by
    simp [elementName, Node.child?, PlainTag.nodes, Node.leaf]
  have recorded : tagPairs noHtml ⟨kind, 0, Node.textOf t.nodes, t.nodes⟩ vs = t.pairs := by
    unfold tagPairs
    rw [name, if_pos (startsLowercase_name t)]
    simp only [vs, List.getElem?_cons_succ, List.getElem?_cons_zero, Option.getD_some,
      Table.items_passOn, List.flatMap_map, Value.items, List.flatMap_assoc, List.flatMap_singleton,
      itemPairs, noHtml, Bool.and_false, Bool.false_eq_true, if_false]
    exact List.map_eq_flatMap.symm
  have left : Gives ((table noHtml).leave ⟨kind, 0, Node.textOf t.nodes, t.nodes⟩ vs) .empty
      t.pairs := by
    rw [Table.leave, tagged, ← recorded]
    exact gives_tag noHtml _ vs
  exact below.branch left

/-- Whether walking over a node records just those pairs. -/
def Records (n : Node) (ps : List Pair) : Prop := ∃ v, Gives ((table noHtml).visit n) v ps

def RecordsAll (ns : List Node) (ps : List Pair) : Prop :=
  ∃ vs, Gives ((table noHtml).visitAll ns) vs ps

theorem recordsAll_nil : RecordsAll [] [] := ⟨[], gives_visitAll_nil⟩

theorem Records.cons {n : Node} {ns : List Node} {ps qs : List Pair} (h : Records n ps)
    (k : RecordsAll ns qs) : RecordsAll (n :: ns) (ps ++ qs) := by
  obtain ⟨v, first⟩ := h
  obtain ⟨vs, rest⟩ := k
  exact ⟨v :: vs, first.visitAll_cons rest⟩

theorem RecordsAll.branch {ns : List Node} {ps : List Pair} (h : RecordsAll ns ps) (kind : Kind)
    (none : (table noHtml).handler? kind = none) : Records (.branch kind ns) ps := by
  obtain ⟨vs, below⟩ := h
  refine ⟨Table.passOn ⟨kind, 0, Node.textOf ns, ns⟩ vs, below.handed ?_⟩
  rw [Table.leave, none]

theorem records_leaf (kind : Kind) (none : (table noHtml).handler? kind = none) (s : String) :
    Records (.leaf kind s) [] :=
  ⟨.text s, gives_leaf none s⟩

theorem records_plainTag (kind : Kind) (tagged : (table noHtml).handler? kind = some (tag noHtml))
    (t : PlainTag) : Records (.branch kind t.nodes) t.pairs :=
  ⟨.empty, gives_plainTag tagged t⟩

open PlainMarkup in
mutual

theorem records_markup (m : PlainMarkup) : Records m.node m.pairs := by
  match m with
  | .text kind leaf s _ => exact gives_leaf_of_isLeaf leaf s
  | .fragment items =>
    have opening := records_leaf .elementPunct rfl "<>"
    have inner := (recordsAll_markup items).branch .elementChildren rfl
    have closing := records_leaf .elementPunct rfl "</>"
    have parts := opening.cons (inner.cons (closing.cons recordsAll_nil))
    have fragment := (parts.branch .fragment rfl).cons recordsAll_nil
    simpa [node, pairs] using fragment.branch .element rfl
  | .paired tag items space =>
    have opening := records_plainTag .startTag rfl tag
    have inner := (recordsAll_markup items).branch .elementChildren rfl
    have ending := (records_leaf .elementPunct rfl "</").cons <|
      (records_leaf .elementName rfl tag.name).cons <|
        (records_leaf .space rfl space.1).cons <|
          (records_leaf .elementPunct rfl ">").cons recordsAll_nil
    have parts := opening.cons (inner.cons ((ending.branch .endTag rfl).cons recordsAll_nil))
    have paired := (parts.branch .pairedElement rfl).cons recordsAll_nil
    simpa [node, pairs] using paired.branch .element rfl
  | .alone tag =>
    have alone := (records_plainTag .selfClosingElement rfl tag).cons recordsAll_nil
    simpa [node, pairs] using alone.branch .element rfl

theorem recordsAll_markup (ms : List PlainMarkup) : RecordsAll (nodes ms) (allPairs ms) := by
  match ms with
  | [] => exact recordsAll_nil
  | m :: ms => exact (records_markup m).cons (recordsAll_markup ms)

end

theorem collectTree_document (ms : List PlainMarkup) (set : AttributeSet) :
    collectTree noHtml set (PlainMarkup.document ms) =
      set.addPairs (PlainMarkup.allPairs ms) := by
  obtain ⟨v, given⟩ := (recordsAll_markup ms).branch .document rfl
  exact collectTree_of_gives given set

end HybridTemplate.Utility.TreeWalk
