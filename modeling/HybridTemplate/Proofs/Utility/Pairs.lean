import HybridTemplate.Proofs.Traversal.Handed
import HybridTemplate.Proofs.Tree.Shape
import HybridTemplate.Utility.MarkupScan
import HybridTemplate.Utility.TreeWalk

set_option autoImplicit false

namespace HybridTemplate.Utility

abbrev Pair := String × Option String

namespace AttributeSet

def addPair (set : AttributeSet) (p : Pair) : AttributeSet := set.collectPair p.1 p.2

def addPairs (set : AttributeSet) (ps : List Pair) : AttributeSet := ps.foldl addPair set

theorem addPairs_append (set : AttributeSet) (ps qs : List Pair) :
    set.addPairs (ps ++ qs) = (set.addPairs ps).addPairs qs := List.foldl_append

theorem addPairs_flatMap {α : Type} (f : α → List Pair) (set : AttributeSet) (xs : List α) :
    set.addPairs (xs.flatMap f) = xs.foldl (fun set x => set.addPairs (f x)) set :=
  List.foldl_flatMap

/-- The pairs of a literal, one for each word. -/
def literalPairs (text : String) : List Pair :=
  (Text.words text).map fun word => ((splitWord word).1, some (splitWord word).2)

theorem collectLiteral_eq (set : AttributeSet) (text : String) :
    set.collectLiteral text = set.addPairs (literalPairs text) := by
  rw [addPairs, literalPairs, List.foldl_map]
  rfl

end AttributeSet

namespace MarkupScan

def tagPairs (tag : List Char × List Char) : List Pair :=
  if ignoredTags.contains (String.ofList tag.1) then []
  else (attributes tag.2).map fun a => (String.ofList a.1, a.2.map String.ofList)

theorem collectTag_eq (set : AttributeSet) (tag : List Char × List Char) :
    collectTag set tag = set.addPairs (tagPairs tag) := by
  unfold collectTag tagPairs
  split
  · rfl
  · rw [AttributeSet.addPairs, List.foldl_map]
    rfl

def pairs (source : List Char) : List Pair := (startTags source).flatMap tagPairs

theorem collect_eq (set : AttributeSet) (source : String) :
    collect set source = set.addPairs (pairs source.toList) := by
  rw [collect, pairs, AttributeSet.addPairs_flatMap]
  simp only [← collectTag_eq]

end MarkupScan

namespace TreeWalk

open Visit (outcome outcome_bind outcome_modify)

/-- Whether a step ends with `b` and records just those pairs, whatever was recorded before. -/
def Gives {β : Type} (m : Visit Empty AttributeSet β) (b : β) (ps : List Pair) : Prop :=
  ∀ set, outcome m set = (.ok b, set.addPairs ps)

theorem gives_pure {β : Type} (b : β) : Gives (pure b) b [] := fun _ => rfl

theorem Gives.bind {β γ : Type} {m : Visit Empty AttributeSet β}
    {k : β → Visit Empty AttributeSet γ} {b : β} {c : γ} {ps qs : List Pair} (hm : Gives m b ps)
    (hk : Gives (k b) c qs) : Gives (m >>= k) c (ps ++ qs) := by
  intro set
  rw [outcome_bind, hm set, AttributeSet.addPairs_append]
  exact hk _

def itemPairs (isHtml : HtmlTable) (element : String) : Item → List Pair
  | .literal text => AttributeSet.literalPairs text
  | .pair key raw => if !isClassKey key && isHtml element key then [] else [(key, raw)]

theorem record_eq (isHtml : HtmlTable) (element : String) (set : AttributeSet) (i : Item) :
    record isHtml element set i = set.addPairs (itemPairs isHtml element i) := by
  cases i with
  | literal text => exact AttributeSet.collectLiteral_eq set text
  | pair key raw =>
    rw [record, itemPairs]
    split <;> rfl

def tagPairs (isHtml : HtmlTable) (n : Node) (values : List (Value Item)) : List Pair :=
  if Text.startsLowercase (elementName n) then
    (values[2]?.getD Value.empty).items.flatMap (itemPairs isHtml (elementName n))
  else []

theorem gives_tag (isHtml : HtmlTable) (n : Node) (values : List (Value Item)) :
    Gives (tag isHtml n values) .empty (tagPairs isHtml n values) := by
  intro set
  unfold tag tagPairs
  split
  · rw [outcome_bind, outcome_modify, AttributeSet.addPairs_flatMap]
    simp only [← record_eq]
    rfl
  · rfl

theorem Gives.visit {isHtml : HtmlTable} {n : Node} {vs : List (Value Item)} {v : Value Item}
    {ps qs : List Pair} (below : Gives ((table isHtml).visitAll n.children) vs ps)
    (left : Gives ((table isHtml).leave n vs) v qs) :
    Gives ((table isHtml).visit n) v (ps ++ qs) := by
  rw [Table.visit_eq]
  exact (gives_pure PUnit.unit).bind (below.bind left)

theorem gives_visitAll_nil {isHtml : HtmlTable} : Gives ((table isHtml).visitAll []) [] [] := by
  rw [Table.visitAll]
  exact gives_pure []

theorem Gives.visitAll_cons {isHtml : HtmlTable} {n : Node} {ns : List Node} {v : Value Item}
    {vs : List (Value Item)} {ps qs : List Pair} (first : Gives ((table isHtml).visit n) v ps)
    (rest : Gives ((table isHtml).visitAll ns) vs qs) :
    Gives ((table isHtml).visitAll (n :: ns)) (v :: vs) (ps ++ qs) := by
  rw [Table.visitAll, ← List.append_nil qs]
  exact first.bind (rest.bind (gives_pure _))

def yields (n : Node) (vs : List (Value Item)) : Value Item :=
  match n.kind with
  | .startTag | .selfClosingElement | .spreadAttribute | .sameNameAttribute | .serverEmbed
  | .clientEmbed | .jointEmbed | .formatString | .webScript => .empty
  | .kvAttribute =>
    match vs.getLast? with
    | some (.text raw) => .item (.pair (attributeName n) (some raw))
    | _ => .empty
  | .novalueAttribute => .item (.pair (attributeName n) none)
  | .utilityLiteral => .item (.literal (Text.unquote n.text))
  | .spacedAttribute => vs.getLast?.getD .empty
  | .markupAttribute | .attributeValue => vs.head?.getD .empty
  | _ => Table.passOn n vs

def leavePairs (isHtml : HtmlTable) (n : Node) (vs : List (Value Item)) : List Pair :=
  if n.kind = .startTag ∨ n.kind = .selfClosingElement then tagPairs isHtml n vs else []

theorem gives_leave_yields (isHtml : HtmlTable) (n : Node) (vs : List (Value Item)) :
    Gives ((table isHtml).leave n vs) (yields n vs) (leavePairs isHtml n vs) := by
  unfold Table.leave
  cases hn : n.kind
  case startTag | selfClosingElement =>
    simp only [table, yields, leavePairs, hn]
    exact gives_tag isHtml n vs
  case kvAttribute =>
    have left : keyValue n vs = pure (yields n vs) := by
      simp only [keyValue, yields, hn]
      rcases vs.getLast? with _ | _ | _ | _ | _ <;> rfl
    simp only [table, leavePairs, hn, left]
    exact gives_pure _
  all_goals
    simp only [table, yields, leavePairs, hn]
    exact gives_pure _

def handed : Node → Value Item := Node.handedBy yields

theorem handed_eq (n : Node) : handed n = yields n (n.children.map handed) :=
  Node.handedBy_eq yields n

def recordedBy (isHtml : HtmlTable) (n : Node) : List Pair :=
  leavePairs isHtml n (n.children.map handed)

mutual

/-- Every node of a tree records its own once. -/
theorem gives_handed (isHtml : HtmlTable) (n : Node) :
    ∃ ps, Gives ((table isHtml).visit n) (handed n) ps ∧
      ps.Perm (n.preorder.flatMap (recordedBy isHtml)) := by
  match n with
  | ⟨kind, start, text, children⟩ =>
    obtain ⟨ps, below, perm⟩ := gives_handedAll isHtml children
    let n : Node := ⟨kind, start, text, children⟩
    have left := gives_leave_yields isHtml n (children.map handed)
    refine ⟨ps ++ recordedBy isHtml n, ?_, ?_⟩
    · rw [handed_eq]
      exact Gives.visit below left
    · rw [Node.preorder_eq, List.flatMap_cons]
      exact List.perm_append_comm.trans (perm.append_left _)

theorem gives_handedAll (isHtml : HtmlTable) (ns : List Node) :
    ∃ ps, Gives ((table isHtml).visitAll ns) (ns.map handed) ps ∧
      ps.Perm ((Node.preorderAll ns).flatMap (recordedBy isHtml)) := by
  match ns with
  | [] => exact ⟨[], gives_visitAll_nil, .nil⟩
  | n :: ns =>
    obtain ⟨ps, first, perm⟩ := gives_handed isHtml n
    obtain ⟨qs, rest, perms⟩ := gives_handedAll isHtml ns
    refine ⟨ps ++ qs, first.visitAll_cons rest, ?_⟩
    rw [Node.preorderAll, List.flatMap_append]
    exact perm.append perms

end

theorem collectTree_of_gives {isHtml : HtmlTable} {n : Node} {v : Value Item} {ps : List Pair}
    (h : Gives ((table isHtml).visit n) v ps) (set : AttributeSet) :
    collectTree isHtml set n = set.addPairs ps :=
  congrArg Prod.snd (h set)

/-- Whatever a tree is, walking over it records a list of pairs. -/
theorem exists_pairs (isHtml : HtmlTable) (tree : Node) :
    ∃ ps, ∀ set, collectTree isHtml set tree = set.addPairs ps := by
  obtain ⟨ps, given, -⟩ := gives_handed isHtml tree
  exact ⟨ps, collectTree_of_gives given⟩

end TreeWalk
end HybridTemplate.Utility
