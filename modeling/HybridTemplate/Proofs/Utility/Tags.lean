import HybridTemplate.Proofs.Component.Contents
import HybridTemplate.Proofs.Utility.Orderless

set_option autoImplicit false

namespace HybridTemplate.Utility.TreeWalk

open AttributeSet (Call)
open Component (attributesOf)
open Visit (outcome)

def quotedText? (a : Node) : Option String :=
  ((a.child? .attributeValue).bind fun v => v.child? .quotedValue).map (·.text)

/-- What an attribute asks to be recorded. -/
def callOf? (a : Node) : Option Call :=
  match a.kind with
  | .utilityLiteral => some (.literal (Text.unquote a.text))
  | .novalueAttribute => some (.pair (attributeName a) none)
  | .kvAttribute => (quotedText? a).map fun raw => .pair (attributeName a) (some raw)
  | _ => none

/-- Whether a call on an element is made: a key counts where it binds classes or is no markup. -/
def isMade (isHtml : HtmlTable) (element : String) : Call → Bool
  | .pair key _ => isClassKey key || !isHtml element key
  | .literal _ => true

/-- The calls that a tag makes. -/
def callsOf (isHtml : HtmlTable) (tag : Node) : List Call :=
  ((attributesOf tag).filterMap callOf?).filter (isMade isHtml (elementName tag))

def isLowercaseTag (n : Node) : Bool :=
  (n.kind = .startTag ∨ n.kind = .selfClosingElement) && Text.startsLowercase (elementName n)

theorem handed_value {g : Node} (h : g.Follows) (value : g.kind.isValue = true) :
    handed g = if g.kind = .quotedValue then .text g.text else .empty := by
  cases hg : g.kind
  case quotedValue =>
    rw [if_pos rfl, handed, Node.handedBy_leaf h (by rw [hg]; rfl) fun vs => by rw [yields, hg]]
  case formatString | serverEmbed | clientEmbed | jointEmbed =>
    rw [handed_eq]
    simp only [yields, hg]
    rfl
  all_goals (rw [hg] at value; cases value)

theorem handed_kvAttribute {n : Node} (h : n.Conforms) (hn : n.kind = .kvAttribute) :
    handed n = ((quotedText? n).map fun raw =>
      Value.item (.pair (attributeName n) (some raw))).getD .empty := by
  obtain ⟨a, s, o, t, v, g, eq, inner, ha, hs, ho, ht, hv, value, cg, -⟩ := h.kvAttribute hn
  have last : (n.children.map handed).getLast? = some (handed g) := by
    rw [eq, show handed g = handed v by rw [handed_eq v, inner]; simp only [yields, hv]; rfl]
    rfl
  have quoted : quotedText? n = if g.kind = .quotedValue then some g.text else none := by
    by_cases hg : g.kind = .quotedValue <;>
      simp [quotedText?, Node.child?, eq, inner, ha, hs, ho, ht, hv, hg]
  rw [handed_eq, quoted]
  simp only [yields, hn, last, handed_value cg.follows value]
  by_cases hg : g.kind = .quotedValue <;> simp [hg]

def Item.call : Item → Call
  | .pair key raw => .pair key raw
  | .literal text => .literal text

theorem itemPairs_eq (isHtml : HtmlTable) (element : String) (i : Item) :
    itemPairs isHtml element i = if isMade isHtml element i.call then i.call.pairs else [] := by
  cases i with
  | literal text => rfl
  | pair key raw =>
    rw [itemPairs, Item.call, isMade]
    cases isClassKey key <;> cases isHtml element key <;> rfl

theorem flatMap_itemPairs (isHtml : HtmlTable) (element : String) (items : List Item) :
    items.flatMap (itemPairs isHtml element) =
      ((items.map Item.call).filter (isMade isHtml element)).flatMap Call.pairs := by
  induction items with
  | nil => rfl
  | cons i is ih =>
    rw [List.flatMap_cons, itemPairs_eq, ih, List.map_cons, List.filter_cons]
    split <;> rfl

theorem calls_handed_attribute {b : Node} (h : b.Conforms) (hb : b.kind.isAttribute = true) :
    (handed b).items.map Item.call = (callOf? b).toList := by
  cases kind : b.kind
  case kvAttribute =>
    rw [handed_kvAttribute h kind]
    simp only [callOf?, kind]
    cases quotedText? b <;> rfl
  case novalueAttribute | sameNameAttribute | spreadAttribute | utilityLiteral =>
    rw [handed_eq]
    simp only [yields, callOf?, kind]
    rfl
  all_goals (rw [kind] at hb; cases hb)

theorem passesAttributes_yields : Node.PassesAttributes yields where
  spacedAttribute vs hn := by rw [yields, hn]
  markupAttribute vs hn := by rw [yields, hn]
  attributes vs hn := by rw [yields, hn]

theorem calls_handed_attributes {a : Node} (h : a.Conforms) (ha : a.kind = .attributes) :
    (handed a).items.map Item.call =
      (a.children.flatMap fun s => s.children.flatMap Node.children).filterMap callOf? :=
  passesAttributes_yields.items_attributes (fun _ => calls_handed_attribute) h ha

/-- A node that conforms records what it calls for as the tag of an element in lower case. -/
theorem recordedBy_eq {isHtml : HtmlTable} {n : Node} (h : n.Conforms) :
    recordedBy isHtml n =
      if isLowercaseTag n then (callsOf isHtml n).flatMap Call.pairs else [] := by
  by_cases hn : n.kind = .startTag ∨ n.kind = .selfClosingElement
  · obtain ⟨p, q, a, s, r, eq, hp, hq, ha, hs, hr⟩ := h.follows.tag hn
    have found : n.child? .attributes = some a := by simp [Node.child?, eq, hp, hq, ha]
    have calls : (attributesOf n).filterMap callOf? = (handed a).items.map Item.call := by
      rw [calls_handed_attributes (h.child (by simp [eq])) ha, attributesOf, found]
      simp
    rw [recordedBy, leavePairs, if_pos hn, tagPairs, isLowercaseTag, decide_eq_true hn,
      Bool.true_and, callsOf, calls, eq, flatMap_itemPairs]
    rfl
  · simp [recordedBy, leavePairs, isLowercaseTag, hn]

theorem flatMap_recordedBy (isHtml : HtmlTable) {ns : List Node} (h : ∀ n ∈ ns, n.Conforms) :
    ns.flatMap (recordedBy isHtml) =
      ((ns.filter isLowercaseTag).flatMap (callsOf isHtml)).flatMap Call.pairs := by
  induction ns with
  | nil => rfl
  | cons n ns ih =>
    obtain ⟨head, tail⟩ := List.forall_mem_cons.mp h
    rw [List.flatMap_cons, recordedBy_eq head, ih tail, List.filter_cons]
    split
    · rw [List.flatMap_cons, List.flatMap_append]
    · rw [List.nil_append]

/-- A walk over a tree that conforms never fails, and makes of a set what the calls of the tags in
lower case make of it, in document order. -/
theorem collectTree_eq_calls {tree : Node} (h : tree.Conforms) (isHtml : HtmlTable)
    (set : AttributeSet) :
    (∃ v, outcome ((table isHtml).visit tree) set = (.ok v, collectTree isHtml set tree)) ∧
      collectTree isHtml set tree =
        ((tree.preorder.filter isLowercaseTag).flatMap (callsOf isHtml)).foldl
          AttributeSet.apply set := by
  obtain ⟨ps, given, perm⟩ := gives_handed isHtml tree
  have recorded := collectTree_of_gives given set
  refine ⟨⟨handed tree, recorded ▸ given set⟩, ?_⟩
  calc
    collectTree isHtml set tree = set.addPairs ps := recorded
    _ = set.addPairs (tree.preorder.flatMap (recordedBy isHtml)) :=
      AttributeSet.orderless_addPair.foldl_eq (fun p => perm.mem_iff) set
    _ = _ := by
      rw [flatMap_recordedBy isHtml fun n hn => h.of_mem hn, AttributeSet.addPairs_flatMap]
      simp only [← AttributeSet.apply_eq]

/-- Tags in the values of attributes record their own, also those of a component reference. -/
theorem collectTree_eq_calls_of_nested_tags :
    let spaced : Node → Node := fun a =>
      .branch .spacedAttribute [.leaf .space " ", .branch .markupAttribute [a]]
    let alone : String → Node := fun key =>
      spaced (.branch .novalueAttribute [.leaf .attributeName key])
    let keyed : String → Node → Node := fun key value =>
      spaced (.branch .kvAttribute [.leaf .attributeName key, .leaf .space "",
        .leaf .operator "=", .leaf .space "", .branch .attributeValue [value]])
    let words : String → Node := fun text =>
      spaced (.branch .utilityLiteral [.leaf .quotedValue text])
    let element : String → List Node → Node := fun name attributes =>
      .branch .element [.branch .selfClosingElement [.leaf .elementPunct "<",
        .leaf .elementName name, .branch .attributes attributes, .leaf .space "",
        .leaf .elementPunct "/>"]]
    let embed : Node → Node := fun n =>
      .branch .serverEmbed [.leaf .serverEmbedDelim "\x7b", n, .leaf .serverEmbedDelim "\x7d"]
    let tree : Node := .branch .document
      [element "p" [keyed "class" (.leaf .quotedValue "'a'"),
        keyed "href" (embed (element "b" [alone "flex", alone "hidden"]))],
      element "Card" [alone "grid", keyed "of" (embed (element "i" [words "'bg=red'"]))]]
    let set : AttributeSet := ⟨["a"], [("bg", ["red"]), ("flex", [])]⟩
    tree.Conforms ∧ collectTree HtmlAttributes.standard .empty tree = set ∧
      ((tree.preorder.filter isLowercaseTag).flatMap (callsOf HtmlAttributes.standard)).foldl
        AttributeSet.apply .empty = set := by
  intro spaced alone keyed words element embed tree set
  have conforms : tree.Conforms := by decide +kernel
  have walked : collectTree HtmlAttributes.standard .empty tree = set := by decide +kernel
  have called := (collectTree_eq_calls conforms HtmlAttributes.standard .empty).2
  exact ⟨conforms, walked, called.symm.trans walked⟩

end HybridTemplate.Utility.TreeWalk
