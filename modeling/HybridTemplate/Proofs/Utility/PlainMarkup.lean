import HybridTemplate.Proofs.Tree.Productions
import HybridTemplate.Proofs.Utility.Pairs

set_option autoImplicit false

namespace HybridTemplate.Utility

abbrev Blanks := { s : String // ∀ c ∈ s.toList, Text.isBlank c = true }

structure QuotedText where
  quote : Char
  body : String
  isQuote : MarkupScan.isQuote quote = true
  apart : quote ∉ body.toList

def QuotedText.chars (t : QuotedText) : List Char := t.quote :: (t.body.toList ++ [t.quote])

/-- The value of an attribute with the equals sign before it. -/
structure Assignment where
  before : Blanks
  behind : Blanks
  value : QuotedText

structure PlainAttribute where
  space : Blanks
  spaced : space.1 ≠ ""
  name : String
  named : name ≠ ""
  nameChars : ∀ c ∈ name.toList, MarkupScan.isKeyChar c = true
  assigned? : Option Assignment

/-- A start tag or an element without children. -/
structure PlainTag where
  name : String
  lowercase : name.toList.head?.any Char.isLower = true
  nameChars : ∀ c ∈ name.toList, c.isAlphanum = true
  counts : name ∉ MarkupScan.ignoredTags
  attributes : List PlainAttribute
  space : Blanks
  slash : Bool

inductive PlainMarkup where
  | text (kind : Kind) (leaf : kind.isLeaf = true) (s : String) (free : '<' ∉ s.toList)
  | fragment (items : List PlainMarkup)
  | paired (tag : PlainTag) (items : List PlainMarkup) (space : Blanks)
  | alone (tag : PlainTag)

namespace PlainAttribute

def keyed (a : PlainAttribute) : Node :=
  match a.assigned? with
  | none => .branch .novalueAttribute [.leaf .attributeName a.name]
  | some v => .branch .kvAttribute
      [.leaf .attributeName a.name, .leaf .space v.before.1, .leaf .operator "=",
        .leaf .space v.behind.1,
        .branch .attributeValue [.leaf .quotedValue (String.ofList v.value.chars)]]

def node (a : PlainAttribute) : Node :=
  .branch .spacedAttribute [.leaf .space a.space.1, .branch .markupAttribute [a.keyed]]

def valueChars (a : PlainAttribute) : List Char :=
  match a.assigned? with
  | none => []
  | some v => v.before.1.toList ++ '=' :: (v.behind.1.toList ++ v.value.chars)

def chars (a : PlainAttribute) : List Char := a.space.1.toList ++ (a.name.toList ++ a.valueChars)

def pair (a : PlainAttribute) : Pair :=
  (a.name, a.assigned?.map fun v => String.ofList v.value.chars)

theorem toList_node (a : PlainAttribute) : a.node.text.toList = a.chars := by
  rw [node, Node.branch_text, chars, valueChars]
  cases h : a.assigned? <;> simp [keyed, h, Node.leaf, Node.branch_text]

end PlainAttribute

namespace PlainTag

def closing (t : PlainTag) : String := if t.slash then "/>" else ">"

def nodes (t : PlainTag) : List Node :=
  [.leaf .elementPunct "<", .leaf .elementName t.name,
    .branch .attributes (t.attributes.map PlainAttribute.node), .leaf .space t.space.1,
    .leaf .elementPunct t.closing]

def inner (t : PlainTag) : List Char :=
  t.attributes.flatMap PlainAttribute.chars ++
    (t.space.1.toList ++ if t.slash then ['/'] else [])

def chars (t : PlainTag) : List Char := '<' :: (t.name.toList ++ (t.inner ++ ['>']))

def pairs (t : PlainTag) : List Pair := t.attributes.map PlainAttribute.pair

theorem toList_nodes (t : PlainTag) : (Node.textOf t.nodes).toList = t.chars := by
  have attributes : (Node.textOf (t.attributes.map PlainAttribute.node)).toList =
      t.attributes.flatMap PlainAttribute.chars := by
    rw [Node.toList_textOf, List.flatMap_map]
    simp only [PlainAttribute.toList_node]
  rw [Node.toList_textOf]
  simp only [nodes, chars, inner, closing, List.flatMap_cons, List.flatMap_nil, Node.leaf,
    Node.branch_text, attributes]
  cases t.slash <;> simp

end PlainTag

namespace PlainMarkup

mutual

def node : PlainMarkup → Node
  | text kind _ s _ => .leaf kind s
  | fragment items => .branch .element [.branch .fragment
      [.leaf .elementPunct "<>", .branch .elementChildren (nodes items),
        .leaf .elementPunct "</>"]]
  | paired tag items space => .branch .element [.branch .pairedElement
      [.branch .startTag tag.nodes, .branch .elementChildren (nodes items),
        .branch .endTag [.leaf .elementPunct "</", .leaf .elementName tag.name,
          .leaf .space space.1, .leaf .elementPunct ">"]]]
  | alone tag => .branch .element [.branch .selfClosingElement tag.nodes]

def nodes : List PlainMarkup → List Node
  | [] => []
  | m :: ms => m.node :: nodes ms

end

mutual

def chars : PlainMarkup → List Char
  | text _ _ s _ => s.toList
  | fragment items => ['<', '>'] ++ (allChars items ++ ['<', '/', '>'])
  | paired tag items space =>
    tag.chars ++ (allChars items ++ (['<', '/'] ++ (tag.name.toList ++ (space.1.toList ++ ['>']))))
  | alone tag => tag.chars

def allChars : List PlainMarkup → List Char
  | [] => []
  | m :: ms => m.chars ++ allChars ms

end

mutual

def pairs : PlainMarkup → List Pair
  | text _ _ _ _ => []
  | fragment items => allPairs items
  | paired tag items _ => tag.pairs ++ allPairs items
  | alone tag => tag.pairs

def allPairs : List PlainMarkup → List Pair
  | [] => []
  | m :: ms => m.pairs ++ allPairs ms

end

mutual

theorem toList_node (m : PlainMarkup) : m.node.text.toList = m.chars := by
  match m with
  | text kind _ s _ => rw [node, chars, Node.leaf]
  | fragment items =>
    have inner := toList_nodes items
    simp [node, chars, Node.branch_text, Node.leaf, inner]
  | paired tag items space =>
    have inner := toList_nodes items
    have opening := tag.toList_nodes
    simp [node, chars, Node.branch_text, Node.leaf, inner, opening]
  | alone tag =>
    have opening := tag.toList_nodes
    simp [node, chars, Node.branch_text, opening]

theorem toList_nodes (ms : List PlainMarkup) : (Node.textOf (nodes ms)).toList = allChars ms := by
  match ms with
  | [] => simp [nodes, allChars]
  | m :: ms =>
    rw [nodes, allChars, Node.textOf_cons, String.toList_append, toList_node m, toList_nodes ms]

end

def document (ms : List PlainMarkup) : Node := .branch .document (nodes ms)

end PlainMarkup

end HybridTemplate.Utility
