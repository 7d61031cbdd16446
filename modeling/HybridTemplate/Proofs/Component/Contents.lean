import HybridTemplate.Proofs.Component.Leaving
import HybridTemplate.Proofs.Tree.Productions

set_option autoImplicit false

namespace HybridTemplate.Component

def givenName (g : Node) : String :=
  match g.kind with
  | .clientEmbed => Text.trim (clientCode g)
  | .quotedValue | .formatString => bindingTarget (.text g.text)
  | _ => ""

def bindingName (a : Node) : String :=
  (((a.child? .attributeValue).bind fun v => v.children.head?).map givenName).getD ""

def boundNames (kind : BindingKind) (ms : List Node) : List String :=
  (ms.filter fun m => bindingKind? m = some kind).map bindingName

/-- The client embeds that a node collects: the children of an element, the client part of a joint
embed, the value of an attribute that binds nothing. -/
def collectedBy (m : Node) : List Node :=
  match m.kind with
  | .elementChildren | .jointEmbed => m.children.filter fun c => c.kind = .clientEmbed
  | .kvAttribute =>
    if (bindingKind? m).isSome then []
    else (m.children.filter fun c => c.kind = .attributeValue).flatMap fun v =>
      v.children.filter fun c => c.kind = .clientEmbed
  | _ => []

def placed (e : Node) : Nat × String := (e.start, clientCode e)

def isImport (m : Node) : Bool := m.kind = .staticImport

def importTexts (ms : List Node) : List String :=
  (ms.filter isImport).map fun m => Text.trim m.text

def attributesOf (tag : Node) : List Node :=
  ((tag.child? .attributes).toList.flatMap Node.children).flatMap fun s =>
    s.children.flatMap Node.children

def argumentName? (a : Node) : Option String :=
  match a.kind with
  | .kvAttribute => if (bindingKind? a).isSome then none else some (childText a .attributeName)
  | .novalueAttribute => some (childText a .attributeName)
  | .sameNameAttribute => some (childText a .hostCode)
  | _ => none

def argumentNames (s : Node) : List String :=
  ((attributesOf s).filterMap argumentName?).filter fun name => !name.isEmpty

def bodyText (s : Node) : String := ((s.child? .scriptBody).map (·.text)).getD ""

def bodyNodes (s : Node) : List Node := (s.child? .scriptBody).toList.flatMap Node.children

/-- The text of nodes without the imports among them. -/
def keptText (ms : List Node) : String := Node.textOf (ms.filter fun m => !isImport m)

def isScript (m : Node) : Bool := m.kind = .webScript

def embedOf? : Value ScriptItem → Option (Nat × String)
  | .item (.embed offset code) => some (offset, code)
  | _ => none

theorem addEmbed_eq (p : Pending) (v : Value ScriptItem) :
    p.addEmbed v = { p with embeds := p.embeds ++ (embedOf? v).toList } := by
  cases v with
  | item a =>
    cases a with
    | embed offset code => rfl
    | name s => simp [Pending.addEmbed, embedOf?]
  | _ => simp [Pending.addEmbed, embedOf?]

theorem addEmbeds_eq (p : Pending) (vs : List (Value ScriptItem)) :
    vs.foldl Pending.addEmbed p = { p with embeds := p.embeds ++ vs.filterMap embedOf? } := by
  induction vs generalizing p with
  | nil => simp
  | cons v vs ih =>
    rw [List.foldl_cons, ih, addEmbed_eq]
    cases h : embedOf? v <;> simp [h]

theorem embedOf?_passOn (n : Node) (vs : List (Value ScriptItem)) :
    embedOf? (Table.passOn n vs) = none := by
  unfold Table.passOn
  split <;> rfl

/-- Only attributes and their values hand up what stands below them. -/
theorem embedOf?_handed {n : Node} (hs : n.kind ≠ .spacedAttribute)
    (ha : n.kind ≠ .markupAttribute) (hv : n.kind ≠ .attributeValue) :
    embedOf? (handed n) = if n.kind = .clientEmbed then some (placed n) else none := by
  have passed := embedOf?_passOn n (n.children.map handed)
  rw [handed_eq]
  cases hn : n.kind
  case spacedAttribute | markupAttribute | attributeValue => contradiction
  case kvAttribute =>
    simp only [yields, hn]
    split <;> rfl
  case clientEmbed =>
    simp only [yields, hn]
    rfl
  all_goals
    simp only [yields, hn, passed]
    rfl

theorem embedOf?_handed_item {n : Node} (h : n.kind.isItem = true) :
    embedOf? (handed n) = if n.kind = .clientEmbed then some (placed n) else none := by
  refine embedOf?_handed ?_ ?_ ?_ <;> intro hn <;> rw [hn] at h <;> cases h

theorem embedOf?_handed_value {n : Node} (h : n.kind.isValue = true) :
    embedOf? (handed n) = if n.kind = .clientEmbed then some (placed n) else none := by
  refine embedOf?_handed ?_ ?_ ?_ <;> intro hn <;> rw [hn] at h <;> cases h

theorem filterMap_embedOf?_handed {ns : List Node} (h : ∀ n ∈ ns, n.kind.isItem = true) :
    (ns.map handed).filterMap embedOf? = (ns.filter fun n => n.kind = .clientEmbed).map placed := by
  induction ns with
  | nil => rfl
  | cons n ns ih =>
    obtain ⟨head, tail⟩ := List.forall_mem_cons.mp h
    have first := embedOf?_handed_item head
    by_cases hn : n.kind = .clientEmbed
    · rw [if_pos hn] at first
      simp [first, hn, ih tail]
    · rw [if_neg hn] at first
      simp [first, hn, ih tail]

theorem handed_attributeValue {v g : Node} (hv : v.kind = .attributeValue) (eq : v.children = [g]) :
    handed v = handed g := by
  rw [handed_eq, eq]
  simp only [yields, hv]
  rfl

theorem bindingTarget_handed {g : Node} (h : g.Follows) (value : g.kind.isValue = true) :
    bindingTarget (handed g) = givenName g := by
  unfold givenName
  cases hg : g.kind
  case quotedValue | formatString =>
    rw [handed, Node.handedBy_leaf h (by rw [hg]; rfl) fun vs => by rw [yields, hg]]
  case clientEmbed | jointEmbed =>
    rw [handed_eq]
    simp only [yields, hg]
    rfl
  case serverEmbed =>
    have inner := h.serverEmbed hg
    rw [handed_eq]
    simp only [yields, hg]
    simp [Table.passOn, inner, bindingTarget]
  all_goals (rw [hg] at value; cases value)

theorem items_handed_attribute {b : Node} (h : b.kind.isAttribute = true) :
    (handed b).items = (argumentName? b).toList.map ScriptItem.name := by
  rw [handed_eq]
  cases hb : b.kind
  case kvAttribute =>
    simp only [yields, argumentName?, hb]
    split <;> rfl
  case novalueAttribute | sameNameAttribute | spreadAttribute | utilityLiteral =>
    simp only [yields, argumentName?, hb]
    rfl
  all_goals (rw [hb] at h; cases h)

theorem passesAttributes_yields : Node.PassesAttributes yields where
  spacedAttribute vs hn := by rw [yields, hn]
  markupAttribute vs hn := by rw [yields, hn]
  attributes vs hn := by rw [yields, hn]

theorem items_handed_attributes {a : Node} (h : a.Conforms) (ha : a.kind = .attributes) :
    (handed a).items = ((a.children.flatMap fun s => s.children.flatMap Node.children).filterMap
      argumentName?).map ScriptItem.name := by
  have each (b : Node) (_ : b.Conforms) (hb : b.kind.isAttribute = true) :
      (handed b).items.map id = ((argumentName? b).map ScriptItem.name).toList := by
    rw [List.map_id, items_handed_attribute hb, Option.toList_map]
  rw [List.map_filterMap, ← passesAttributes_yields.items_attributes each h ha, List.map_id]
  rfl

theorem texts_handed_scriptPart {c : Node} (h : c.Follows)
    (part : c.kind = .scriptCode ∨ c.kind = .staticImport) :
    String.join (handed c).texts = if isImport c then "" else c.text := by
  rcases part with hc | hc
  · have code : isImport c = false := by simp [isImport, hc]
    rw [handed, Node.handedBy_leaf h (by rw [hc]; rfl) fun vs => by rw [yields, hc], code]
    simp [Value.texts]
  · have hoisted : isImport c = true := by simp [isImport, hc]
    rw [handed_eq, hoisted]
    simp [yields, hc, Value.texts]

theorem join_texts_handed {cs : List Node} (follows : ∀ c ∈ cs, c.Follows)
    (parts : ∀ c ∈ cs, c.kind = .scriptCode ∨ c.kind = .staticImport) :
    String.join ((cs.map handed).flatMap Value.texts) =
      keptText cs := by
  induction cs with
  | nil => rfl
  | cons c cs ih =>
    obtain ⟨part, parts⟩ := List.forall_mem_cons.mp parts
    obtain ⟨first, rest⟩ := List.forall_mem_cons.mp follows
    rw [List.map_cons, List.flatMap_cons, String.join_append, texts_handed_scriptPart first part,
      ih rest parts]
    cases hc : isImport c <;> simp [keptText, hc]

theorem joinedText_handed_scriptBody {b : Node} (h : b.Conforms) (hb : b.kind = .scriptBody) :
    (handed b).joinedText = keptText b.children := by
  have joined := join_texts_handed (fun c hc => (h.child hc).follows) (h.follows.scriptBody hb)
  rw [← joined, handed_eq]
  simp only [yields, hb, Value.joinedText, Value.texts, Value.textsAll_eq]
  simp

end HybridTemplate.Component
