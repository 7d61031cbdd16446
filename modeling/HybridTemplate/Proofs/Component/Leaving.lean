import HybridTemplate.Proofs.Component.Handlers
import HybridTemplate.Proofs.Traversal.Handed

set_option autoImplicit false

namespace HybridTemplate.Component

open Visit (outcome outcome_bind_eq_ok)

def bindingKind? (n : Node) : Option BindingKind :=
  if n.kind = .kvAttribute then BindingKind.ofAttributeName? (childText n .attributeName) else none

def clientCode (e : Node) : String := ((e.child? .clientExpr).map (·.text)).getD ""

/-- What a node hands up, given what its children do. -/
def yields (n : Node) (vs : List (Value ScriptItem)) : Value ScriptItem :=
  match n.kind with
  | .document | .component | .jointEmbed | .elementChildren | .webScript | .spreadAttribute
  | .utilityLiteral => .empty
  | .kvAttribute =>
    if (bindingKind? n).isSome then .empty else .item (.name (childText n .attributeName))
  | .novalueAttribute => .item (.name (childText n .attributeName))
  | .sameNameAttribute => .item (.name (childText n .hostCode))
  | .clientEmbed => .item (.embed n.start (clientCode n))
  | .scriptBody => .text (Value.list vs).joinedText
  | .staticImport => .text ""
  | .spacedAttribute => vs.getLast?.getD .empty
  | .markupAttribute | .attributeValue => vs.head?.getD .empty
  | _ => Table.passOn n vs

def lastValue (vs : List (Value ScriptItem)) : Value ScriptItem := vs.getLast?.getD .empty

def addScript (n : Node) (vs : List (Value ScriptItem)) (p : Pending) : Pending :=
  { p.addArgs (vs[2]?.getD Value.empty).items with
    script := (vs[5]?.getD Value.empty).joinedText
    scriptSource := some (((n.child? .scriptBody).map (·.text)).getD "") }

/-- What a node that is left makes of what is pending. -/
def gather (n : Node) (vs : List (Value ScriptItem)) (p : Pending) : Pending :=
  match n.kind with
  | .kvAttribute =>
    match bindingKind? n with
    | some kind => p.bind kind (bindingTarget (lastValue vs))
    | none => p.addEmbed (lastValue vs)
  | .jointEmbed => p.addEmbed (lastValue vs)
  | .elementChildren => vs.foldl Pending.addEmbed p
  | .webScript => addScript n vs p
  | .staticImport => p.addImport (Text.trim n.text)
  | _ => p

def Admits (n : Node) (vs : List (Value ScriptItem)) (p : Pending) : Prop :=
  match n.kind with
  | .kvAttribute =>
    bindingKind? n ≠ none →
      bindingTarget (lastValue vs) ≠ "" ∧ p.isBound (bindingTarget (lastValue vs)) = false
  | .webScript => p.scriptSource = none
  | _ => True

theorem failIf_eq_ok {refused : Pending → Bool} {error : Origin → CompileError} {u : Unit}
    {x y : Extractor} :
    outcome (failIf refused error) x = (.ok u, y) ↔ refused x.pending = false ∧ y = x := by
  rw [outcome_failIf]
  cases refused x.pending <;> simp [eq_comm]

theorem bindTarget_eq_ok {kind : BindingKind} {offset : Nat} {target : String} {x y : Extractor}
    {u : Unit} (h : outcome (bindTarget kind offset target) x = (.ok u, y)) :
    target ≠ "" ∧ x.pending.isBound target = false ∧ y.pending = x.pending.bind kind target := by
  simp only [bindTarget, outcome_bind_eq_ok, failIf_eq_ok] at h
  obtain ⟨_, _, ⟨nonempty, rfl⟩, _, _, ⟨unbound, rfl⟩, bound⟩ := h
  cases bound
  exact ⟨by simpa using nonempty, unbound, rfl⟩

structure Left (n : Node) (vs : List (Value ScriptItem)) (p : Pending) (v : Value ScriptItem)
    (q : Pending) : Prop where
  value : v = yields n vs
  pending : q = gather n vs p
  admitted : Admits n vs p

theorem left_keyValue {n : Node} (hn : n.kind = .kvAttribute) {vs : List (Value ScriptItem)}
    {x y : Extractor} {v : Value ScriptItem} (h : outcome (keyValue n vs) x = (.ok v, y)) :
    Left n vs x.pending v y.pending := by
  have known : bindingKind? n = BindingKind.ofAttributeName? (childText n .attributeName) :=
    if_pos hn
  unfold keyValue at h
  dsimp only at h
  split at h
  · rename_i kind binding
    obtain ⟨_, x₁, bound, left⟩ := outcome_bind_eq_ok.mp h
    obtain ⟨nonempty, unbound, pending⟩ := bindTarget_eq_ok bound
    cases left
    constructor <;> simp only [yields, gather, Admits, hn, known, binding]
    · rfl
    · exact pending
    · exact fun _ => ⟨nonempty, unbound⟩
  · rename_i binding
    cases h
    constructor <;> simp only [yields, gather, Admits, hn, known, binding]
    · rfl
    · rfl
    · exact fun ne => absurd rfl ne

theorem left_webScript {n : Node} (hn : n.kind = .webScript) {vs : List (Value ScriptItem)}
    {x y : Extractor} {v : Value ScriptItem} (h : outcome (webScript n vs) x = (.ok v, y)) :
    Left n vs x.pending v y.pending := by
  simp only [webScript, outcome_bind_eq_ok, failIf_eq_ok] at h
  obtain ⟨_, _, ⟨first, rfl⟩, _, _, added, left⟩ := h
  cases added
  cases left
  constructor <;> simp only [yields, gather, Admits, hn]
  · rfl
  · simpa using first

/-- A node that is left without error hands up what it yields and gathers what it has. -/
theorem left_of_leave {n : Node} (hd : n.kind ≠ .document) (hc : n.kind ≠ .component)
    {vs : List (Value ScriptItem)} {x y : Extractor} {v : Value ScriptItem}
    (h : outcome (table.leave n vs) x = (.ok v, y)) : Left n vs x.pending v y.pending := by
  unfold Table.leave at h
  cases hn : n.kind
  case document => contradiction
  case component => contradiction
  case kvAttribute =>
    simp only [hn, table] at h
    exact left_keyValue hn h
  case webScript =>
    simp only [hn, table] at h
    exact left_webScript hn h
  all_goals
    simp only [hn, table] at h
    cases h
    constructor <;> simp only [yields, gather, Admits, hn] <;> rfl

theorem value_of_leave {n : Node} {vs : List (Value ScriptItem)} {x y : Extractor}
    {v : Value ScriptItem} (h : outcome (table.leave n vs) x = (.ok v, y)) : v = yields n vs := by
  by_cases hd : n.kind = .document
  · rw [leave_document hd] at h
    cases h
    rw [yields, hd]
  by_cases hc : n.kind = .component
  · rw [leave_component hc] at h
    cases h
    rw [yields, hc]
  · exact (left_of_leave hd hc h).value

def handed : Node → Value ScriptItem := Node.handedBy yields

theorem handed_eq (n : Node) : handed n = yields n (n.children.map handed) :=
  Node.handedBy_eq yields n

theorem establishes_handed :
    table.Establishes (fun n _ v _ => v = handed n) (fun ns _ vs _ => vs = ns.map handed) where
  node := by
    intro n _ _ vs _ v _ _ _ below left
    rw [handed_eq, ← below]
    exact value_of_leave left
  nil := fun _ => rfl
  cons := by
    intro n ns _ v _ vs _ first rest
    rw [List.map_cons, first, rest]

end HybridTemplate.Component
