import HybridTemplate.Tree.Kind

set_option autoImplicit false

/-! A node has a kind, the byte offset at which its text begins, its text and its children. Where
a grammar builds a tree from `leaf` and `branch`, the text of a branch is that of its children in
order and every offset is the place of the node's text in the text of the root. -/
namespace HybridTemplate

structure Node where
  kind : Kind
  start : Nat
  text : String
  children : List Node
deriving Repr

namespace Node

def stop (n : Node) : Nat := n.start + n.text.utf8ByteSize

def isLeaf (n : Node) : Bool := n.children.isEmpty

mutual

/-- Moves the node to `start` and lays its descendants out from there. -/
def rebase (start : Nat) : Node → Node
  | ⟨kind, _, text, children⟩ => ⟨kind, start, text, rebaseAll start children⟩

def rebaseAll (start : Nat) : List Node → List Node
  | [] => []
  | n :: ns => n.rebase start :: rebaseAll (start + n.text.utf8ByteSize) ns

end

def leaf (kind : Kind) (text : String) : Node := ⟨kind, 0, text, []⟩

def textOf (ns : List Node) : String := String.join (ns.map text)

def branch (kind : Kind) (children : List Node) : Node :=
  rebase 0 ⟨kind, 0, textOf children, children⟩

def child? (n : Node) (kind : Kind) : Option Node := n.children.find? fun c => c.kind = kind

mutual

def preorder : Node → List Node
  | ⟨kind, start, text, children⟩ => ⟨kind, start, text, children⟩ :: preorderAll children

def preorderAll : List Node → List Node
  | [] => []
  | n :: ns => n.preorder ++ preorderAll ns

end

def find? (n : Node) (kind : Kind) : Option Node := n.preorder.find? fun m => m.kind = kind

theorem rebase_start (start : Nat) (n : Node) : (n.rebase start).start = start := by
  cases n; simp [rebase]

theorem rebase_text (start : Nat) (n : Node) : (n.rebase start).text = n.text := by
  cases n; simp [rebase]

theorem rebase_kind (start : Nat) (n : Node) : (n.rebase start).kind = n.kind := by
  cases n; simp [rebase]

theorem branch_text (kind : Kind) (children : List Node) :
    (branch kind children).text = textOf children := by
  simp [branch, rebase_text]

end Node

structure ParseFailure where
  offset : Nat
  message : String
deriving DecidableEq, Repr

abbrev Grammar := String → Except ParseFailure Node

end HybridTemplate
