import HybridTemplate.Traversal.Value
import HybridTemplate.Tree.Node

set_option autoImplicit false

/-! A table says, for the kinds that its consumer cares about, what happens when the traversal
reaches a node and what becomes of the node once its children have been visited. The traversal
stops at the first hook or handler that fails; the state that it leaves then is the state of that
moment. -/
namespace HybridTemplate

/-- A step of a traversal: it reads and changes the consumer's state and may fail. -/
abbrev Visit (ε σ β : Type) := ExceptT ε (StateM σ) β

namespace Visit

variable {ε σ β γ : Type}

def outcome (m : Visit ε σ β) (s : σ) : Except ε β × σ := m.run.run s

@[simp] theorem outcome_pure (b : β) (s : σ) :
    outcome (pure b : Visit ε σ β) s = (.ok b, s) := rfl

@[simp] theorem outcome_throw (e : ε) (s : σ) :
    outcome (throw e : Visit ε σ β) s = (.error e, s) := rfl

@[simp] theorem outcome_get (s : σ) : outcome (get : Visit ε σ σ) s = (.ok s, s) := rfl

@[simp] theorem outcome_set (s t : σ) : outcome (set t : Visit ε σ PUnit) s = (.ok ⟨⟩, t) := rfl

@[simp] theorem outcome_modify (f : σ → σ) (s : σ) :
    outcome (modify f : Visit ε σ PUnit) s = (.ok ⟨⟩, f s) := rfl

theorem outcome_bind (m : Visit ε σ β) (k : β → Visit ε σ γ) (s : σ) :
    outcome (m >>= k) s =
      match outcome m s with
      | (.ok b, t) => outcome (k b) t
      | (.error e, t) => (.error e, t) := by
  unfold outcome
  rw [ExceptT.run_bind, StateT.run_bind]
  change (match (m.run.run s).1 with
    | .ok b => (k b).run
    | .error e => pure (.error e)).run (m.run.run s).2 = _
  rcases m.run.run s with ⟨_ | b, t⟩ <;> rfl

end Visit

/-- What becomes of a node, given the values of its children. -/
abbrev Handler (ε σ α : Type) := Node → List (Value α) → Visit ε σ (Value α)

abbrev EnterHook (ε σ : Type) := Node → Visit ε σ Unit

structure Table (ε σ α : Type) where
  handler? : Kind → Option (Handler ε σ α)
  hook? : Kind → Option (EnterHook ε σ)

namespace Table

variable {ε σ α : Type}

def bare : Table ε σ α := ⟨fun _ => none, fun _ => none⟩

def on (t : Table ε σ α) (kind : Kind) (h : Handler ε σ α) : Table ε σ α :=
  { t with handler? := fun k => if k = kind then some h else t.handler? k }

def onAll (t : Table ε σ α) (kinds : List Kind) (h : Handler ε σ α) : Table ε σ α :=
  kinds.foldl (fun t kind => t.on kind h) t

def onEnter (t : Table ε σ α) (kind : Kind) (hook : EnterHook ε σ) : Table ε σ α :=
  { t with hook? := fun k => if k = kind then some hook else t.hook? k }

def handles (t : Table ε σ α) (kind : Kind) : Bool := (t.handler? kind).isSome

/-- The values of the children if there are any, else the text of the node. -/
def passOn (n : Node) (values : List (Value α)) : Value α :=
  if values.isEmpty then .text n.text else .list values

def enter (t : Table ε σ α) (n : Node) : Visit ε σ Unit :=
  match t.hook? n.kind with
  | some hook => hook n
  | none => pure ()

/-- Runs the handler of the node's kind; without one the node passes its values on. -/
def leave (t : Table ε σ α) (n : Node) (values : List (Value α)) : Visit ε σ (Value α) :=
  match t.handler? n.kind with
  | some handler => handler n values
  | none => pure (passOn n values)

mutual

def visit (t : Table ε σ α) : Node → Visit ε σ (Value α)
  | ⟨kind, start, text, children⟩ => do
    t.enter ⟨kind, start, text, children⟩
    let values ← t.visitAll children
    t.leave ⟨kind, start, text, children⟩ values

def visitAll (t : Table ε σ α) : List Node → Visit ε σ (List (Value α))
  | [] => pure []
  | n :: ns => do
    let value ← t.visit n
    let values ← t.visitAll ns
    pure (value :: values)

end

theorem visit_eq (t : Table ε σ α) (n : Node) :
    t.visit n = (do
      t.enter n
      let values ← t.visitAll n.children
      t.leave n values) := by
  cases n; rw [visit]

end Table

namespace Handler

variable {ε σ α : Type}

def suppress : Handler ε σ α := fun _ _ => pure .empty

def firstChild : Handler ε σ α := fun _ values => pure (values.head?.getD .empty)

def lastChild : Handler ε σ α := fun _ values => pure (values.getLast?.getD .empty)

def nodeText : Handler ε σ α := fun n _ => pure (.text n.text)

end Handler
end HybridTemplate
