set_option autoImplicit false

namespace HybridTemplate

inductive Value (α : Type) where
  | empty
  | text (s : String)
  | list (values : List (Value α))
  | item (a : α)

namespace Value

variable {α : Type}

def isEmpty : Value α → Bool
  | empty => true
  | _ => false

def text? : Value α → Option String
  | text s => some s
  | _ => none

def item? : Value α → Option α
  | item a => some a
  | _ => none

mutual

def items : Value α → List α
  | empty => []
  | text _ => []
  | list vs => itemsAll vs
  | item a => [a]

def itemsAll : List (Value α) → List α
  | [] => []
  | v :: vs => v.items ++ itemsAll vs

end

mutual

def texts : Value α → List String
  | empty => []
  | text s => [s]
  | list vs => textsAll vs
  | item _ => []

def textsAll : List (Value α) → List String
  | [] => []
  | v :: vs => v.texts ++ textsAll vs

end

def joinedText (v : Value α) : String := String.join v.texts

theorem itemsAll_eq (vs : List (Value α)) : itemsAll vs = vs.flatMap items := by
  induction vs with
  | nil => rfl
  | cons v vs ih => simp [itemsAll, ih]

theorem textsAll_eq (vs : List (Value α)) : textsAll vs = vs.flatMap texts := by
  induction vs with
  | nil => rfl
  | cons v vs ih => simp [textsAll, ih]

end Value
end HybridTemplate
