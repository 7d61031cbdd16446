import HybridTemplate.Error
import HybridTemplate.Traversal.Value

set_option autoImplicit false

namespace HybridTemplate

structure Run (κ : Type) where
  kind : κ
  text : String
deriving DecidableEq, Repr

namespace Run

variable {κ : Type}

def prepend [DecidableEq κ] (r : Run κ) (rs : List (Run κ)) : List (Run κ) :=
  if r.text = "" then rs
  else match rs with
    | [] => [r]
    | s :: rs => if r.kind = s.kind then ⟨r.kind, r.text ++ s.text⟩ :: rs else r :: s :: rs

def coalesce [DecidableEq κ] (rs : List (Run κ)) : List (Run κ) := rs.foldr prepend []

def append [DecidableEq κ] : List (Run κ) → Run κ → List (Run κ)
  | [], r => if r.text = "" then [] else [r]
  | [s], r =>
    if r.text = "" then [s]
    else if s.kind = r.kind then [⟨s.kind, s.text ++ r.text⟩] else [s, r]
  | s :: t :: rs, r => s :: append (t :: rs) r

def asValue (rs : List (Run κ)) : Value (Run κ) := .list (rs.map .item)

def concat (rs : List (Run κ)) : String := String.join (rs.map text)

@[simp] theorem coalesce_nil [DecidableEq κ] : coalesce ([] : List (Run κ)) = [] := rfl

@[simp] theorem coalesce_cons [DecidableEq κ] (r : Run κ) (rs : List (Run κ)) :
    coalesce (r :: rs) = r.prepend (coalesce rs) := rfl

@[simp] theorem concat_nil : concat ([] : List (Run κ)) = "" := rfl

@[simp] theorem concat_cons (r : Run κ) (rs : List (Run κ)) :
    concat (r :: rs) = r.text ++ concat rs := by
  simp [concat, String.join_cons]

theorem concat_prepend [DecidableEq κ] (r : Run κ) (rs : List (Run κ)) :
    concat (r.prepend rs) = r.text ++ concat rs := by
  unfold prepend
  split
  · rename_i void
    simp [void]
  · cases rs with
    | nil => simp
    | cons s rs =>
      by_cases same : r.kind = s.kind
      · simp [same, String.append_assoc]
      · simp [same]

theorem concat_coalesce [DecidableEq κ] (rs : List (Run κ)) : concat (coalesce rs) = concat rs := by
  induction rs with
  | nil => rfl
  | cons r rs ih => rw [coalesce_cons, concat_prepend, ih, concat_cons]

end Run

def Value.firstText? {α : Type} (v : Value α) : Option String := v.texts.find? fun s => s ≠ ""

def merge {κ : Type} [DecidableEq κ] (v : Value (Run κ)) : Except CompileError (List (Run κ)) :=
  match v.firstText? with
  | some s => .error (.untypedFragment s)
  | none => .ok (Run.coalesce v.items)

theorem merge_eq_error_iff {κ : Type} [DecidableEq κ] {v : Value (Run κ)} {e : CompileError} :
    merge v = .error e ↔ ∃ s, v.firstText? = some s ∧ e = .untypedFragment s := by
  unfold merge
  cases v.firstText? <;> simp [eq_comm]

end HybridTemplate
