set_option autoImplicit false

/-! A path is kept as the text that was written. Its meaning is the list of its components: a
leading slash is the root, a leading dot the current directory, and further on empty segments and
dots mean nothing. Two paths are the same when their components are. -/
namespace HybridTemplate

structure Path where
  text : String
deriving Repr

namespace Path

inductive Component where
  | root
  | current
  | parent
  | normal (name : String)
deriving DecidableEq, Repr

namespace Component

def rank : Component → Nat
  | root => 0
  | current => 1
  | parent => 2
  | normal _ => 3

def lt : Component → Component → Bool
  | normal a, normal b => a < b
  | a, b => a.rank < b.rank

end Component

inductive Lead where
  | root
  | current
  | none
deriving DecidableEq, Repr

structure Parts where
  lead : Lead
  body : List (List Char)
deriving DecidableEq, Repr

def segments : List Char → List (List Char)
  | [] => [[]]
  | c :: cs =>
    if c = '/' then [] :: segments cs
    else match segments cs with
      | [] => [[c]]
      | s :: ss => (c :: s) :: ss

def joinSegments : List (List Char) → List Char
  | [] => []
  | [s] => s
  | s :: t :: ss => s ++ '/' :: joinSegments (t :: ss)

theorem segments_ne_nil (cs : List Char) : segments cs ≠ [] := by
  cases cs with
  | nil => simp [segments]
  | cons c cs =>
    rw [segments]
    split
    · simp
    · split <;> simp

theorem joinSegments_segments (cs : List Char) : joinSegments (segments cs) = cs := by
  induction cs with
  | nil => rfl
  | cons c cs ih =>
    rw [segments]
    split
    · rename_i slash
      cases h : segments cs with
      | nil => exact absurd h (segments_ne_nil cs)
      | cons s ss => rw [h] at ih; simp [joinSegments, ih, slash]
    · cases h : segments cs with
      | nil => exact absurd h (segments_ne_nil cs)
      | cons s ss =>
        rw [h] at ih
        cases ss <;> simp_all [joinSegments]

def isVoid (s : List Char) : Bool := s == [] || s == ['.']

def parts (p : Path) : Parts :=
  match p.text.toList with
  | [] => ⟨.none, []⟩
  | '/' :: cs => ⟨.root, if cs.isEmpty then [] else segments cs⟩
  | ['.'] => ⟨.current, []⟩
  | '.' :: '/' :: cs => ⟨.current, segments cs⟩
  | cs => ⟨.none, segments cs⟩

namespace Parts

def chars (p : Parts) : List Char :=
  match p.lead with
  | .root => '/' :: joinSegments p.body
  | .current => if p.body.isEmpty then ['.'] else '.' :: '/' :: joinSegments p.body
  | .none => joinSegments p.body

def path (p : Parts) : Path := ⟨String.ofList p.chars⟩

def trimEnd (p : Parts) : Parts := { p with body := (p.body.reverse.dropWhile isVoid).reverse }

end Parts

def componentOf (s : List Char) : Component :=
  if s = ['.', '.'] then .parent else .normal (String.ofList s)

def bodyComponents (body : List (List Char)) : List Component :=
  (body.filter fun s => !isVoid s).map componentOf

def components (p : Path) : List Component :=
  match p.parts.lead with
  | .root => .root :: bodyComponents p.parts.body
  | .current => .current :: bodyComponents p.parts.body
  | .none => bodyComponents p.parts.body

/-- Whether two paths mean the same. -/
def same (p q : Path) : Bool := p.components == q.components

def componentsLt : List Component → List Component → Bool
  | _, [] => false
  | [], _ :: _ => true
  | a :: as, b :: bs => a.lt b || (a == b && componentsLt as bs)

def lt (p q : Path) : Bool := componentsLt p.components q.components

def isAbsolute (p : Path) : Bool := p.text.toList.head? == some '/'

def parent? (p : Path) : Option Path :=
  let parts := p.parts.trimEnd
  match parts.lead, parts.body.reverse with
  | .root, [] => none
  | .none, [] => none
  | .current, [] => some ⟨""⟩
  | lead, _ :: before => some (Parts.trimEnd ⟨lead, before.reverse⟩).path

/-- The last component, if it is a name. -/
def fileName? (p : Path) : Option String :=
  match p.components.getLast? with
  | some (.normal name) => some name
  | _ => none

/-- A name cut at its last dot; a name without a dot behind its first character has no
second part. -/
def splitName (name : String) : String × Option String :=
  let reversed := name.toList.reverse
  let extension := reversed.takeWhile (· != '.')
  match reversed.dropWhile (· != '.') with
  | _ :: c :: cs => (String.ofList (c :: cs).reverse, some (String.ofList extension.reverse))
  | _ => (name, none)

def fileStem? (p : Path) : Option String := p.fileName?.map fun name => (splitName name).1

def extension? (p : Path) : Option String := p.fileName?.bind fun name => (splitName name).2

def join (p q : Path) : Path :=
  if q.isAbsolute then q
  else if p.text.isEmpty || p.text.toList.getLast? == some '/' then ⟨p.text ++ q.text⟩
  else ⟨p.text ++ "/" ++ q.text⟩

def dropBody? : List (List Char) → List Component → Option (List (List Char))
  | body, [] => some body
  | [], _ :: _ => none
  | s :: body, c :: cs =>
    if isVoid s then dropBody? body (c :: cs)
    else if componentOf s = c then dropBody? body cs
    else none

/-- The path relative to `base`, if its components begin with those of `base`. -/
def stripPrefix? (p base : Path) : Option Path :=
  match base.components with
  | [] => some p.parts.trimEnd.path
  | c :: cs =>
    let behind : Option (List (List Char)) :=
      match p.parts.lead, c with
      | .root, .root => dropBody? p.parts.body cs
      | .current, .current => dropBody? p.parts.body cs
      | .none, c => dropBody? p.parts.body (c :: cs)
      | _, _ => none
    behind.map fun body => (Parts.trimEnd ⟨.none, body.dropWhile isVoid⟩).path

def startsWith (p base : Path) : Bool := base.components.isPrefixOf p.components

def withoutExtension (p : Path) : Path :=
  match p.fileName? with
  | none => p
  | some name =>
    match p.parts.trimEnd with
    | ⟨lead, body⟩ => (Parts.mk lead (body.dropLast ++ [(splitName name).1.toList])).path

end Path
end HybridTemplate
