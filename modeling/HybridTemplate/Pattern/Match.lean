import HybridTemplate.Pattern.Basic

set_option autoImplicit false

/-! A cursor stands between two characters of the subject and remembers the groups that lie behind
it and the choices that it has made since the last character. From a cursor a pattern reaches
further cursors, and `reach` lists them in the order in which they are preferred; the match is the
first of them.

A repetition visits every place of the subject once, and a sequence keeps the first of several
cursors at one place: whatever a later visit could reach has been listed already.

A word boundary depends on a character that has not been read yet. In a subject within ASCII such
conditions are held back until that character is known, and this decides the length of the match:
behind the first of them the choices at that place are made afresh, `Cursor.cross`. At the
beginning of the subject nothing has been held back. The result differs from the plain reading
only where `once` is at work too. -/
namespace HybridTemplate.Pattern

structure Cursor where
  pos : Nat
  before : Option Char
  rest : List Char
  groups : List (Nat × Nat × Nat)
  places : List Nat
  late : Bool

namespace Cursor

def atStart (subject : List Char) (late : Bool) : Cursor := ⟨0, none, subject, [], [], late⟩

def step (c : Cursor) (accepts : Char → Bool) : List Cursor :=
  match c.rest with
  | [] => []
  | d :: ds => if accepts d then [⟨c.pos + 1, some d, ds, c.groups, [], c.late⟩] else []

def atWordBoundary (c : Cursor) : Bool :=
  c.before.any Text.isWord != c.rest.head?.any Text.isWord

/-- Whether a condition that was held back lies between the last character and here. It is
noted as place 0, a number that no choice has. -/
def crossed (c : Cursor) : Bool := c.places.contains 0

/-- Behind a condition that holds; what was passed in front of it counts no more. -/
def cross (c : Cursor) : Cursor :=
  if c.late && c.pos ≠ 0 && !c.crossed then { c with places := [0] } else c

def pass (c : Cursor) (place : Nat) : List Cursor :=
  if c.places.contains place then [] else [{ c with places := place :: c.places }]

def note (c : Cursor) (index first : Nat) : Cursor :=
  { c with groups := (index, first, c.pos) :: c.groups }

def key (c : Cursor) : Nat := if c.late then 2 * c.pos + (if c.crossed then 1 else 0) else c.pos

/-- At least one element for each key that can be met from here on. -/
def fuel (c : Cursor) : List Char :=
  if c.late then ' ' :: ' ' :: c.rest ++ c.rest else ' ' :: c.rest

end Cursor

abbrev Seen := Nat

namespace Seen

def has (seen : Seen) (key : Nat) : Bool := seen.testBit key

def add (seen : Seen) (key : Nat) : Seen := seen ||| 1 <<< key

end Seen

structure Found where
  seen : Seen
  cursors : List Cursor

namespace Found

def nothing : Found := ⟨0, []⟩

def meet (f : Found) (c : Cursor) : Found := { f with seen := f.seen.add c.key }

def add (f : Found) (c : Cursor) : Found := { f with cursors := c :: f.cursors }

def addNew (f : Found) (c : Cursor) : Found :=
  if f.seen.has c.key then f else (f.meet c).add c

def inOrder (f : Found) : List Cursor := f.cursors.reverse

end Found

def distinct (cs : List Cursor) : List Cursor :=
  match cs with
  | [] => []
  | [c] => [c]
  | c :: d :: cs => ((c :: d :: cs).foldl Found.addNew Found.nothing).inOrder

theorem mem_of_mem_foldl_addNew {cs : List Cursor} {f : Found} {d : Cursor}
    (h : d ∈ (cs.foldl Found.addNew f).cursors) : d ∈ f.cursors ∨ d ∈ cs := by
  induction cs generalizing f with
  | nil => exact .inl h
  | cons c cs ih =>
    rcases ih h with old | new
    · by_cases met : f.seen.has c.key
      · rw [Found.addNew, if_pos met] at old
        exact .inl old
      · rw [Found.addNew, if_neg met] at old
        rcases List.mem_cons.mp old with rfl | old
        · exact .inr List.mem_cons_self
        · exact .inl old
    · exact .inr (List.mem_cons_of_mem c new)

theorem mem_of_mem_distinct {cs : List Cursor} {d : Cursor} (h : d ∈ distinct cs) : d ∈ cs := by
  match cs with
  | [] => exact h
  | [_] => exact h
  | c :: e :: cs =>
    have found := List.mem_reverse.mp h
    rcases mem_of_mem_foldl_addNew found with none | mem
    · exact absurd none List.not_mem_nil
    · exact mem

/-- Where the repetition of `body` may stop, behind what has been found already. Each
iteration uses up one element of `fuel`. -/
def closure (body : Cursor → List Cursor) (greedy : Bool) :
    (fuel : List Char) → Found → Cursor → Found
  | [], found, _ => found
  | _ :: fuel, found, c =>
    if found.seen.has c.key then found
    else if greedy then
      ((body c).foldl (closure body greedy fuel) (found.meet c)).add c
    else
      (body c).foldl (closure body greedy fuel) ((found.meet c).add c)

def reach : Pattern → Cursor → List Cursor
  | empty, c => [c]
  | one accepts, c => c.step accepts
  | start, c => if c.pos = 0 then [c] else []
  | stop, c => if c.rest.isEmpty then [c] else []
  | wordBoundary, c => if c.atWordBoundary then [c.cross] else []
  | once place, c => c.pass place
  | seq p q, c => distinct ((reach p c).flatMap (reach q))
  | alt p q, c => reach p c ++ reach q c
  | group index p, c => (reach p c).map fun d => d.note index c.pos
  | optional greedy p, c => if greedy then reach p c ++ [c] else c :: reach p c
  | loop greedy p q, c =>
    ((reach p c).foldl (closure (reach q) greedy c.fuel) .nothing).inOrder

def contains (test : Pattern → Bool) (p : Pattern) : Bool :=
  test p ||
    match p with
    | seq q r => q.contains test || r.contains test
    | alt q r => q.contains test || r.contains test
    | group _ q => q.contains test
    | optional _ q => q.contains test
    | loop _ q r => q.contains test || r.contains test
    | _ => false

def isOnce : Pattern → Bool
  | once _ => true
  | _ => false

def isWordBoundary : Pattern → Bool
  | wordBoundary => true
  | _ => false

def isGroup : Pattern → Bool
  | group _ _ => true
  | _ => false

/-- Whether it can matter that conditions are held back. -/
def dependsOnDelay (p : Pattern) : Bool := p.contains isOnce && p.contains isWordBoundary

structure Match where
  length : Nat
  groups : List (Nat × Nat × Nat)
deriving DecidableEq, Repr

namespace Match

def group? (m : Match) (index : Nat) : Option (Nat × Nat) :=
  (m.groups.find? fun g => g.1 = index).map (·.2)

end Match

/-- The preferred cursor. Where conditions are held back, they decide how far the match
goes, and groups are looked for within that stretch. -/
def preferred? (p : Pattern) (subject : List Char) : Option Cursor :=
  match reach p (.atStart subject false) with
  | [] => none
  | c :: cs =>
    if p.dependsOnDelay && subject.all (·.val < 128) then
      (reach p (.atStart subject true)).head?.bind fun d =>
        if p.contains isGroup then (c :: cs).find? (·.pos ≤ d.pos) else some d
    else some c

def matchAt? (p : Pattern) (subject : List Char) : Option Match :=
  (p.preferred? subject).map fun c => ⟨c.pos, c.groups⟩

end HybridTemplate.Pattern
