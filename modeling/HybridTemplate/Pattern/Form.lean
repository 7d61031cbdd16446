import HybridTemplate.Pattern.Basic
import HybridTemplate.Text.CharSet

set_option autoImplicit false

/-! A written pattern is brought into a normal form before it is matched. Neighbouring characters
are one text, alternatives between single characters are one set, and what alternatives have in
common at their beginning stands in front of them. `either`, `chain` and `times` build forms that
are normal if their parts are.

`pattern` takes the form apart into choices. Inside the body of a repetition that may match
nothing every choice has a place, and is made once between two characters. -/
namespace HybridTemplate.Pattern

inductive Form where
  | empty
  | text (cs : List Char)
  | set (s : Text.CharSet)
  | start
  | stop
  | wordBoundary
  | repeated (least : Nat) (most : Option Nat) (greedy : Bool) (f : Form)
  | group (index : Nat) (f : Form)
  | seq (f g : Form)
  | alt (f g : Form)
deriving BEq, ReflBEq, LawfulBEq, Repr

namespace Form

def items : Form → List Form
  | empty => []
  | seq f g => f.items ++ g.items
  | f => [f]

def branches : Form → List Form
  | alt f g => f.branches ++ g.branches
  | f => [f]

def isVoid : Form → Bool
  | empty => true
  | text cs => cs.isEmpty
  | set _ => false
  | start => true
  | stop => true
  | wordBoundary => true
  | repeated _ _ _ f => f.isVoid
  | group _ f => f.isVoid
  | seq f g => f.isVoid && g.isVoid
  | alt f g => f.isVoid && g.isVoid

def mayBeEmpty : Form → Bool
  | empty => true
  | text cs => cs.isEmpty
  | set _ => false
  | start => true
  | stop => true
  | wordBoundary => true
  | repeated least _ _ f => least == 0 || f.mayBeEmpty
  | group _ f => f.mayBeEmpty
  | seq f g => f.mayBeEmpty && g.mayBeEmpty
  | alt f g => f.mayBeEmpty || g.mayBeEmpty

def size : Form → Nat
  | text cs => cs.length
  | repeated least most _ f => max (most.getD (least + 1)) 1 * (f.size + 1)
  | group _ f => f.size + 1
  | seq f g => f.size + g.size
  | alt f g => f.size + g.size + 1
  | _ => 1

def ofSet (s : Text.CharSet) : Form :=
  match s.only? with
  | some c => text [c]
  | none => set s

def joinTexts : List Form → List Form
  | [] => []
  | text cs :: fs =>
    match joinTexts fs with
    | text ds :: gs => text (cs ++ ds) :: gs
    | gs => text cs :: gs
  | f :: fs => f :: joinTexts fs

def seqs : List Form → Form
  | [] => empty
  | [f] => f
  | f :: g :: fs => seq f (seqs (g :: fs))

def chain (fs : List Form) : Form := seqs (joinTexts (fs.flatMap items))

def alts : List Form → Form
  | [] => set .empty
  | [f] => f
  | f :: g :: fs => alt f (alts (g :: fs))

def char? : Form → Option Char
  | text [c] => some c
  | _ => none

def set? : Form → Option Text.CharSet
  | set s => some s
  | _ => none

def union? (fs : List Form) : Option Text.CharSet :=
  match fs.mapM char? with
  | some cs => some (.ofChars cs)
  | none => (fs.mapM set?).map fun ss => ss.foldl Text.CharSet.union .empty

def gather (fs : List Form) : Form :=
  match fs.flatMap branches with
  | [f] => f
  | bs =>
    match union? bs with
    | some s => ofSet s
    | none => alts bs

def common : List Form → List Form → List Form
  | f :: fs, g :: gs => if f == g then f :: common fs gs else []
  | _, _ => []

/-- The items at which all alternatives begin, if each of them has several. -/
def sharedItems (bs : List (List Form)) : List Form :=
  match bs with
  | [] => []
  | b :: bs => if (b :: bs).all (2 ≤ ·.length) then bs.foldl common b else []

def either (fs : List Form) : Form :=
  match fs.flatMap branches with
  | [f] => f
  | bs =>
    match sharedItems (bs.map items) with
    | [] => gather bs
    | shared =>
      chain (shared ++ [gather (bs.map fun b => seqs (b.items.drop shared.length))])

/-- `f` at least `least` times, and at most `most` times if that is given. To repeat the
empty text more than once changes nothing. -/
def times (least : Nat) (most : Option Nat) (greedy : Bool) (f : Form) : Form :=
  let (least, most) :=
    if f.isVoid then (min least 1, some (min (most.getD 1) 1)) else (least, most)
  if least = 0 ∧ most = some 0 then empty
  else if least = 1 ∧ most = some 1 then f
  else repeated least most greedy f

/-- `p`, once between two characters if the choices in it are tracked. -/
def guarded (tracked : Bool) (place : Nat) (p : Pattern) : Pattern :=
  if tracked then .seq (.once place) p else p

def both : Pattern → Pattern → Pattern
  | .empty, q => q
  | p, .empty => p
  | p, q => .seq p q

def copies (body : Nat → Pattern) : Nat → Nat → Pattern
  | 0, _ => .empty
  | n + 1, place => both (copies body n (2 * place)) (body (2 * place + 1))

def atMost (tracked greedy : Bool) (body : Nat → Pattern) : Nat → Nat → Pattern
  | 0, _ => .empty
  | n + 1, place =>
    guarded tracked place (.optional greedy
      (.seq (body (2 * place)) (atMost tracked greedy body n (2 * place + 1))))

def loopAt (tracked greedy : Bool) (place : Nat) (first body : Pattern) : Pattern :=
  if tracked then .seq (.loop greedy first (.seq (.once place) body)) (.once place)
  else .loop greedy first body

def starAt (tracked greedy : Bool) (place : Nat) (body : Pattern) : Pattern :=
  loopAt tracked greedy place .empty body

def plusAt (tracked greedy : Bool) (place : Nat) (body : Pattern) : Pattern :=
  loopAt tracked greedy place body body

/-- The pattern of a form. A choice has the number of its form for a place; the first part
of a form has twice its number, the second one more than that, so no two are equal. -/
def pattern (tracked : Bool) (place : Nat) : Form → Pattern
  | empty => .empty
  | text cs => .seqs (cs.map .char)
  | set s => .one s.has
  | start => .start
  | stop => .stop
  | wordBoundary => .wordBoundary
  | group index f => .group index (f.pattern tracked place)
  | seq f g => .seq (f.pattern tracked (2 * place)) (g.pattern tracked (2 * place + 1))
  | alt f g =>
    guarded tracked place
      (.alt (f.pattern tracked (2 * place)) (g.pattern tracked (2 * place + 1)))
  | repeated 0 (some 1) greedy f =>
    guarded tracked place (.optional greedy (f.pattern tracked (2 * place)))
  | repeated least (some most) greedy f =>
    let body := fun place => f.pattern tracked place
    both (copies body least (2 * place))
      (atMost tracked greedy body (most - least) (2 * place + 1))
  | repeated 0 none greedy f =>
    if f.mayBeEmpty then
      guarded tracked (2 * place)
        (.optional greedy
          (plusAt true greedy (2 * place + 1) (f.pattern true (2 * (2 * place + 1)))))
    else starAt tracked greedy place (f.pattern tracked (2 * place))
  | repeated (n + 1) none greedy f =>
    both (copies (fun place => f.pattern tracked place) n (2 * place))
      (plusAt (tracked || f.mayBeEmpty) greedy (2 * place + 1)
        (f.pattern (tracked || f.mayBeEmpty) (2 * (2 * place + 1))))

end Form
end HybridTemplate.Pattern
