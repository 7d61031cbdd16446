import HybridTemplate.Text.Blank
import HybridTemplate.Text.WordChar

set_option autoImplicit false

/-! A pattern describes stretches of text and records where its groups lie. Where it has a choice,
the alternative written first is preferred; a greedy repetition prefers to go on, a reluctant one
prefers to stop.

`loop` is `first`, and behind it `next` any number of times. A repetition whose body may match
nothing could come back to a choice without having moved. `once` stands in front of such choices:
it holds the first time since the last character, and fails from then on, because the choice has
been made already. -/
namespace HybridTemplate

inductive Pattern where
  | empty
  | one (accepts : Char → Bool)
  | start
  | stop
  | wordBoundary
  | once (place : Nat)
  | seq (p q : Pattern)
  | alt (p q : Pattern)
  | group (index : Nat) (p : Pattern)
  | optional (greedy : Bool) (p : Pattern)
  | loop (greedy : Bool) (first next : Pattern)

namespace Pattern

def seqs (ps : List Pattern) : Pattern :=
  match ps with
  | [] => empty
  | [p] => p
  | p :: q :: ps => seq p (seqs (q :: ps))

def never : Pattern := one fun _ => false

def alts (ps : List Pattern) : Pattern :=
  match ps with
  | [] => never
  | [p] => p
  | p :: q :: ps => alt p (alts (q :: ps))

def char (c : Char) : Pattern := one (· == c)

def lit (s : String) : Pattern := seqs (s.toList.map char)

def oneOf (s : String) : Pattern :=
  let members := s.toList
  one fun c => members.contains c

def noneOf (s : String) : Pattern :=
  let members := s.toList
  one fun c => !members.contains c

def anyChar : Pattern := one fun _ => true

def inLine : Pattern := noneOf "\n"

def blank : Pattern := one Text.isBlank
def wordChar : Pattern := one Text.isWord
def digit : Pattern := one Text.isDigit

def wordStart : Pattern := one fun c => Text.isWord c && !Text.isDigit c

def star (greedy : Bool) (p : Pattern) : Pattern := loop greedy empty p

def plus (greedy : Bool) (p : Pattern) : Pattern := loop greedy p p

def many (p : Pattern) : Pattern := star true p

def few (p : Pattern) : Pattern := star false p

def many1 (p : Pattern) : Pattern := plus true p

def maybe (p : Pattern) : Pattern := optional true p

/-- `p` at most `n` times; each further time depends on the one before. -/
def upTo (greedy : Bool) (p : Pattern) : Nat → Pattern
  | 0 => empty
  | n + 1 => optional greedy (seq p (upTo greedy p n))

/-- One of several words, not followed by a further word character. -/
def keyword (ws : List String) : Pattern := seq (alts (ws.map lit)) wordBoundary

def letterOf (s : String) : Pattern :=
  let members := s.toList
  one fun c => members.contains c.toLower

end Pattern
end HybridTemplate
