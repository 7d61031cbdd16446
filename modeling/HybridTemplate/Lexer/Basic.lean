import HybridTemplate.Pattern.Matcher
import HybridTemplate.Text.Utf8
import HybridTemplate.Token

set_option autoImplicit false

/-! A lexer has named states, each a list of rules. At every place the first rule of the current
state that matches decides: its action cuts the matched text into pieces and its transition moves
on the stack of states. Where no rule matches, one character is an error; an unmatched line end is
blank and takes the lexer back to its initial state. Every piece is noted as a token at the byte
at which it stands; neighbours of one category become one token. -/
namespace HybridTemplate

inductive Action where
  /-- The whole match is one piece. -/
  | token (category : Category)
  /-- The groups of the match are pieces; what lies between two groups belongs to the
  one before, what lies before the first group to the first category. -/
  | groups (categories : List Category)
deriving DecidableEq, Repr

inductive Transition where
  | stay
  | push (state : String)
  | pop
deriving DecidableEq, Repr

structure Rule where
  matcher : Matcher
  action : Action
  transition : Transition

namespace Rule

def token (pattern : Pattern) (category : Category) : Rule :=
  ⟨pattern.matcher, .token category, .stay⟩

def grouped (pattern : Pattern) (categories : List Category) : Rule :=
  ⟨pattern.matcher, .groups categories, .stay⟩

def push (pattern : Pattern) (category : Category) (state : String) : Rule :=
  ⟨pattern.matcher, .token category, .push state⟩

def pop (pattern : Pattern) (category : Category) : Rule :=
  ⟨pattern.matcher, .token category, .pop⟩

end Rule

def piece (whole : List Char) (first stop : Nat) (category : Category) : Token :=
  ⟨Text.byteLength (whole.take first), category,
    String.ofList ((whole.drop first).take (stop - first))⟩

/-- The pieces from `cursor` on: each group that begins at or behind the cursor gives
one, with the gap before it as a piece of the last category. -/
def groupPieces (whole : List Char) (group? : Nat → Option (Nat × Nat)) :
    List Category → (index cursor : Nat) → (last : Category) → List Token
  | [], _, cursor, last => [piece whole cursor whole.length last]
  | category :: rest, index, cursor, last =>
    match group? index with
    | none => groupPieces whole group? rest (index + 1) cursor last
    | some (first, stop) =>
      if first < cursor then groupPieces whole group? rest (index + 1) cursor last
      else
        piece whole cursor first last :: piece whole first stop category ::
          groupPieces whole group? rest (index + 1) stop category

namespace Action

def pieces (a : Action) (whole : List Char) (group? : Nat → Option (Nat × Nat)) : List Token :=
  match a with
  | token category => [piece whole 0 whole.length category]
  | groups categories => groupPieces whole group? categories 1 0 (categories.head?.getD .text)

end Action

namespace Transition

/-- The stack of states after the transition, the current state first; the last state
stays. -/
def apply (t : Transition) (stack : List String) : List String :=
  match t with
  | stay => stack
  | push state => state :: stack
  | pop => match stack with
    | _ :: below :: rest => below :: rest
    | stack => stack

end Transition

structure Lexer where
  states : List (String × List Rule)

namespace Lexer

def bare : Lexer := ⟨[]⟩

def rules (l : Lexer) (state : String) : List Rule := (l.states.lookup state).getD []

def withState (l : Lexer) (state : String) (rules : List Rule) : Lexer :=
  ⟨(state, rules) :: l.states⟩

def withRulesOf (l : Lexer) (state source : String) : Lexer :=
  l.withState state (l.rules state ++ l.rules source)

structure Step where
  pieces : List Token
  length : Nat
  stack : List String

/-- The first rule that matches. An empty match counts only where it leaves a state. -/
def firstMatch? (stack : List String) (rest : List Char) : List Rule → Option Step
  | [] => none
  | rule :: rules =>
    match rule.matcher.matchAt? rest with
    | none => firstMatch? stack rest rules
    | some m =>
      if m.length = 0 ∧ (rule.transition ≠ .pop ∨ stack.length ≤ 1) then
        firstMatch? stack rest rules
      else
        some ⟨rule.action.pieces (rest.take m.length) m.group?, m.length,
          rule.transition.apply stack⟩

def recovery (stack : List String) (c : Char) : Step :=
  if c = '\n' then
    ⟨[piece [c] 0 1 .whitespace], 1, stack.drop (stack.length - 1)⟩
  else
    ⟨[piece [c] 0 1 .error], 1, stack⟩

def step (l : Lexer) (stack : List String) (c : Char) (cs : List Char) : Step :=
  (firstMatch? stack (c :: cs) (l.rules (stack.headD "root"))).getD (recovery stack c)

theorem firstMatch?_advances {stack : List String} {rest : List Char} {rules : List Rule} {s : Step}
    (h : firstMatch? stack rest rules = some s) :
    0 < s.length ∨ s.length = 0 ∧ s.stack.length < stack.length := by
  induction rules with
  | nil => simp [firstMatch?] at h
  | cons rule rules ih =>
    rw [firstMatch?] at h
    split at h
    · exact ih h
    · rename_i m _
      split at h
      · exact ih h
      · rename_i counts
        cases h
        by_cases zero : m.length = 0
        · right
          have pops : rule.transition = .pop ∧ 1 < stack.length := by
            refine ⟨?_, ?_⟩
            · exact Decidable.byContradiction fun ne => counts ⟨zero, Or.inl ne⟩
            · exact Nat.lt_of_not_le fun le => counts ⟨zero, Or.inr le⟩
          refine ⟨zero, ?_⟩
          match stack, pops with
          | _ :: below :: rest, ⟨pop, _⟩ => simp [pop, Transition.apply]
          | [_], ⟨_, long⟩ => simp at long
          | [], ⟨_, long⟩ => simp at long
        · left
          exact Nat.pos_of_ne_zero zero

theorem step_advances (l : Lexer) (stack : List String) (c : Char) (cs : List Char) :
    0 < (l.step stack c cs).length ∨
      (l.step stack c cs).length = 0 ∧ (l.step stack c cs).stack.length < stack.length := by
  unfold step
  cases found : firstMatch? stack (c :: cs) (l.rules (stack.headD "root")) with
  | none => left; simp only [Option.getD_none, recovery]; split <;> exact Nat.one_pos
  | some s => exact firstMatch?_advances found

def pieces (l : Lexer) (stack : List String) (offset : Nat) : List Char → List Token
  | [] => []
  | c :: cs =>
    let s := l.step stack c cs
    s.pieces.map (·.shift offset) ++
      l.pieces s.stack (offset + Text.byteLength ((c :: cs).take s.length))
        ((c :: cs).drop s.length)
termination_by text => (text.length, stack.length)
decreasing_by
  rcases l.step_advances stack c cs with advances | ⟨stays, shorter⟩
  · apply Prod.Lex.left
    simp only [List.length_drop, List.length_cons]
    omega
  · rw [stays]
    exact Prod.Lex.right _ shorter

def tokensFrom (l : Lexer) (initial : String) (text : String) : List Token :=
  Token.coalesce (l.pieces [initial] 0 text.toList)

def tokens (l : Lexer) (text : String) : List Token := l.tokensFrom "root" text

end Lexer
end HybridTemplate
