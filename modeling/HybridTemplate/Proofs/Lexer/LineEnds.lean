import HybridTemplate.Highlight
import HybridTemplate.Proofs.Lexer.Loop
import HybridTemplate.Proofs.Lexer.Rules

set_option autoImplicit false

namespace HybridTemplate

def Transition.entered : Transition → List String
  | .push state => [state]
  | _ => []

namespace Lexer

open Pattern

def Unmatched (l : Lexer) (p : Standing) : Prop :=
  p.rest ≠ [] ∧ firstMatch? p.stack p.rest (l.rules (p.stack.headD "root")) = none

/-- The lexer goes back to its first state. -/
def Restarts (l : Lexer) (p : Standing) : Prop := l.Unmatched p ∧ p.rest.head? = some '\n'

theorem Unmatched.next? {l : Lexer} {p q : Standing} (h : l.Unmatched p)
    (moved : l.next? p = some q) :
    ∃ c cs, p.rest = c :: cs ∧ q.stack = (recovery p.stack c).stack := by
  obtain ⟨c, cs, rest, rfl⟩ := next?_eq_some moved
  have none := h.2
  rw [rest] at none
  exact ⟨c, cs, rest, by rw [step, none, Option.getD_none]⟩

def ReadsLineEnds (l : Lexer) (state : String) : Prop :=
  ∀ stack cs, firstMatch? stack ('\n' :: cs) (l.rules state) ≠ none

/-- Whether the states above `initial` are some of `inner`, and all of these read line ends. -/
structure Nests (l : Lexer) (initial : String) (inner : List String) : Prop where
  entered : ∀ state ∈ initial :: inner, ∀ rule ∈ l.rules state,
    ∀ next ∈ rule.transition.entered, next ∈ inner
  reads : ∀ state ∈ inner, l.ReadsLineEnds state

/-- A stack on which `initial` is the first state and some of `inner` are the others. -/
def Nested (initial : String) (inner stack : List String) : Prop :=
  ∃ above, stack = above ++ [initial] ∧ ∀ state ∈ above, state ∈ inner

section

variable {l : Lexer} {initial : String} {inner stack : List String}

theorem Nested.head (h : Nested initial inner stack) : stack.headD "root" ∈ initial :: inner := by
  obtain ⟨above, rfl, known⟩ := h
  cases above with
  | nil => exact List.mem_cons_self
  | cons state above => exact List.mem_cons_of_mem initial (known state List.mem_cons_self)

theorem Nested.drop (h : Nested initial inner stack) :
    stack.drop (stack.length - 1) = [initial] := by
  obtain ⟨above, rfl, -⟩ := h
  rw [List.length_append, List.length_singleton, Nat.add_sub_cancel, List.drop_left]

theorem nested_singleton (initial : String) (inner : List String) :
    Nested initial inner [initial] :=
  ⟨[], rfl, fun _ => nofun⟩

theorem Nests.apply (h : Nests l initial inner) (nested : Nested initial inner stack) {rule : Rule}
    (hr : rule ∈ l.rules (stack.headD "root")) :
    Nested initial inner (rule.transition.apply stack) := by
  have entered := h.entered _ nested.head rule hr
  obtain ⟨above, rfl, known⟩ := nested
  cases transition : rule.transition with
  | stay => exact ⟨above, rfl, known⟩
  | push state =>
    rw [transition] at entered
    have inside := entered state (List.mem_singleton_self state)
    exact ⟨state :: above, rfl, List.forall_mem_cons.mpr ⟨inside, known⟩⟩
  | pop =>
    match above with
    | [] => exact ⟨[], rfl, known⟩
    | [state] => exact ⟨[], rfl, fun _ => nofun⟩
    | state :: below :: above =>
      exact ⟨below :: above, rfl, (List.forall_mem_cons.mp known).2⟩

theorem Nests.step (h : Nests l initial inner) (nested : Nested initial inner stack) (c : Char)
    (cs : List Char) : Nested initial inner (l.step stack c cs).stack := by
  rcases l.step_cases stack c cs with ⟨rule, hr, m, -, -, same⟩ | same
  · rw [same]
    exact h.apply nested hr
  · rw [same]
    rcases recovery_stack stack c with kept | reset
    · rw [kept]
      exact nested
    · rw [reset, nested.drop]
      exact nested_singleton initial inner

theorem Nests.run (h : Nests l initial inner) (text : List Char) :
    ∀ p ∈ l.run ⟨[initial], 0, text⟩, Nested initial inner p.stack := by
  refine l.run_keeps (motive := fun p => Nested initial inner p.stack) ?_
    (nested_singleton initial inner)
  intro p q moved nested
  obtain ⟨c, cs, -, rfl⟩ := next?_eq_some moved
  exact h.step nested c cs

theorem Nests.stack_of_restarts (h : Nests l initial inner) {p : Standing}
    (nested : Nested initial inner p.stack) (restarts : l.Restarts p) : p.stack = [initial] := by
  obtain ⟨⟨-, none⟩, head⟩ := restarts
  obtain ⟨cs, rest⟩ := List.head?_eq_some_iff.mp head
  obtain ⟨above, stack, known⟩ := nested
  cases above with
  | nil => exact stack
  | cons state above =>
    rw [rest, stack] at none
    exact absurd none (h.reads state (known state List.mem_cons_self) _ cs)

/-- No state is left where no rule matches. -/
theorem Nests.stack_of_unmatched (h : Nests l initial inner) {p q : Standing}
    (nested : Nested initial inner p.stack) (unmatched : l.Unmatched p)
    (moved : l.next? p = some q) : q.stack = p.stack := by
  obtain ⟨c, cs, rest, stack⟩ := unmatched.next? moved
  rw [stack]
  by_cases newline : c = '\n'
  · have restarts : l.Restarts p := ⟨unmatched, by rw [rest, newline]; rfl⟩
    have first := h.stack_of_restarts nested restarts
    rw [first, recovery, if_pos newline]
    rfl
  · rw [recovery, if_neg newline]

end

theorem readsLineEnds_of_split {l : Lexer} {state : String} {category : Category}
    (accepts : Char → Bool) (before after : List Rule)
    (split : l.rules state = before ++ .token (many1 (one accepts)) category :: after)
    (ok : accepts '\n' = true) : l.ReadsLineEnds state := by
  intro stack cs
  rw [split]
  refine firstMatch?_ne_none (List.mem_append_right before List.mem_cons_self)
    (matchAt?_many1_cons ok cs) ?_
  rw [List.takeWhile_cons_of_pos ok]
  exact Nat.succ_ne_zero _

theorem readsLineEnds_host : Host.lexer.ReadsLineEnds "root" :=
  readsLineEnds_of_split Text.isBlank [] Host.rules.tail rfl rfl

theorem readsLineEnds_script :
    ∀ state ∈ ["root", "template", "interp", "brace"], Script.lexer.ReadsLineEnds state := by
  simp only [List.forall_mem_cons]
  refine ⟨?_, ?_, ?_, ?_, fun _ => nofun⟩
  · exact readsLineEnds_of_split Text.isBlank [] _ rfl rfl
  · exact readsLineEnds_of_split _ (Script.templateRules.take 3) _ rfl rfl
  · exact readsLineEnds_of_split Text.isBlank Script.interpolationRules _ rfl rfl
  · exact readsLineEnds_of_split Text.isBlank Parts.braceRules _ rfl rfl

theorem readsLineEnds_formatString :
    ∀ state ∈ ["triple", "interp", "brace"], FormatString.lexer.ReadsLineEnds state := by
  simp only [List.forall_mem_cons]
  refine ⟨?_, ?_, ?_, fun _ => nofun⟩
  · exact readsLineEnds_of_split _ (FormatString.tripleRules.take 4) _ rfl rfl
  · exact readsLineEnds_of_split Text.isBlank FormatString.interpolationRules _ rfl rfl
  · exact readsLineEnds_of_split Text.isBlank Parts.braceRules _ rfl rfl

theorem firstMatch?_single (stack : List String) (cs : List Char) :
    firstMatch? stack ('\n' :: cs) (FormatString.lexer.rules "single") = none := by
  have silent : ∀ r ∈ FormatString.singleRules, Silent '\n' r :=
    silent_of_begins [
      seq (group 1 (Host.affix 3)) (group 2 (alts [lit "\"\"\"", lit "'''", char '"', char '\''])),
      alt (lit "\x7b\x7b") (lit "\x7d\x7d"), char '{', seq (char '\\') inLine,
      many1 (noneOf "\x7b\x7d\\\n\"'")] rfl (by decide)
  have passed : firstMatch? stack ('\n' :: cs) (FormatString.singleRules ++ []) = none :=
    firstMatch?_append_silent fun r hr => silent r hr cs
  rwa [List.append_nil] at passed

def lexerFor : SubLanguage → Lexer
  | .host => Host.lexer
  | .script => Script.lexer
  | .formatString => FormatString.lexer

def firstState : SubLanguage → String → String
  | .host, _ | .script, _ => "root"
  | .formatString, text => FormatString.startState text

def innerStates : SubLanguage → List String
  | .host => []
  | .script => ["template", "interp", "brace"]
  | .formatString => ["interp", "brace"]

theorem builtinLexers_eq (language : SubLanguage) :
    Highlight.builtinLexers language =
      some fun text => (lexerFor language).tokensFrom (firstState language text) text := by
  cases language <;> rfl

theorem startState_cases (text : String) :
    FormatString.startState text = "triple" ∨ FormatString.startState text = "single" := by
  unfold FormatString.startState
  split
  · exact .inl rfl
  · exact .inr rfl

theorem nests_builtin (language : SubLanguage) (text : String) :
    Nests (lexerFor language) (firstState language text) (innerStates language) := by
  cases language with
  | host =>
    have nests : Nests Host.lexer "root" [] := ⟨by decide +kernel, fun _ => nofun⟩
    exact nests
  | script =>
    have nests : Nests Script.lexer "root" ["template", "interp", "brace"] :=
      ⟨by decide +kernel, (List.forall_mem_cons.mp readsLineEnds_script).2⟩
    exact nests
  | formatString =>
    have reads := (List.forall_mem_cons.mp readsLineEnds_formatString).2
    rcases startState_cases text with state | state <;> rw [firstState, state]
    · exact ⟨by decide +kernel, reads⟩
    · exact ⟨by decide +kernel, reads⟩

/-- Only the state of format strings in single quotes leaves line ends unread. -/
theorem readsLineEnds_firstState {language : SubLanguage} {text : String}
    (other : firstState language text ≠ "single") :
    (lexerFor language).ReadsLineEnds (firstState language text) := by
  cases language with
  | host => exact readsLineEnds_host
  | script => exact readsLineEnds_script "root" List.mem_cons_self
  | formatString =>
    have triple := (startState_cases text).resolve_right other
    rw [firstState, triple]
    exact readsLineEnds_formatString "triple" List.mem_cons_self

/-- Where no rule matches a line end the stack has one state, that of a format string in single
quotes; so no state is ever left for want of a rule. -/
theorem restarts_abandon_nothing (language : SubLanguage) (text : String) :
    let l := lexerFor language
    let standings := l.run ⟨[firstState language text], 0, text.toList⟩
    (Highlight.builtinLexers language).map (· text) =
        some (Token.coalesce (standings.flatMap l.piecesAt)) ∧
      ∀ p ∈ standings,
        (l.Restarts p ↔ language = .formatString ∧ FormatString.startState text = "single" ∧
          p.stack = ["single"] ∧ p.rest.head? = some '\n') ∧
        ∀ q, l.next? p = some q → l.Unmatched p → q.stack = p.stack := by
  intro l standings
  have nests := nests_builtin language text
  refine ⟨?_, fun p hp => ⟨⟨fun restarts => ?_, ?_⟩, fun q moved unmatched => ?_⟩⟩
  · rw [builtinLexers_eq]
    exact congrArg (some ∘ Token.coalesce) (l.pieces_eq_run ⟨[firstState language text], 0, _⟩)
  · have stack := nests.stack_of_restarts (nests.run text.toList p hp) restarts
    obtain ⟨⟨-, none⟩, head⟩ := restarts
    have code : "root" ≠ "single" := by decide
    have single : firstState language text = "single" := by
      by_contra other
      obtain ⟨cs, rest⟩ := List.head?_eq_some_iff.mp head
      rw [rest, stack] at none
      exact readsLineEnds_firstState other _ cs none
    cases language with
    | host => exact absurd single code
    | script => exact absurd single code
    | formatString => exact ⟨rfl, single, by rw [stack, single], head⟩
  · rintro ⟨rfl, -, stack, head⟩
    obtain ⟨cs, rest⟩ := List.head?_eq_some_iff.mp head
    refine ⟨⟨by rw [rest]; exact List.cons_ne_nil _ _, ?_⟩, head⟩
    rw [rest, stack]
    exact firstMatch?_single _ cs
  · exact nests.stack_of_unmatched (nests.run text.toList p hp) unmatched moved

/-- A line end in an interpolation is read as code; behind it the literal is still open. -/
theorem restarts_abandon_nothing_behind_interpolation :
    let l := lexerFor .formatString
    let text := "'\x7b\n\x7d\n"
    let standings := l.run ⟨[firstState .formatString text], 0, text.toList⟩
    let p : Standing := ⟨["single"], 4, ['\n']⟩
    let q : Standing := ⟨["single"], 5, []⟩
    (p ∈ standings ∧ l.next? p = some q ∧ l.Unmatched p) ∧
      (Highlight.builtinLexers .formatString).map (· text) =
        some (Token.coalesce (standings.flatMap l.piecesAt)) ∧
      l.Restarts p ∧ q.stack = p.stack := by
  intro l text standings p q
  have single : FormatString.startState text = "single" := by decide +kernel
  let begin : Standing := ⟨[firstState .formatString text], 0, text.toList⟩
  let steps : List Standing := [⟨["single"], 1, text.toList.drop 1⟩,
    ⟨["interp", "single"], 2, text.toList.drop 2⟩,
    ⟨["interp", "single"], 3, text.toList.drop 3⟩, p, q]
  have run : l.run begin = begin :: steps :=
    l.run_eq_of_isChain (by decide +kernel) (by decide +kernel)
  have reached : p ∈ standings := by
    change p ∈ l.run begin
    rw [run]
    exact List.mem_cons_of_mem _ (List.mem_of_getElem? (i := 3) rfl)
  have moved : l.next? p = some q := by decide +kernel
  have unmatched : l.Unmatched p := ⟨List.cons_ne_nil _ _, firstMatch?_single _ []⟩
  obtain ⟨tokens, all⟩ := restarts_abandon_nothing .formatString text
  obtain ⟨restarts, kept⟩ := all p reached
  exact ⟨⟨reached, moved, unmatched⟩, tokens, restarts.mpr ⟨rfl, single, rfl, rfl⟩,
    kept q moved unmatched⟩

end Lexer
end HybridTemplate
