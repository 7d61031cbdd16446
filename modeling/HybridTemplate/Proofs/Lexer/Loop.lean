import HybridTemplate.Proofs.Lexer.Coverage

set_option autoImplicit false

namespace HybridTemplate

namespace Transition

theorem getLast?_apply (t : Transition) {stack : List String} (filled : stack ≠ []) :
    (t.apply stack).getLast? = stack.getLast? := by
  cases t with
  | stay => rfl
  | push state => exact List.getLast?_cons_of_ne_nil filled
  | pop =>
    match stack with
    | [_] => rfl
    | top :: below :: rest =>
      exact (List.getLast?_cons_of_ne_nil (List.cons_ne_nil below rest)).symm

theorem length_apply_le (t : Transition) (stack : List String) :
    (t.apply stack).length ≤ stack.length + 1 := by
  fun_cases t.apply stack <;> simp

theorem pop_apply {stack : List String} (deep : 1 < stack.length) :
    pop.apply stack = stack.tail ∧ stack.tail ≠ [] := by
  match stack, deep with
  | _ :: below :: rest, _ => exact ⟨rfl, List.cons_ne_nil below rest⟩

end Transition

namespace Lexer

/-- A match that counts: it is not empty, or it leaves a state above the first one. -/
def Counts (stack : List String) (rule : Rule) (m : Pattern.Match) : Prop :=
  0 < m.length ∨ rule.transition = .pop ∧ 1 < stack.length

def Rule.taken (rule : Rule) (stack : List String) (rest : List Char) (m : Pattern.Match) : Step :=
  ⟨rule.action.pieces (rest.take m.length) m.group?, m.length, rule.transition.apply stack⟩

theorem firstMatch?_cases {stack : List String} {rest : List Char} {rules : List Rule} {s : Step}
    (h : firstMatch? stack rest rules = some s) :
    ∃ rule ∈ rules, ∃ m, rule.matcher.matchAt? rest = some m ∧ Counts stack rule m ∧
      s = Rule.taken rule stack rest m := by
  induction rules with
  | nil => simp [firstMatch?] at h
  | cons rule rules ih =>
    have later (k : firstMatch? stack rest rules = some s) :
        ∃ r ∈ rule :: rules, ∃ m, r.matcher.matchAt? rest = some m ∧ Counts stack r m ∧
          s = Rule.taken r stack rest m := by
      obtain ⟨r, hr, found⟩ := ih k
      exact ⟨r, List.mem_cons_of_mem rule hr, found⟩
    rw [firstMatch?] at h
    split at h
    · exact later h
    · rename_i m found
      split at h
      · exact later h
      · rename_i counts
        cases h
        refine ⟨rule, List.mem_cons_self, m, found, ?_, rfl⟩
        rcases Nat.eq_zero_or_pos m.length with void | filled
        · right
          constructor
          · exact Decidable.byContradiction fun other => counts ⟨void, .inl other⟩
          · exact Nat.lt_of_not_le fun low => counts ⟨void, .inr low⟩
        · exact .inl filled

/-- All that a step can do: a rule of the current state matches, or one character is passed
without a rule. -/
theorem step_cases (l : Lexer) (stack : List String) (c : Char) (cs : List Char) :
    (∃ rule ∈ l.rules (stack.headD "root"), ∃ m, rule.matcher.matchAt? (c :: cs) = some m ∧
        Counts stack rule m ∧ l.step stack c cs = Rule.taken rule stack (c :: cs) m) ∨
      l.step stack c cs = recovery stack c := by
  unfold step
  cases found : firstMatch? stack (c :: cs) (l.rules (stack.headD "root")) with
  | none => exact .inr rfl
  | some s => exact .inl (firstMatch?_cases found)

theorem length_recovery (stack : List String) (c : Char) : (recovery stack c).length = 1 := by
  unfold recovery
  split <;> rfl

theorem recovery_stack (stack : List String) (c : Char) :
    (recovery stack c).stack = stack ∨
      (recovery stack c).stack = stack.drop (stack.length - 1) := by
  unfold recovery
  split
  · exact .inr rfl
  · exact .inl rfl

/-- A step keeps the first state below all others. -/
theorem getLast?_step (l : Lexer) {stack : List String} (filled : stack ≠ []) (c : Char)
    (cs : List Char) : (l.step stack c cs).stack.getLast? = stack.getLast? := by
  rcases l.step_cases stack c cs with ⟨rule, -, m, -, -, same⟩ | same
  · rw [same]
    exact rule.transition.getLast?_apply filled
  · rw [same]
    rcases recovery_stack stack c with kept | reset
    · rw [kept]
    · have some_left : ¬ stack.length ≤ stack.length - 1 := by
        have := List.length_pos_iff.mpr filled
        omega
      rw [reset, List.getLast?_drop, if_neg some_left]

theorem length_stack_step_le (l : Lexer) (stack : List String) (c : Char) (cs : List Char) :
    (l.step stack c cs).stack.length ≤ stack.length + 1 := by
  rcases l.step_cases stack c cs with ⟨rule, -, m, -, -, same⟩ | same
  · rw [same]
    exact rule.transition.length_apply_le stack
  · rw [same]
    rcases recovery_stack stack c with kept | reset
    · rw [kept]
      exact Nat.le_succ _
    · rw [reset, List.length_drop]
      omega

theorem length_step_le (l : Lexer) (stack : List String) (c : Char) (cs : List Char) :
    (l.step stack c cs).length ≤ (c :: cs).length := by
  rcases l.step_cases stack c cs with ⟨rule, -, m, found, -, same⟩ | same
  · rw [same]
    exact (rule.matcher.within _ m found).1
  · rw [same, length_recovery]
    exact Nat.succ_pos _

/-- A step that passes nothing leaves one state, and another one remains. -/
theorem step_passes_or_leaves (l : Lexer) (stack : List String) (c : Char) (cs : List Char) :
    0 < (l.step stack c cs).length ∨
      (l.step stack c cs).length = 0 ∧ (l.step stack c cs).stack = stack.tail ∧
        stack.tail ≠ [] := by
  rcases l.step_cases stack c cs with ⟨rule, -, m, -, counts, same⟩ | same
  · rw [same]
    rcases Nat.eq_zero_or_pos m.length with void | filled
    · obtain ⟨pops, deep⟩ := counts.resolve_left (Nat.not_lt.mpr (Nat.le_of_eq void))
      right
      rw [Rule.taken, pops]
      exact ⟨void, Transition.pop_apply deep⟩
    · exact .inl filled
  · rw [same, length_recovery]
    exact .inl Nat.one_pos

/-- Where the loop stands between two steps: on which states, before which byte of the text and
in front of which characters. -/
structure Standing where
  stack : List String
  offset : Nat
  rest : List Char
deriving DecidableEq, Repr

namespace Standing

/-- From one standing to the next the cursor passes at least one character, or it stays and a
state is left. -/
def Moves (p q : Standing) : Prop :=
  (∃ passed, passed ≠ [] ∧ p.rest = passed ++ q.rest ∧
      q.offset = p.offset + Text.byteLength passed ∧ q.stack.length ≤ p.stack.length + 1) ∨
    q.rest = p.rest ∧ q.offset = p.offset ∧ q.stack = p.stack.tail ∧ q.stack ≠ []

def weight (p : Standing) : Nat := 2 * p.rest.length + p.stack.length

theorem Moves.weight_lt {p q : Standing} (h : p.Moves q) : q.weight < p.weight := by
  unfold weight
  rcases h with ⟨passed, some_passed, split, -, stack⟩ | ⟨stays, -, left, remains⟩
  · have := List.length_pos_iff.mpr some_passed
    rw [split, List.length_append]
    omega
  · have := List.length_pos_iff.mpr remains
    rw [left, List.length_tail] at *
    rw [stays]
    omega

/-- The standing is in `text`, on a stack whose first state is `initial`. -/
structure Within (p : Standing) (initial text : String) : Prop where
  bottom : p.stack.getLast? = some initial
  split : ∃ before, text = before ++ String.ofList p.rest ∧ p.offset = before.utf8ByteSize

theorem Within.isValid {p : Standing} {initial text : String} (h : p.Within initial text) :
    String.Pos.Raw.IsValid text ⟨p.offset⟩ := by
  obtain ⟨before, split, offset⟩ := h.split
  rw [String.Pos.Raw.isValid_iff_exists_append]
  refine ⟨before, String.ofList p.rest, split, ?_⟩
  rw [offset]
  rfl

theorem Within.filled {p : Standing} {initial text : String} (h : p.Within initial text) :
    p.stack ≠ [] := by
  rintro void
  have bottom := h.bottom
  rw [void] at bottom
  cases bottom

end Standing

open Standing

def next? (l : Lexer) (p : Standing) : Option Standing :=
  match p.rest with
  | [] => none
  | c :: cs =>
    let s := l.step p.stack c cs
    some ⟨s.stack, p.offset + Text.byteLength ((c :: cs).take s.length), (c :: cs).drop s.length⟩

def piecesAt (l : Lexer) (p : Standing) : List Token :=
  match p.rest with
  | [] => []
  | c :: cs => (l.step p.stack c cs).pieces.map (·.shift p.offset)

theorem next?_eq_none {l : Lexer} {p : Standing} : l.next? p = none ↔ p.rest = [] := by
  unfold next?
  split <;> simp [*]

/-- All that the next standing is known from. -/
theorem next?_eq_some {l : Lexer} {p q : Standing} (h : l.next? p = some q) :
    ∃ c cs, p.rest = c :: cs ∧
      q = ⟨(l.step p.stack c cs).stack,
        p.offset + Text.byteLength ((c :: cs).take (l.step p.stack c cs).length),
        (c :: cs).drop (l.step p.stack c cs).length⟩ := by
  unfold next? at h
  split at h
  · cases h
  · rename_i c cs rest
    exact ⟨c, cs, rest, (Option.some.inj h).symm⟩

theorem next?_moves {l : Lexer} {p q : Standing} (h : l.next? p = some q) : p.Moves q := by
  obtain ⟨c, cs, rest, rfl⟩ := next?_eq_some h
  rcases l.step_passes_or_leaves p.stack c cs with filled | ⟨void, left, remains⟩
  · refine .inl ⟨(c :: cs).take (l.step p.stack c cs).length, ?_, ?_, rfl,
      l.length_stack_step_le p.stack c cs⟩
    · refine List.ne_nil_of_length_pos ?_
      rw [List.length_take, List.length_cons]
      omega
    · rw [rest]
      exact (List.take_append_drop _ _).symm
  · right
    dsimp only
    rw [void, rest, left]
    exact ⟨rfl, rfl, rfl, remains⟩

theorem Standing.Within.next {l : Lexer} {p q : Standing} {initial text : String}
    (within : p.Within initial text) (h : l.next? p = some q) : q.Within initial text := by
  constructor
  · obtain ⟨c, cs, -, rfl⟩ := next?_eq_some h
    exact (l.getLast?_step within.filled c cs).trans within.bottom
  · obtain ⟨before, split, offset⟩ := within.split
    rcases next?_moves h with ⟨passed, -, more, later, -⟩ | ⟨stays, same, -, -⟩
    · refine ⟨before ++ String.ofList passed, ?_, ?_⟩
      · rw [split, more, String.ofList_append, String.append_assoc]
      · rw [later, offset, String.utf8ByteSize_append, byteSize_ofList]
    · exact ⟨before, stays ▸ split, same.trans offset⟩

def run (l : Lexer) (p : Standing) : List Standing :=
  p :: match _h : l.next? p with
    | none => []
    | some q => l.run q
termination_by p.weight
decreasing_by exact (next?_moves _h).weight_lt

theorem run_of_end {l : Lexer} {p : Standing} (h : l.next? p = none) : l.run p = [p] := by
  rw [run]
  split
  · rfl
  · simp_all

theorem run_of_next {l : Lexer} {p q : Standing} (h : l.next? p = some q) :
    l.run p = p :: l.run q := by
  rw [run]
  split <;> simp_all

/-- Along the standings of a loop: the last one first, then back over each step. -/
theorem run_induction (l : Lexer) {motive : Standing → Prop}
    (ends : ∀ p, l.next? p = none → motive p)
    (next : ∀ p q, l.next? p = some q → motive q → motive p) (p : Standing) : motive p := by
  fun_induction run l p with
  | case1 p ih =>
    cases h : l.next? p with
    | none => exact ends p h
    | some q => exact next p q h (ih q h)

theorem head?_run (l : Lexer) (p : Standing) : (l.run p).head? = some p := by
  rw [run]
  rfl

theorem isChain_run (l : Lexer) (p : Standing) :
    (l.run p).IsChain fun q r => l.next? q = some r ∧ q.Moves r := by
  induction p using l.run_induction with
  | ends p h =>
    rw [run_of_end h]
    exact .singleton p
  | next p q h ih =>
    rw [run_of_next h, List.isChain_cons]
    refine ⟨fun r first => ?_, ih⟩
    obtain rfl : q = r := by
      rw [head?_run] at first
      exact Option.some.inj first
    exact ⟨h, next?_moves h⟩

theorem run_ends (l : Lexer) (p : Standing) :
    ∃ last, (l.run p).getLast? = some last ∧ last.rest = [] := by
  induction p using l.run_induction with
  | ends p h => exact ⟨p, by rw [run_of_end h]; rfl, next?_eq_none.mp h⟩
  | next p q h ih =>
    obtain ⟨last, found, void⟩ := ih
    refine ⟨last, ?_, void⟩
    rw [run_of_next h, List.getLast?_cons, found]
    rfl

/-- The standings are known from one end to the other: no other steps lead there. -/
theorem run_eq_of_isChain (l : Lexer) {p : Standing} {ps : List Standing}
    (chain : (p :: ps).IsChain fun q r => l.next? q = some r)
    (ends : (p :: ps).getLast?.bind l.next? = none) : l.run p = p :: ps := by
  induction ps generalizing p with
  | nil => exact run_of_end ends
  | cons q ps ih =>
    obtain ⟨first, later⟩ := List.isChain_cons_cons.mp chain
    rw [List.getLast?_cons_cons] at ends
    rw [run_of_next first, ih later ends]

/-- What holds where the loop begins and is kept by each step holds wherever it stands. -/
theorem run_keeps (l : Lexer) {motive : Standing → Prop}
    (kept : ∀ p q, l.next? p = some q → motive p → motive q) {p : Standing} (here : motive p) :
    ∀ q ∈ l.run p, motive q := by
  induction p using l.run_induction with
  | ends p h => simpa [run_of_end h] using here
  | next p q h ih =>
    rw [run_of_next h]
    exact List.forall_mem_cons.mpr ⟨here, ih (kept p q h here)⟩

/-- Each step takes weight from the loop, and the first state keeps some to the end. -/
theorem length_run_le (l : Lexer) {p : Standing} {initial text : String}
    (within : p.Within initial text) : (l.run p).length ≤ p.weight := by
  induction p using l.run_induction with
  | ends p h =>
    have := List.length_pos_iff.mpr within.filled
    rw [run_of_end h, Standing.weight, List.length_singleton]
    omega
  | next p q h ih =>
    have shorter := ih (within.next h)
    have lighter := (next?_moves h).weight_lt
    rw [run_of_next h, List.length_cons]
    omega

theorem pieces_eq_run (l : Lexer) (p : Standing) :
    l.pieces p.stack p.offset p.rest = (l.run p).flatMap l.piecesAt := by
  induction p using l.run_induction with
  | ends p h =>
    have void := next?_eq_none.mp h
    rw [run_of_end h, List.flatMap_singleton, piecesAt, void, pieces]
  | next p q h ih =>
    rw [run_of_next h, List.flatMap_cons, ← ih]
    obtain ⟨c, cs, rest, rfl⟩ := next?_eq_some h
    rw [piecesAt, rest, pieces]

/-- The tokens of a text come from a loop that ends: each step passes at least one character or
leaves a state, the first state stays below all others, and the cursor stands between two
characters of the text. -/
theorem tokensFrom_loop (l : Lexer) (initial text : String) :
    let standings := l.run ⟨[initial], 0, text.toList⟩
    standings.head? = some ⟨[initial], 0, text.toList⟩ ∧
      (standings.IsChain fun p q => l.next? p = some q ∧ p.Moves q) ∧
      (∃ last, standings.getLast? = some last ∧ l.next? last = none ∧ last.rest = []) ∧
      standings.length ≤ 2 * text.length + 1 ∧
      (∀ p ∈ standings, p.Within initial text ∧ String.Pos.Raw.IsValid text ⟨p.offset⟩) ∧
      l.tokensFrom initial text = Token.coalesce (standings.flatMap l.piecesAt) := by
  intro standings
  have within : Within ⟨[initial], 0, text.toList⟩ initial text :=
    ⟨rfl, "", by simp, rfl⟩
  refine ⟨l.head?_run _, l.isChain_run _, ?_, ?_, ?_, ?_⟩
  · obtain ⟨last, found, void⟩ := l.run_ends ⟨[initial], 0, text.toList⟩
    exact ⟨last, found, next?_eq_none.mpr void, void⟩
  · exact l.length_run_le within
  · intro p hp
    have kept := l.run_keeps (fun q r moved h => Within.next h moved) within p hp
    exact ⟨kept, kept.isValid⟩
  · exact congrArg Token.coalesce (l.pieces_eq_run ⟨[initial], 0, text.toList⟩)

end Lexer
end HybridTemplate
