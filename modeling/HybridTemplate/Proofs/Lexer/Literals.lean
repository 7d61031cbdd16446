import HybridTemplate.Lexer.FormatString
import HybridTemplate.Proofs.Lexer.Ahead
import HybridTemplate.Proofs.Lexer.Rules

set_option autoImplicit false

namespace HybridTemplate.Lexer.FormatString

open Pattern Host

structure Leads (ls : List Char) : Prop where
  short : ls.length ≤ 3
  letters : ∀ c ∈ ls, isAffix c = true

theorem leads_nil : Leads [] := ⟨Nat.zero_le 3, fun _ => nofun⟩

def anyQuotes : Pattern := alts [lit "\"\"\"", lit "'''", char '"', char '\'']

theorem matcher_quotes :
    quotes.matcher = (seq (group 1 (affix 3)) (group 2 anyQuotes)).matcher := rfl

def quoteCount (q : Char) (cs : List Char) : Nat := if cs.take 2 = [q, q] then 3 else 1

variable {q : Char} {ls cs : List Char}

theorem head?_reach_anyQuotes (quote : IsQuote q) {c : Cursor} (rest : c.rest = q :: cs) :
    ∃ d, (reach anyQuotes c).head? = some d ∧ d.pos = c.pos + quoteCount q cs ∧
      d.groups = c.groups := by
  by_cases three : cs.take 2 = [q, q]
  · obtain ⟨ds, rfl⟩ := exists_of_take_two three
    rcases quote with rfl | rfl <;>
      simp [anyQuotes, Pattern.alts, Pattern.lit, Pattern.seqs, Pattern.char, reach, Cursor.step,
        rest, distinct, quoteCount]
  · have stuck {x : Char} {s : String} (chars : s.toList = [x, x, x]) :
        reach (.lit s) c = [] := by
      refine List.eq_nil_iff_forall_not_mem.mpr fun d hd => three ?_
      have behind := rest_of_mem_lit hd
      rw [chars] at behind
      obtain ⟨rfl, rfl⟩ := List.cons.inj (rest.symm.trans behind)
      rfl
    have double : reach (.lit "\"\"\"") c = [] := stuck rfl
    have single : reach (.lit "'''") c = [] := stuck rfl
    have one : reach anyQuotes c = reach (.char '"') c ++ reach (.char '\'') c := by
      simp only [anyQuotes, Pattern.alts, reach, double, single, List.nil_append]
    rw [one, quoteCount, if_neg three]
    rcases quote with rfl | rfl <;> simp [Pattern.char, reach, Cursor.step, rest]

theorem matchAt?_quotes (quote : IsQuote q) (leads : Leads ls) (cs : List Char) :
    ∃ m, quotes.matcher.matchAt? (ls ++ q :: cs) = some m ∧
      m.length = ls.length + quoteCount q cs ∧ m.group? 1 = some (0, ls.length) ∧
      m.group? 2 = some (ls.length, m.length) := by
  have stops : ∀ c, (q :: cs).head? = some c → isAffix c = false := by
    rintro c first
    obtain rfl := Option.some.inj first
    exact quote.ne.2.2
  obtain ⟨d, letters, pos, rest, groups⟩ := head?_reach_upTo leads.short leads.letters stops
    (c := .atStart (ls ++ q :: cs) false) rfl
  obtain ⟨e, found, stop, same⟩ :=
    head?_reach_anyQuotes quote (show (d.note 1 0).rest = q :: cs from rest)
  have lead : (reach (group 1 (affix 3)) (.atStart (ls ++ q :: cs) false)).head? =
      some (d.note 1 0) := by
    rw [reach, List.head?_map]
    exact congrArg (Option.map _) letters
  have whole : (reach (group 2 anyQuotes) (d.note 1 0)).head? = some (e.note 2 d.pos) := by
    rw [reach, List.head?_map, found]
    rfl
  have start : (Cursor.atStart (ls ++ q :: cs) false).pos = 0 := rfl
  rw [start, Nat.zero_add] at pos
  have notes : e.groups = (1, 0, ls.length) :: [] := by
    rw [same, Cursor.note, groups, pos]
    rfl
  have stop : e.pos = ls.length + quoteCount q cs := by
    rw [stop, ← pos]
    rfl
  refine ⟨⟨e.pos, (2, d.pos, e.pos) :: e.groups⟩, ?_, stop, ?_, ?_⟩
  · rw [matcher_quotes, matcher_matchAt?]
    refine (matchAt?_eq (by decide) _).trans ?_
    rw [head?_reach_seq, findSome?_of_head? lead whole]
    rfl
  · rw [notes]
    rfl
  · rw [← pos]
    rfl

def Textual (state : String) : Prop := state = "single" ∨ state = "triple"

variable {state : String}

theorem textual_startState (text : String) : Textual (startState text) := by
  unfold startState
  split
  · exact .inr rfl
  · exact .inl rfl

/-- The quotes come first in both states. -/
theorem rules_of_textual (textual : Textual state) :
    lexer.rules state = quotes :: (lexer.rules state).tail := by
  rcases textual with rfl | rfl <;> rfl

theorem bytewise_groupPieces (ls qs : List Char) {group? : Nat → Option (Nat × Nat)}
    (first : group? 1 = some (0, ls.length))
    (second : group? 2 = some (ls.length, (ls ++ qs).length)) (a b : Category) :
    Token.bytewise (groupPieces (ls ++ qs) group? [a, b] 1 0 a) =
      List.replicate (Text.byteLength ls) a ++ List.replicate (Text.byteLength qs) b := by
  simp [groupPieces, first, second, piece, byteSize_ofList]

theorem step_quotes (textual : Textual state) {c : Char} {cs : List Char} {m : Match}
    (found : quotes.matcher.matchAt? (c :: cs) = some m) (filled : m.length ≠ 0) :
    lexer.step [state] c cs = Rule.taken quotes [state] (c :: cs) m := by
  rw [step, List.headD_cons, rules_of_textual textual, firstMatch?, found]
  dsimp only
  rw [if_neg fun void => filled void.1]
  rfl

theorem categories_quotes (textual : Textual state) (quote : IsQuote q) (leads : Leads ls)
    (cs : List Char) :
    lexer.categories [state] (ls ++ q :: cs) =
      List.replicate (Text.byteLength ls) .stringAffix ++
        (List.replicate (quoteCount q cs) .string ++
          lexer.categories [state] (cs.drop (quoteCount q cs - 1))) := by
  obtain ⟨m, found, length, first, second⟩ := matchAt?_quotes quote leads cs
  obtain ⟨qs, split, count, bytes⟩ : ∃ qs, q :: cs = qs ++ cs.drop (quoteCount q cs - 1) ∧
      qs.length = quoteCount q cs ∧ Text.byteLength qs = quoteCount q cs := by
    have byte : q.utf8Size = 1 := by rcases quote with rfl | rfl <;> rfl
    unfold quoteCount
    split
    · rename_i three
      obtain ⟨ds, rfl⟩ := exists_of_take_two three
      exact ⟨[q, q, q], rfl, rfl, by simp [Text.byteLength, byte]⟩
    · exact ⟨[q], rfl, rfl, by simp [Text.byteLength, byte]⟩
  obtain ⟨c, rest, cons⟩ := List.exists_cons_of_ne_nil (l := ls ++ q :: cs) (by simp)
  have passed : (c :: rest).take m.length = ls ++ qs := by
    rw [← cons, split, length, ← count, ← List.append_assoc, ← List.length_append, List.take_left]
  have left : (c :: rest).drop m.length = cs.drop (quoteCount q cs - 1) := by
    rw [← cons, split, length, ← count, ← List.append_assoc, ← List.length_append, List.drop_left]
  have long : m.length ≠ 0 := by
    rw [length, quoteCount]
    split <;> omega
  rw [length, ← count, ← List.length_append] at second
  rw [cons, categories_cons, step_quotes textual (cons ▸ found) long, Rule.taken]
  dsimp only
  rw [passed, left, ← List.append_assoc, ← bytes, ← bytewise_groupPieces ls qs first second]
  rfl

theorem categories_quote (textual : Textual state) (quote : IsQuote q) {ls : List Char}
    (leads : Leads ls) (cs : List Char) :
    lexer.categories [state] (ls ++ q :: cs) =
      List.replicate (Text.byteLength ls) .stringAffix ++
        .string :: lexer.categories [state] cs := by
  rw [categories_quotes textual quote leads]
  congr 1
  by_cases three : cs.take 2 = [q, q]
  · obtain ⟨ds, rfl⟩ := exists_of_take_two three
    have second : lexer.categories [state] (q :: q :: ds) = _ :=
      categories_quote textual quote leads_nil (q :: ds)
    have third : lexer.categories [state] (q :: ds) = _ :=
      categories_quote textual quote leads_nil ds
    rw [second, third, quoteCount, if_pos three]
    rfl
  · rw [quoteCount, if_neg three]
    rfl
termination_by cs.length

/-- The text ends with a quote and is more than one or two quotes behind a prefix. -/
def Beyond (cs : List Char) : Prop :=
  Quoted cs ∧ ∀ ls q, Leads ls → IsQuote q → cs ≠ ls ++ [q] ∧ cs ≠ ls ++ [q, q]

theorem steady_quotes : Steady Beyond quotes := by
  let After (cs : List Char) : Prop := cs ≠ [] ∧ ∀ q, IsQuote q → ∀ ds, cs = q :: ds →
    ds ≠ [] ∧ ∀ es, ds = q :: es → es ≠ []
  have three {q : Char} (quote : IsQuote q) {s : String} (chars : s.toList = [q, q, q]) :
      Local After (fun _ => True) (.lit s) :=
    (local_quotes chars).mono fun cs after => ⟨after.1, fun ds cons =>
      ⟨(after.2 q quote ds cons).1, fun es cons' =>
        ⟨(after.2 q quote ds cons).2 es cons', fun _ _ => trivial⟩⟩⟩
  have one (q : Char) : Local After (fun _ => True) (.char q) :=
    (Local.char q).mono fun cs after => ⟨after.1, fun _ _ => trivial⟩
  have either : Local After (fun _ => True) anyQuotes :=
    .alt (three (.inl rfl) rfl) (.alt (three (.inr rfl) rfl) (.alt (one '"') (one '\'')))
  have reading := ((Local.upTo isAffix 3).group 1).seq (either.group 2)
  refine (Steady.of_first matcher_quotes reading.first (by decide)).mono ?_
  rintro cs ⟨quoted, beyond⟩ front back short letters rfl
  refine ⟨quoted.behind letters, quoted.behind letters, fun q quote ds cons => ?_⟩
  obtain ⟨not_one, not_two⟩ := beyond front q ⟨short, letters⟩ quote
  refine ⟨?_, ?_⟩
  · rintro rfl
    exact not_one (by rw [cons])
  · rintro es rfl rfl
    exact not_two (by rw [cons])

theorem steady_escape {p : Pattern} (h : Local (· ≠ []) (fun _ => True) p)
    (fixed : (seq (char '\\') p).dependsOnDelay = false) {rule : Rule}
    (same : rule.matcher = (seq (char '\\') p).matcher) : Steady Quoted rule := by
  have reading := Local.seq (Local.char '\\') h
  refine (Steady.of_first same reading.first fixed).mono fun cs quoted => ⟨quoted.ne_nil, ?_⟩
  rintro ds rfl rfl
  obtain ⟨q, quote, last⟩ := quoted
  cases last
  exact quote.ne.1 rfl

theorem steady_textual (textual : Textual state) :
    ∀ rule ∈ (lexer.rules state).tail, Steady Quoted rule := by
  have inLine : Local (· ≠ []) (fun _ => True) inLine := .noneOf (by simp) fun _ _ _ _ => trivial
  have anyChar : Local (· ≠ []) (fun _ => True) anyChar := .one (by simp) fun _ _ _ _ => trivial
  rcases textual with rfl | rfl
  · have rules : (lexer.rules "single").tail = singleRules.tail := rfl
    rw [rules]
    simp only [singleRules, List.tail_cons, List.forall_mem_cons]
    exact ⟨.of_avoids rfl (by decide), .of_avoids rfl (by decide), steady_escape inLine rfl rfl,
      .of_avoids rfl (by decide), fun _ => nofun⟩
  · have rules : (lexer.rules "triple").tail = tripleRules.tail := rfl
    rw [rules]
    simp only [tripleRules, List.tail_cons, List.forall_mem_cons]
    exact ⟨.of_avoids rfl (by decide), .of_avoids rfl (by decide), steady_escape anyChar rfl rfl,
      .of_avoids rfl (by decide), fun _ => nofun⟩

def Inner (state : String) : Prop := state = "interp" ∨ state = "brace"

theorem steady_inner (inner : Inner state) : ∀ rule ∈ lexer.rules state, Steady Closed rule := by
  have braces : ∀ rule ∈ interpolationRules ++ Parts.braceRules, Steady Quoted rule := by
    simp only [interpolationRules, Parts.braceRules, List.cons_append, List.nil_append,
      List.forall_mem_cons]
    exact ⟨.of_avoids rfl (by decide), .of_avoids rfl (by decide), .of_avoids rfl (by decide),
      .of_avoids rfl (by decide), .of_avoids rfl (by decide), fun _ => nofun⟩
  obtain ⟨own, nested⟩ := List.forall_mem_append.mp braces
  have rules : lexer.rules state = interpolationRules ++ Host.rules ∨
      lexer.rules state = Parts.braceRules ++ Host.rules := by
    rcases inner with rfl | rfl
    · exact .inl rfl
    · exact .inr rfl
  rcases rules with rules | rules
  · rw [rules]
    exact List.forall_mem_append.mpr
      ⟨fun rule hr => (own rule hr).mono fun _ => Closed.quoted, steady_rules⟩
  · rw [rules]
    exact List.forall_mem_append.mpr
      ⟨fun rule hr => (nested rule hr).mono fun _ => Closed.quoted, steady_rules⟩

/-- Above the state of the text there are only states of interpolations. -/
def Above (state : String) (stack : List String) : Prop :=
  ∃ deep, stack = deep ++ [state] ∧ ∀ s ∈ deep, Inner s

theorem Above.head {stack : List String} (above : Above state stack) :
    stack = [state] ∨ 1 < stack.length ∧ Inner (stack.headD "root") := by
  obtain ⟨deep, rfl, inner⟩ := above
  cases deep with
  | nil => exact .inl rfl
  | cons s deep => exact .inr ⟨by simp, inner s List.mem_cons_self⟩

theorem transition_of_mem (known : Textual state ∨ Inner state) :
    ∀ rule ∈ lexer.rules state,
      rule.transition ∈ [.stay, .pop, .push "interp", .push "brace"] := by
  rcases known with (rfl | rfl) | rfl | rfl <;> decide +kernel

theorem Above.apply {stack : List String} (above : Above state stack) {t : Transition}
    (ht : t ∈ [.stay, .pop, .push "interp", .push "brace"]) : Above state (t.apply stack) := by
  obtain ⟨deep, rfl, inner⟩ := above
  simp only [List.mem_cons, List.not_mem_nil, or_false] at ht
  rcases ht with rfl | rfl | rfl | rfl
  · exact ⟨deep, rfl, inner⟩
  · match deep with
    | [] => exact ⟨[], rfl, inner⟩
    | [_] => exact ⟨[], rfl, fun _ => nofun⟩
    | _ :: s :: deep => exact ⟨s :: deep, rfl, (List.forall_mem_cons.mp inner).2⟩
  · exact ⟨"interp" :: deep, rfl, List.forall_mem_cons.mpr ⟨.inl rfl, inner⟩⟩
  · exact ⟨"brace" :: deep, rfl, List.forall_mem_cons.mpr ⟨.inr rfl, inner⟩⟩

/-- A step keeps the text's state below those of interpolations. -/
theorem Above.step (textual : Textual state) {stack : List String} (above : Above state stack)
    (c : Char) (cs : List Char) : Above state (lexer.step stack c cs).stack := by
  rcases lexer.step_cases stack c cs with ⟨rule, hr, m, -, -, same⟩ | same
  · have known : Textual (stack.headD "root") ∨ Inner (stack.headD "root") := by
      rcases above.head with rfl | ⟨-, inner⟩
      · exact .inl textual
      · exact .inr inner
    rw [same]
    exact above.apply (transition_of_mem known rule hr)
  · rw [same]
    rcases recovery_stack stack c with kept | reset
    · rw [kept]
      exact above
    · obtain ⟨deep, rfl, -⟩ := above
      rw [reset, List.length_append, List.length_singleton, Nat.add_sub_cancel, List.drop_left]
      exact ⟨[], rfl, fun _ => nofun⟩

/-- The loop reads the literal to its last quote and comes back to the state that it began in.
Within interpolations nothing looks at the end of the literal. -/
structure Complete (state text : String) : Prop where
  quoted : Quoted text.toList
  returns : ∀ p, (lexer.run ⟨[state], 0, text.toList⟩).getLast? = some p → p.stack = [state]
  settled : ∀ p ∈ lexer.run ⟨[state], 0, text.toList⟩, 1 < p.stack.length →
    settled p.rest = true

/-- The last quotes are read as what they are, whatever follows. -/
theorem passes_of_not_beyond (textual : Textual state) {cs : List Char} (quoted : Quoted cs)
    (last : ¬ Beyond cs) (more : List Char) (offset : Nat) :
    lexer.Passes [state] more ⟨[state], offset, cs⟩ := by
  obtain ⟨ls, q, leads, quote, short⟩ : ∃ ls q, Leads ls ∧ IsQuote q ∧
      (cs = ls ++ [q] ∨ cs = ls ++ [q, q]) := by
    by_contra none
    refine last ⟨quoted, fun ls q leads quote => ⟨fun one => ?_, fun two => ?_⟩⟩
    · exact none ⟨ls, q, leads, quote, .inl one⟩
    · exact none ⟨ls, q, leads, quote, .inr two⟩
  dsimp only [Passes]
  have first (ds : List Char) := categories_quote textual quote leads ds
  have again (ds : List Char) : lexer.categories [state] (q :: ds) = _ :=
    categories_quote textual quote leads_nil ds
  rcases short with rfl | rfl
  · rw [List.append_assoc, List.singleton_append, first, first]
    simp
  · have both (ds : List Char) : ls ++ [q, q] ++ ds = ls ++ q :: q :: ds := by simp
    rw [both, first, first, again, again]
    simp

theorem Complete.passes {text : String} (textual : Textual state) (complete : Complete state text)
    (more : List Char) : lexer.Passes [state] more ⟨[state], 0, text.toList⟩ := by
  have kept : ∀ p ∈ lexer.run ⟨[state], 0, text.toList⟩,
      Above state p.stack ∧ (p.rest = [] ∨ Quoted p.rest) := by
    refine lexer.run_keeps (fun p q h here => ?_) ⟨⟨[], rfl, fun _ => nofun⟩, .inr complete.quoted⟩
    obtain ⟨above, rest⟩ := here
    obtain ⟨c, cs, chars, rfl⟩ := next?_eq_some h
    have quoted := rest.resolve_left (by simp [chars])
    exact ⟨above.step textual c cs, by rw [← chars]; exact quoted.drop _⟩
  refine passes_of_run (fun p hp going => ?_) complete.returns
  obtain ⟨above, rest⟩ := kept p hp
  have quoted := rest.resolve_left going
  rcases above.head with text | ⟨deep, inner⟩
  · by_cases beyond : Beyond p.rest
    · right
      rw [text, List.headD_cons, rules_of_textual textual]
      refine List.forall_mem_cons.mpr ⟨steady_quotes _ more beyond, fun rule hr => ?_⟩
      exact steady_textual textual rule hr _ more quoted
    · left
      obtain ⟨stack, offset, rest⟩ := p
      obtain rfl : stack = [state] := text
      exact passes_of_not_beyond textual quoted beyond more offset
  · right
    exact fun rule hr => steady_inner inner rule hr _ more ⟨quoted, complete.settled p hp deep⟩

theorem categories_join (textual : Textual state) {before : List String}
    (complete : ∀ t ∈ before, Complete state t) (cs : List Char) :
    lexer.categories [state] ((String.join before).toList ++ cs) =
      before.flatMap (fun t => lexer.categories [state] t.toList) ++
        lexer.categories [state] cs := by
  induction before with
  | nil => rw [String.join_nil]; rfl
  | cons t before ih =>
    obtain ⟨here, later⟩ := List.forall_mem_cons.mp complete
    rw [String.join_cons, String.toList_append, List.append_assoc]
    have first := here.passes textual ((String.join before).toList ++ cs)
    dsimp only [Passes] at first
    rw [first, ih later, List.flatMap_cons, List.append_assoc]

/-- A literal among others that are complete has the categories that it has alone, read from
the state of the whole row. -/
theorem bytewise_row (textual : Textual state) {before after : List String} {t : String}
    (complete : ∀ s ∈ before, Complete state s) (ends : after = [] ∨ Complete state t) :
    ∃ behind, Token.bytewise (lexer.tokensFrom state (String.join (before ++ t :: after))) =
      before.flatMap (fun s => lexer.categories [state] s.toList) ++
        (lexer.categories [state] t.toList ++ behind) := by
  rw [bytewise_tokensFrom, String.join_append, String.join_cons, String.toList_append,
    categories_join textual complete, String.toList_append]
  rcases ends with rfl | last
  · exact ⟨[], by simp⟩
  · exact ⟨_, congrArg _ (last.passes textual _)⟩

theorem stay_of_mem (textual : Textual state) :
    ∀ rule ∈ lexer.rules state, rule.transition = .stay ∨ rule = opensInterpolation := by
  have single : ∀ rule ∈ singleRules, rule.transition = .stay ∨ rule = opensInterpolation := by
    simp only [singleRules, List.forall_mem_cons]
    exact ⟨.inl rfl, .inl rfl, .inr trivial, .inl rfl, .inl rfl, fun _ => nofun⟩
  have triple : ∀ rule ∈ tripleRules, rule.transition = .stay ∨ rule = opensInterpolation := by
    simp only [tripleRules, List.forall_mem_cons]
    exact ⟨.inl rfl, .inl rfl, .inr trivial, .inl rfl, .inl rfl, fun _ => nofun⟩
  rcases textual with rfl | rfl
  · exact single
  · exact triple

/-- A text without an opening brace is complete as soon as it ends with a quote. -/
theorem complete_of_plain {text : String} (textual : Textual state) (quoted : Quoted text.toList)
    (plain : '{' ∉ text.toList) : Complete state text := by
  have kept : ∀ p ∈ lexer.run ⟨[state], 0, text.toList⟩, p.stack = [state] ∧ '{' ∉ p.rest := by
    refine lexer.run_keeps (fun p q h here => ?_) ⟨rfl, plain⟩
    obtain ⟨stack, absent⟩ := here
    obtain ⟨c, cs, chars, rfl⟩ := next?_eq_some h
    rw [chars] at absent
    refine ⟨?_, fun later => absent (List.mem_of_mem_drop later)⟩
    dsimp only
    rw [stack]
    rcases lexer.step_cases [state] c cs with ⟨rule, hr, m, found, -, same⟩ | same
    · rw [same]
      rcases stay_of_mem textual rule hr with stays | rfl
      · rw [Rule.taken, stays]
        rfl
      · cases found.symm.trans (not_matchAt?_char absent)
    · rw [same]
      rcases recovery_stack [state] c with stays | reset
      · exact stays
      · exact reset
  refine ⟨quoted, fun p last => (kept p (List.mem_of_getLast? last)).1, fun p hp deep => ?_⟩
  rw [(kept p hp).1] at deep
  cases Nat.lt_irrefl 1 deep

end HybridTemplate.Lexer.FormatString
