import Mathlib.Data.List.TakeWhile
import HybridTemplate.Proofs.Lexer.Comments

set_option autoImplicit false

/-! A text that gives no error alone and leads the lexer back to its first state is read in the
same steps in front of a separator, unless a comment in it goes on. Where one does, the separator
itself is a part of the comment. -/
namespace HybridTemplate.Lexer

section

variable {l : Lexer} {p q : Standing} {states : List String} {more : List Char}

/-- From one of the standings on they are those of the loop from there. -/
theorem run_suffix (h : q ∈ l.run p) : l.run q <:+ l.run p := by
  induction p using l.run_induction with
  | ends p none =>
    rw [run_of_end none, List.mem_singleton] at h
    exact h ▸ List.suffix_rfl
  | next p r moved ih =>
    rw [run_of_next moved] at h
    rcases List.mem_cons.mp h with rfl | later
    · exact List.suffix_rfl
    · rw [run_of_next moved]
      exact (ih later).trans (List.suffix_cons p _)

theorem rest_suffix_of_mem_run (h : q ∈ l.run p) : q.rest <:+ p.rest := by
  refine l.run_keeps (motive := fun r => r.rest <:+ p.rest) (fun r r' moved inside => ?_)
    List.suffix_rfl q h
  obtain ⟨c, cs, chars, rfl⟩ := next?_eq_some moved
  rw [chars] at inside
  exact (List.drop_suffix _ _).trans inside

/-- Where every step is the same in front of more text, the lexer comes to stand there. -/
theorem exists_standing (same : ∀ q ∈ l.run p, q.rest ≠ [] →
      ∀ rule ∈ l.rules (q.stack.headD "root"),
        rule.matcher.matchAt? (q.rest ++ more) = rule.matcher.matchAt? q.rest)
    (ends : ∀ q, (l.run p).getLast? = some q → q.stack = states) (n : Nat) :
    ∃ m, ⟨states, m, more⟩ ∈ l.run ⟨p.stack, n, p.rest ++ more⟩ := by
  induction p using l.run_induction generalizing n with
  | ends p none =>
    have last := ends p (by rw [run_of_end none]; rfl)
    rw [next?_eq_none.mp none, last]
    exact ⟨n, List.mem_of_mem_head? (head?_run l _)⟩
  | next p q moved ih =>
    have run := run_of_next moved
    rw [run] at same ends
    obtain ⟨here, later⟩ := List.forall_mem_cons.mp same
    obtain ⟨c, cs, chars, rfl⟩ := next?_eq_some moved
    rw [chars] at here
    have step := step_append (here (List.cons_ne_nil c cs))
    have within := l.length_step_le p.stack c cs
    have moved' : l.next? ⟨p.stack, n, p.rest ++ more⟩ = some ⟨(l.step p.stack c cs).stack,
        n + Text.byteLength ((c :: (cs ++ more)).take (l.step p.stack c cs).length),
        (c :: cs).drop (l.step p.stack c cs).length ++ more⟩ := by
      rw [next?, chars, List.cons_append]
      dsimp only
      rw [step, ← List.cons_append, List.drop_append_of_le_length within]
    obtain ⟨m, found⟩ := ih later
      (fun e last => ends e (by rw [List.getLast?_cons, last]; rfl))
      (n + Text.byteLength ((c :: (cs ++ more)).take (l.step p.stack c cs).length))
    refine ⟨m, ?_⟩
    rw [run_of_next moved']
    exact List.mem_cons_of_mem _ found

end

namespace Script

open Host (IsQuote unclosed)
open Parts Pattern

variable {s x : Char} {cs more : List Char} {p q : Standing} {stack : List String}

theorem silent_at_quote {q : Char} (quote : IsQuote q) :
    ∀ rule ∈ rules, Silent q rule ∨ rule = .token (quoted q) .string := by
  have quiet {rule : Rule} {p : Pattern} (same : rule.matcher = p.matcher)
      (h : p.begins q = false ∧ p.consumes = true) : Silent q rule := by
    intro cs
    rw [same]
    exact matchAt?_of_not_begins h.1 h.2 cs
  simp only [rules, List.forall_mem_cons]
  rcases quote with rfl | rfl
  · refine ⟨?_, ?_, ?_, ?_, .inr rfl, ?_, ?_, ?_, ?_, ?_, ?_, ?_, ?_, ?_, ?_, List.forall_mem_nil _⟩
    all_goals exact .inl (quiet rfl (by decide +kernel))
  · refine ⟨?_, ?_, ?_, ?_, ?_, .inr rfl, ?_, ?_, ?_, ?_, ?_, ?_, ?_, ?_, ?_, List.forall_mem_nil _⟩
    all_goals exact .inl (quiet rfl (by decide +kernel))

theorem step_of_silent {l : Lexer} {c : Char}
    (h : ∀ rule ∈ l.rules (stack.headD "root"), rule.matcher.matchAt? (c :: cs) = none) :
    l.step stack c cs = recovery stack c := by
  have none : firstMatch? stack (c :: cs) (l.rules (stack.headD "root") ++ []) = none :=
    firstMatch?_append_silent h
  rw [List.append_nil] at none
  rw [step, none]
  rfl

theorem step_of_unclosed (coded : Coded (stack.headD "root")) {q : Char} (quote : IsQuote q)
    (h : unclosed q cs = true) : lexer.step stack q cs = recovery stack q := by
  obtain ⟨own, split, silent⟩ := rules_of_coded coded
  refine step_of_silent (split ▸ List.forall_mem_append.mpr ⟨fun rule hr => ?_, fun rule hr => ?_⟩)
  · refine silent q ?_ ?_ rule hr cs <;> rcases quote with rfl | rfl <;> decide
  · rcases silent_at_quote quote rule hr with none | rfl
    · exact none cs
    · exact not_matchAt?_quoted quote h

theorem step_of_escape (below : List String) :
    lexer.step ("template" :: below) '\\' [] = recovery ("template" :: below) '\\' := by
  have none : ∀ rule ∈ templateRules, rule.matcher.matchAt? ['\\'] = none := by
    decide +kernel
  exact step_of_silent none

theorem step_of_chunk (below : List String) (h : ∀ c ∈ x :: cs, inChunk c = true) :
    (lexer.step ("template" :: below) x cs).length = (x :: cs).length ∧
      (lexer.step ("template" :: below) x cs).stack = "template" :: below := by
  have found := matchAt?_many1_cons (h x List.mem_cons_self) cs
  have all : (x :: cs).takeWhile inChunk = x :: cs := List.takeWhile_eq_self_iff.mpr h
  have quiet : ∀ r ∈ templateRules.take 3, r.matcher.matchAt? (x :: cs) = none := fun r hr =>
    silent_before_chunk (inChunk_iff.mp (h x List.mem_cons_self)) r hr cs
  have split : lexer.rules "template" = templateRules.take 3 ++
      .token (many1 (one inChunk)) .stringBacktick :: templateRules.drop 4 := rfl
  have taken := step_of_first ("template" :: below) split quiet found
    (by rw [all]; exact Nat.succ_ne_zero _)
  rw [taken, all]
  exact ⟨rfl, rfl⟩

def OpensLine (p : Standing) : Prop :=
  Coded (p.stack.headD "root") ∧ ['/', '/'] <+: p.rest ∧ '\n' ∉ p.rest

def OpensBlock (p : Standing) : Prop :=
  Coded (p.stack.headD "root") ∧ ['/', '*'] <+: p.rest ∧ ¬ Closes (p.rest.drop 2)

instance (p : Standing) : Decidable (OpensLine p) := inferInstanceAs (Decidable (_ ∧ _ ∧ _))

instance (p : Standing) : Decidable (OpensBlock p) := inferInstanceAs (Decidable (_ ∧ _ ∧ _))

/-- A comment begins here that goes on in what follows the text. -/
def Overruns (more : List Char) (p : Standing) : Prop :=
  OpensLine p ∨ OpensBlock p ∧ Closes more

theorem Overruns.slash (h : Overruns more p) : '/' ∈ p.rest := by
  rcases h with ⟨-, opens, -⟩ | ⟨⟨-, opens, -⟩, -⟩ <;> exact opens.subset List.mem_cons_self

/-- The lexer reads the text from here on without an error and ends up in its first state. -/
structure Sound (p : Standing) : Prop where
  nested : Nested "root" ["template", "interp", "brace"] p.stack
  clean : .error ∉ lexer.categories p.stack p.rest
  ends : ∀ q, (lexer.run p).getLast? = some q → q.stack = ["root"]

theorem Sound.next (h : Sound p) (moved : lexer.next? p = some q) : Sound q := by
  have nests := nests_builtin .script ""
  have run := run_of_next moved
  obtain ⟨c, cs, chars, rfl⟩ := next?_eq_some moved
  have clean := h.clean
  rw [chars, categories_cons, List.mem_append, not_or] at clean
  refine ⟨nests.step h.nested c cs, clean.2, fun r last => h.ends r ?_⟩
  rw [run, List.getLast?_cons, last]
  rfl

theorem Sound.not_recovery (h : Sound p) (rest : p.rest = x :: cs) (line : x ≠ '\n') :
    lexer.step p.stack x cs ≠ recovery p.stack x := by
  intro recovered
  refine h.clean ?_
  rw [rest, categories_cons, recovered, recovery, if_neg line]
  simp [piece, Nat.pos_iff_ne_zero.mp x.utf8Size_pos]

/-- In a template something other than the template's own text is still to come. -/
theorem Sound.alike_of_template (h : Sound p) (sep : IsSeparator s) (rest : p.rest = x :: cs)
    {below : List String} (stack : p.stack = "template" :: below) :
    ∀ rule ∈ lexer.rules "template", Alike (x :: cs) (s :: more) rule := by
  refine Script.alike_of_template sep ?_ ?_
  · rintro same
    obtain ⟨rfl, rfl⟩ := List.cons.inj same
    refine h.not_recovery rest (by decide) ?_
    rw [stack]
    exact step_of_escape below
  · refine Classical.byContradiction fun none => ?_
    have all : ∀ c ∈ x :: cs, inChunk c = true := fun c hc =>
      (Bool.not_eq_false _).mp fun other => none ⟨c, hc, other⟩
    obtain ⟨length, stays⟩ := step_of_chunk below all
    rw [← stack] at length stays
    have moved : lexer.next? p = some ⟨p.stack,
        p.offset + Text.byteLength ((x :: cs).take (x :: cs).length), []⟩ := by
      rw [next?, rest]
      dsimp only
      rw [length, stays, List.drop_length]
    have last := (h.next moved).ends _ (by rw [run_of_end (next?_eq_none.mpr rfl)]; rfl)
    exact absurd (stack.symm.trans last) (by simp)

theorem Sound.overruns_or_alike_of_coded (h : Sound p) (sep : IsSeparator s)
    (rest : p.rest = x :: cs) (coded : Coded (p.stack.headD "root")) :
    Overruns (s :: more) p ∨
      ∀ rule ∈ lexer.rules (p.stack.headD "root"), Alike (x :: cs) (s :: more) rule := by
  refine or_iff_not_imp_left.mpr fun overrun => ?_
  obtain ⟨line, block⟩ := not_or.mp overrun
  refine alike_of_coded coded sep (fun t split => ?_) (fun t split closes => ?_)
    (fun q quote t split => ?_)
  · have here : p.rest = '/' :: '/' :: t := rest.trans split
    refine Decidable.byContradiction fun stays => line ⟨coded, ⟨t, here.symm⟩, ?_⟩
    simpa [here] using stays
  · have here : p.rest = '/' :: '*' :: t := rest.trans split
    refine Decidable.byContradiction fun endless => block ⟨⟨coded, ⟨t, here.symm⟩, ?_⟩, closes⟩
    rwa [here]
  · obtain ⟨rfl, rfl⟩ := List.cons.inj split
    refine (Bool.not_eq_true _).mp fun endless => ?_
    exact h.not_recovery rest quote.ne.2.1 (step_of_unclosed coded quote endless)

/-- At each place of such a text a comment goes on, or all rules read the same in front of a
separator. -/
theorem Sound.overruns_or_alike (h : Sound p) (sep : IsSeparator s) (rest : p.rest = x :: cs) :
    Overruns (s :: more) p ∨
      ∀ rule ∈ lexer.rules (p.stack.headD "root"), Alike (x :: cs) (s :: more) rule := by
  have head := h.nested.head
  simp only [List.mem_cons, List.not_mem_nil, or_false] at head
  rcases head with root | template | interp | brace
  · exact h.overruns_or_alike_of_coded sep rest (.inl root)
  · cases stack : p.stack with
    | nil =>
      rw [stack] at template
      exact absurd template (by decide)
    | cons state below =>
      rw [stack] at template
      obtain rfl : state = "template" := template
      exact .inr (h.alike_of_template sep rest stack)
  · exact h.overruns_or_alike_of_coded sep rest (.inr (.inl interp))
  · exact h.overruns_or_alike_of_coded sep rest (.inr (.inr brace))

theorem Sound.alike (h : Sound p) (sep : IsSeparator s)
    (stays : ∀ q ∈ lexer.run p, ¬ Overruns (s :: more) q) :
    ∀ q ∈ lexer.run p, q.rest ≠ [] →
      ∀ rule ∈ lexer.rules (q.stack.headD "root"), Alike q.rest (s :: more) rule := by
  intro q hq filled
  have sound : Sound q := lexer.run_keeps (fun _ _ moved here => here.next moved) h q hq
  obtain ⟨x, cs, rest⟩ := List.exists_cons_of_ne_nil filled
  exact rest ▸ (sound.overruns_or_alike sep rest).resolve_left (stays q hq)

/-- Where no comment goes on, the text is read as it is alone. -/
theorem Sound.passes (h : Sound p) (sep : IsSeparator s)
    (stays : ∀ q ∈ lexer.run p, ¬ Overruns (s :: more) q) :
    lexer.Passes ["root"] (s :: more) p :=
  passes_of_run (fun q hq filled => .inr (h.alike sep stays q hq filled)) h.ends

/-- The lexer then comes to the separator in its first state. -/
theorem Sound.arrives (h : Sound p) (sep : IsSeparator s)
    (stays : ∀ q ∈ lexer.run p, ¬ Overruns (s :: more) q) (n : Nat) :
    ∃ m, ⟨["root"], m, s :: more⟩ ∈ lexer.run ⟨p.stack, n, p.rest ++ s :: more⟩ :=
  exists_standing (h.alike sep stays) h.ends n

def Swallows (more : List Char) (p : Standing) : Prop :=
  ∃ category ∈ [Category.commentSingle, .commentMultiline],
    (lexer.categories p.stack (p.rest ++ more))[Text.byteLength p.rest]? = some category

theorem getElem?_replicate_append {category : Category} (cs w : List Char)
    (tail : List Category) :
    (List.replicate (Text.byteLength (cs ++ s :: w)) category ++ tail)[Text.byteLength cs]? =
      some category := by
  have within : Text.byteLength cs < Text.byteLength (cs ++ s :: w) := by
    rw [Text.byteLength_append, Text.byteLength_cons]
    have := s.utf8Size_pos
    omega
  rw [List.getElem?_append_left (by rwa [List.length_replicate]), List.getElem?_replicate,
    if_pos within]

/-- A comment that begins here and ends beyond the text. -/
theorem swallows_of_match {rule : Rule} {k : Nat} {category : Category} {t u back : List Char}
    (coded : Coded (p.stack.headD "root")) (rest : p.rest = '/' :: t)
    (place : rules = rules.take k ++ rule :: rules.drop (k + 1))
    (quiet : ∀ r ∈ rules.take k, r.matcher.matchAt? (p.rest ++ s :: (u ++ back)) = none)
    (found : rule.matcher.matchAt? (p.rest ++ s :: (u ++ back)) =
      some ⟨(p.rest ++ s :: u).length, []⟩)
    (action : rule.action = .token category)
    (comment : category ∈ [Category.commentSingle, .commentMultiline]) :
    Swallows (s :: (u ++ back)) p := by
  obtain ⟨own, split, silent⟩ := rules_of_coded coded
  have other : ∀ r ∈ own, Silent '/' r := silent '/' (by decide) (by decide)
  have first : lexer.rules (p.stack.headD "root") =
      (own ++ rules.take k) ++ rule :: rules.drop (k + 1) := by
    rw [List.append_assoc, ← place]
    exact split
  have whole : p.rest ++ s :: (u ++ back) = (p.rest ++ s :: u) ++ back := by simp
  rw [whole] at quiet found
  have read := categories_of_first p.stack (p.rest ++ s :: u) back first
    (List.forall_mem_append.mpr ⟨fun r hr => by rw [rest]; exact other r hr _, quiet⟩) found rfl
    (by simp) action
  refine ⟨category, comment, ?_⟩
  rw [whole, read]
  exact getElem?_replicate_append p.rest u _

theorem silent_before_comments : ∀ r ∈ rules.take 1, Silent '/' r :=
  silent_of_begins (openers.take 1) rfl (by decide +kernel)

theorem OpensLine.swallows (h : OpensLine p) (line : s ≠ '\n') (more : List Char) :
    Swallows (s :: more) p := by
  obtain ⟨coded, ⟨t, opens⟩, stays⟩ := h
  have rest : p.rest = '/' :: '/' :: t := opens.symm
  have taken : (t ++ s :: more).takeWhile (· ≠ '\n') = t ++ s :: more.takeWhile (· ≠ '\n') := by
    rw [List.takeWhile_append_of_pos, List.takeWhile_cons_of_pos (by simpa using line)]
    rintro c hc
    have other : c ≠ '\n' := by
      rintro rfl
      exact stays (by simp [rest, hc])
    simpa using other
  have found := matchAt?_lineComment (t ++ s :: more)
  rw [taken] at found
  have read : Swallows (s :: (more.takeWhile (· ≠ '\n') ++ more.dropWhile (· ≠ '\n'))) p := by
    refine swallows_of_match (k := 1) coded rest rfl (fun r hr => ?_) ?_ rfl List.mem_cons_self
    · rw [rest]
      exact silent_before_comments r hr _
    · rw [List.takeWhile_append_dropWhile, rest]
      exact found
  rwa [List.takeWhile_append_dropWhile] at read

theorem exists_first_beyond {t : List Char} (endless : ¬ Closes t) (closes : Closes (s :: more)) :
    ∃ w u back, w ++ ['*', '/'] = t ++ s :: u ∧ more = u ++ back ∧ ¬ Closes w := by
  have behind : Closes (t ++ s :: more) := closes.trans (List.suffix_append t _).isInfix
  obtain ⟨w, back, split, fresh⟩ := behind.exists_first
  have front : w ++ ['*', '/'] <+: t ++ s :: more := ⟨back, by simp [split]⟩
  have long : (t ++ [s]).length ≤ (w ++ ['*', '/']).length := by
    by_contra short
    have within : (w ++ ['*', '/']).length ≤ t.length := by
      simp only [List.length_append, List.length_cons, List.length_nil] at short ⊢
      omega
    have inside := List.prefix_of_prefix_length_le front (List.prefix_append t _) within
    exact endless ((List.suffix_append w _).isInfix.trans inside.isInfix)
  have covers : t ++ [s] <+: w ++ ['*', '/'] :=
    List.prefix_of_prefix_length_le ⟨more, by simp⟩ front long
  obtain ⟨u, whole⟩ := covers
  refine ⟨w, u, back, by simp [← whole], ?_, fresh⟩
  have same : t ++ s :: more = t ++ s :: (u ++ back) := by
    rw [split, List.append_cons w, List.append_cons (w ++ ['*']), List.append_assoc w]
    simp [← whole]
  exact (List.cons.inj (List.append_cancel_left same)).2

theorem OpensBlock.swallows (h : OpensBlock p) (closes : Closes (s :: more)) :
    Swallows (s :: more) p := by
  obtain ⟨coded, ⟨t, opens⟩, endless⟩ := h
  have rest : p.rest = '/' :: '*' :: t := opens.symm
  have endless : ¬ Closes t := by
    rw [rest] at endless
    exact endless
  obtain ⟨w, u, back, whole, rfl, fresh⟩ := exists_first_beyond endless closes
  have text : p.rest ++ s :: (u ++ back) = '/' :: '*' :: (w ++ '*' :: '/' :: back) := by
    have same : t ++ s :: u ++ back = w ++ ['*', '/'] ++ back := congrArg (· ++ back) whole.symm
    simpa [rest] using same
  have length : (p.rest ++ s :: u).length = w.length + 4 := by
    have := congrArg List.length whole
    simp only [rest, List.length_append, List.length_cons, List.length_nil] at this ⊢
    omega
  have found := matchAt?_blockComment fresh back
  rw [← text, ← length] at found
  have other : ¬ ['/', '/'] <+: '/' :: '*' :: (w ++ '*' :: '/' :: back) := by
    simp [List.cons_prefix_cons]
  refine swallows_of_match (k := 2) coded rest rfl ?_ found rfl
    (List.mem_cons_of_mem _ List.mem_cons_self)
  rw [text]
  exact List.forall_mem_append.mpr ⟨fun r hr => silent_before_comments r hr _,
    List.forall_mem_singleton.mpr (not_matchAt?_lineComment other)⟩

theorem Overruns.swallows (sep : IsSeparator s) (h : Overruns (s :: more) p) :
    Swallows (s :: more) p := by
  have line : s ≠ '\n' := by rcases sep with rfl | rfl | rfl <;> decide
  rcases h with opens | ⟨opens, closes⟩
  · exact opens.swallows line more
  · exact opens.swallows closes

theorem Swallows.back (moved : lexer.next? p = some q)
    (same : ∀ rule ∈ lexer.rules (p.stack.headD "root"), Alike p.rest more rule)
    (h : Swallows more q) : Swallows more p := by
  obtain ⟨c, cs, rest, rfl⟩ := next?_eq_some moved
  obtain ⟨category, comment, found⟩ := h
  rw [rest] at same
  have step := step_append same
  have within := lexer.length_step_le p.stack c cs
  have alone := congrArg List.length (categories_cons lexer p.stack c cs)
  rw [List.length_append, length_categories, length_categories] at alone
  refine ⟨category, comment, ?_⟩
  rw [rest, List.cons_append, categories_cons, step, ← List.cons_append,
    List.drop_append_of_le_length within, alone,
    List.getElem?_append_right (Nat.le_add_right _ _), Nat.add_sub_cancel_left]
  exact found

/-- Where a comment of the text goes on, it takes the separator. -/
theorem Sound.swallows (h : Sound p) (sep : IsSeparator s)
    (overrun : ∃ q ∈ lexer.run p, Overruns (s :: more) q) : Swallows (s :: more) p := by
  induction p using lexer.run_induction with
  | ends p none =>
    obtain ⟨q, hq, overrun⟩ := overrun
    rw [run_of_end none] at hq
    exact (List.mem_singleton.mp hq ▸ overrun).swallows sep
  | next p r moved ih =>
    by_cases here : Overruns (s :: more) p
    · exact here.swallows sep
    · obtain ⟨q, hq, overrun⟩ := overrun
      rw [run_of_next moved] at hq
      rcases List.mem_cons.mp hq with rfl | later
      · exact absurd overrun here
      · obtain ⟨c, cs, rest, -⟩ := next?_eq_some moved
        have alike := (h.overruns_or_alike sep rest).resolve_left here
        exact (ih (h.next moved) ⟨q, later, overrun⟩).back moved (rest ▸ alike)

/-- A text that gives no error when it is read alone, and after which the lexer stands in its first
state. -/
structure ReadsAlone (text : String) : Prop where
  clean : ∀ t ∈ lexer.tokens text, t.category ≠ .error
  returns : ∀ p ∈ (lexer.run ⟨["root"], 0, text.toList⟩).getLast?, p.stack = ["root"]

theorem forall_tokens_iff {text : String} :
    (∀ t ∈ lexer.tokens text, t.category ≠ .error) ↔
      .error ∉ lexer.categories ["root"] text.toList := by
  constructor
  · intro clean error
    rw [← bytewise_tokensFrom] at error
    obtain ⟨t, ht, bytes⟩ := List.mem_flatMap.mp error
    exact clean t ht (List.eq_of_mem_replicate bytes).symm
  · intro clean t ht error
    exact clean (error ▸ category_mem_categories ht)

instance (text : String) : Decidable (ReadsAlone text) :=
  decidable_of_iff
    (.error ∉ Token.bytewise ((lexer.run ⟨["root"], 0, text.toList⟩).flatMap lexer.piecesAt) ∧
      ∀ p ∈ (lexer.run ⟨["root"], 0, text.toList⟩).getLast?, p.stack = ["root"])
    (by
      rw [← categories_eq_run, ← forall_tokens_iff]
      exact ⟨fun h => ⟨h.1, h.2⟩, fun h => ⟨h.clean, h.returns⟩⟩)

theorem ReadsAlone.sound {text : String} (h : ReadsAlone text) :
    Sound ⟨["root"], 0, text.toList⟩ where
  nested := ⟨[], rfl, fun _ => nofun⟩
  clean := forall_tokens_iff.mp h.clean
  ends := h.returns

def Leads (cs ds : List Char) : Prop :=
  ∀ n, ∃ m, ⟨["root"], m, ds⟩ ∈ lexer.run ⟨["root"], n, cs⟩

theorem Leads.refl (cs : List Char) : Leads cs cs :=
  fun n => ⟨n, List.mem_of_mem_head? (head?_run lexer _)⟩

theorem Leads.trans {cs ds es : List Char} (h : Leads cs ds) (h' : Leads ds es) : Leads cs es := by
  intro n
  obtain ⟨m, first⟩ := h n
  obtain ⟨k, second⟩ := h' m
  exact ⟨k, (run_suffix first).subset second⟩

theorem IsSeparator.punctuates (sep : IsSeparator s) : Punctuates s := by
  rcases sep with rfl | rfl | rfl <;> simp [Punctuates]

theorem leads_punctuation (known : Punctuates x) (cs : List Char) : Leads (x :: cs) cs := by
  intro n
  obtain ⟨size, ok, silent⟩ := known.known
  have last : lexer.rules "root" =
      rules.take 14 ++ .token (oneOf "()[]\x7b\x7d;,.:") .punctuation :: [] := rfl
  have found : (oneOf "()[]\x7b\x7d;,.:").matchAt? ([x] ++ cs) = some ⟨1, []⟩ :=
    (matchAt?_one x cs).trans (if_pos ok)
  have moved := next?_of_first ["root"] n [x] cs last (fun r hr => silent r hr cs) found rfl
    (List.cons_ne_nil x [])
  rw [List.singleton_append] at moved
  refine ⟨n + Text.byteLength [x], ?_⟩
  rw [run_of_next moved]
  exact List.mem_cons_of_mem _ (List.mem_of_mem_head? (head?_run lexer _))

theorem next?_blank (blank : Text.isBlank x = true) (n : Nat) (cs : List Char) :
    lexer.next? ⟨["root"], n, x :: cs⟩ =
      some ⟨["root"], n + Text.byteLength ((x :: cs).takeWhile Text.isBlank),
        (x :: cs).dropWhile Text.isBlank⟩ := by
  have first : lexer.rules "root" =
      [] ++ .token (many1 (one Text.isBlank)) .whitespace :: rules.tail := rfl
  have split := List.takeWhile_append_dropWhile (p := Text.isBlank) (l := x :: cs)
  have found := matchAt?_many1_cons blank cs
  nth_rewrite 1 [← split] at found
  have moved := next?_of_first ["root"] n _ _ first (fun _ => nofun) found rfl (by simp [blank])
  rwa [split] at moved

theorem leads_blank {ds : List Char} (blank : Text.isBlank x = true)
    (apart : ∀ y, ds.head? = some y → Text.isBlank y = false) (h : Leads cs ds) :
    Leads (x :: cs) ds := by
  intro n
  obtain ⟨m, found⟩ := h (n + x.utf8Size)
  have moved := next?_blank blank n cs
  refine ⟨m, ?_⟩
  rw [run_of_next moved, List.takeWhile_cons_of_pos blank, List.dropWhile_cons_of_pos blank,
    Text.byteLength_cons, ← Nat.add_assoc]
  refine List.mem_cons_of_mem _ ?_
  cases cs with
  | nil => exact found
  | cons y cs =>
    by_cases next : Text.isBlank y = true
    · rw [run_of_next (next?_blank next (n + x.utf8Size) cs)] at found
      refine (List.mem_cons.mp found).resolve_left fun here => ?_
      have rest : ds = y :: cs := congrArg Standing.rest here
      exact absurd next (by rw [apart y (by rw [rest]; rfl)]; decide)
    · rw [List.takeWhile_cons_of_neg next, List.dropWhile_cons_of_neg next]
      exact found

end Script

end HybridTemplate.Lexer
