import HybridTemplate.Proofs.Lexer.Ahead
import HybridTemplate.Proofs.Lexer.LineEnds
import HybridTemplate.Proofs.Lexer.Templates

set_option autoImplicit false

namespace HybridTemplate.Lexer.Script

open Host (IsQuote unclosed)
open Parts Pattern

variable {x : Char} {w cs more back : List Char} {c d : Cursor}

def lineComment : Pattern := seq (lit "//") (many inLine)

theorem matchAt?_lineComment (cs : List Char) :
    lineComment.matchAt? ('/' :: '/' :: cs) =
      some ⟨(cs.takeWhile (· ≠ '\n')).length + 2, []⟩ := by
  obtain ⟨d, opens, pos, rest, -, groups, late⟩ :=
    reach_chars ['/', '/'] (c := .atStart ('/' :: '/' :: cs) false) rfl
  have on (c : Cursor) (x : Char) (cs : List Char) (rest : c.rest = x :: cs)
      (ok : decide (x ≠ '\n') = true) :
      reach inLine c = [⟨c.pos + 1, some x, cs, c.groups, [], c.late⟩] :=
    step_of_accepted c x cs rest (by simpa using ok)
  have stops (c : Cursor) (rest : c.rest = cs.dropWhile (· ≠ '\n')) : reach inLine c = [] := by
    refine step_of_stop (fun x first => ?_) c rest
    simpa using stops_dropWhile (· ≠ '\n') cs x first
  obtain ⟨e, first, pos', -, groups'⟩ := head?_reach_many
    (List.all_eq_true.mp (List.all_takeWhile (l := cs))) on stops late
    (rest.trans (List.takeWhile_append_dropWhile).symm)
  have whole : (reach lineComment (.atStart ('/' :: '/' :: cs) false)).head? = some e := by
    rw [lineComment, head?_reach_seq]
    exact findSome?_of_head? (congrArg List.head? opens) first
  rw [matchAt?_eq (by decide), whole, Option.map_some, groups', groups, pos', pos]
  simp [Cursor.atStart, Nat.add_comm]

def Closes (cs : List Char) : Prop := ['*', '/'] <:+: cs

instance (cs : List Char) : Decidable (Closes cs) := inferInstanceAs (Decidable (_ <:+: _))

theorem Closes.exists_first (h : Closes cs) :
    ∃ w back, cs = w ++ '*' :: '/' :: back ∧ ¬ Closes w := by
  induction cs with
  | nil => exact absurd h (by simp [Closes])
  | cons x cs ih =>
    by_cases here : ['*', '/'] <+: x :: cs
    · obtain ⟨back, split⟩ := here
      exact ⟨[], back, split.symm, by simp [Closes]⟩
    · obtain ⟨w, back, rfl, fresh⟩ := ih ((List.infix_cons_iff.mp h).resolve_left here)
      refine ⟨x :: w, back, rfl, fun again => ?_⟩
      rcases List.infix_cons_iff.mp again with first | later
      · exact here (first.trans (List.prefix_append (x :: w) _))
      · exact fresh later

theorem prefix_two_append {z : Char} (other : z ≠ x) (y : Char) (cs more : List Char) :
    [y, z] <+: cs ++ x :: more ↔ [y, z] <+: cs ∨ cs = [] ∧ [y, z] <+: x :: more := by
  match cs with
  | [] => simp
  | [a] => simp [List.cons_prefix_cons, other]
  | a :: b :: cs => simp [List.cons_prefix_cons]

theorem closes_append (other : x ≠ '*' ∧ x ≠ '/') (cs more : List Char) :
    Closes (cs ++ x :: more) ↔ Closes cs ∨ Closes more := by
  unfold Closes
  induction cs with
  | nil => simp [List.infix_cons_iff, List.cons_prefix_cons, Ne.symm other.1]
  | cons y cs ih =>
    have first := prefix_two_append (Ne.symm other.2) '*' (y :: cs) more
    rw [List.cons_append, List.infix_cons_iff, ih, List.infix_cons_iff, ← List.cons_append, first]
    simp [or_assoc]

theorem matchAt?_blockComment (fresh : ¬ Closes w) (back : List Char) :
    blockComment.matchAt? ('/' :: '*' :: (w ++ '*' :: '/' :: back)) = some ⟨w.length + 4, []⟩ := by
  obtain ⟨d, opens, pos, rest, -, groups, late⟩ :=
    reach_chars ['/', '*'] (c := .atStart ('/' :: '*' :: (w ++ '*' :: '/' :: back)) false) rfl
  have stuck (c : Cursor) (u : List Char) (filled : u ≠ []) (last : u <:+ w)
      (rest : c.rest = u ++ '*' :: '/' :: back) : reach (lit "*/") c = [] := by
    refine List.eq_nil_iff_forall_not_mem.mpr fun e he => ?_
    have same : u ++ '*' :: '/' :: back = '*' :: '/' :: e.rest :=
      rest.symm.trans (rest_of_mem_lit he)
    match u, filled with
    | [y], _ => cases same
    | y :: z :: u, _ =>
      obtain ⟨rfl, later⟩ := List.cons.inj same
      obtain ⟨rfl, -⟩ := List.cons.inj later
      exact fresh (List.IsInfix.trans ⟨[], u, rfl⟩ last.isInfix)
  have leads (c : Cursor) (rest : c.rest = '*' :: '/' :: back) : reach (lit "*/") c ≠ [] := by
    obtain ⟨e, one, -⟩ := reach_chars ['*', '/'] rest
    exact fun none => List.cons_ne_nil e [] (one.symm.trans none)
  obtain ⟨e, f, first, closes, pos', rest', groups'⟩ :=
    exists_head?_reach_few (fun c x cs rest => step_of_accepted c x cs rest rfl) stuck leads late
      rest
  obtain ⟨g, one, pos'', -, -, groups'', -⟩ := reach_chars ['*', '/'] rest'
  obtain rfl : g = f := Option.some.inj ((congrArg List.head? one).symm.trans closes)
  have whole :
      (reach blockComment (.atStart ('/' :: '*' :: (w ++ '*' :: '/' :: back)) false)).head? =
        some g := by
    rw [blockComment, seqs, head?_reach_seq]
    exact findSome?_of_head? (congrArg List.head? opens) first
  rw [matchAt?_eq (by decide), whole, Option.map_some, groups'', groups', groups, pos'', pos', pos]
  simp [Cursor.atStart, Nat.add_comm, Nat.add_left_comm]

theorem not_matchAt?_lineComment (h : ¬ ['/', '/'] <+: cs) : lineComment.matchAt? cs = none := by
  refine matchAt?_of_unreached fun d hd => ?_
  obtain ⟨e, he, -⟩ := exists_of_mem_seq hd
  have opens : cs = '/' :: '/' :: e.rest := rest_of_mem_lit he
  exact h ⟨e.rest, opens.symm⟩

theorem not_matchAt?_blockComment (h : ∀ t, cs = '/' :: '*' :: t → ¬ Closes t) :
    blockComment.matchAt? cs = none := by
  refine matchAt?_of_unreached fun d hd => ?_
  obtain ⟨e, he, hd⟩ := exists_of_mem_seq hd
  obtain ⟨f, hf, hd⟩ := exists_of_mem_seq hd
  have inside : f.rest <:+ e.rest := by
    refine forall_mem_reach_loop (P := fun g => g.rest <:+ e.rest) (fun g hg => ?_)
      (fun g hg i hi => ?_) f hf
    · obtain rfl := List.mem_singleton.mp hg
      exact List.suffix_rfl
    · obtain ⟨x, cs, -, rest, left⟩ := rest_of_mem_one hi
      rw [left]
      exact (List.suffix_cons x cs).trans (rest ▸ hg)
  have closing : f.rest = '*' :: '/' :: d.rest := rest_of_mem_lit hd
  have closes : Closes e.rest :=
    List.IsInfix.trans ⟨[], d.rest, closing.symm⟩ inside.isInfix
  exact h e.rest (rest_of_mem_lit he) closes

section

variable {q : Char}

theorem unclosed_step (quote : IsQuote q) (hd : d ∈ reach (stringPart q) c)
    (h : unclosed q c.rest = true) : unclosed q d.rest = true := by
  rcases List.mem_append.mp hd with plain | escape
  · obtain ⟨x, cs, other, rest, rfl⟩ := rest_of_mem_one plain
    have apart : x ≠ q ∧ x ≠ '\\' ∧ x ≠ '\n' := by simpa using other
    rw [rest] at h
    cases cs' : d.rest with
    | nil => rfl
    | cons y ys =>
      rw [cs', unclosed, if_neg (by simp [apart]), if_neg apart.2.1] at h
      exact h
  · obtain ⟨e, he, hd⟩ := exists_of_mem_seq escape
    obtain ⟨y, ys, inside, rest, left⟩ := rest_of_mem_one hd
    have line : y ≠ '\n' := by simpa using inside
    rw [rest_of_mem_char he, rest, unclosed, if_neg (by simp [Ne.symm quote.ne.1]), if_pos rfl] at h
    rw [left]
    simpa [line] using h

theorem not_matchAt?_quoted (quote : IsQuote q) (h : unclosed q cs = true) :
    (quoted q).matchAt? (q :: cs) = none := by
  refine matchAt?_of_unreached fun d hd => ?_
  obtain ⟨e, he, hd⟩ := exists_of_mem_seq hd
  obtain ⟨f, hf, hd⟩ := exists_of_mem_seq hd
  have opens : cs = e.rest := (List.cons.inj (rest_of_mem_char he)).2
  have left : unclosed q f.rest = true := by
    refine forall_mem_reach_loop (P := fun g => unclosed q g.rest = true) (fun g hg => ?_)
      (fun g hg i hi => unclosed_step quote hi hg) f hf
    obtain rfl := List.mem_singleton.mp hg
    exact opens ▸ h
  rw [rest_of_mem_char hd] at left
  cases rest : d.rest <;> simp [rest, unclosed] at left

end

/-- What parts texts in brackets from each other and from what surrounds them. -/
def IsSeparator (x : Char) : Prop := x = ',' ∨ x = '[' ∨ x = ']'

/-- A rule that reads the same here, whether this follows or not. -/
def Alike (cs more : List Char) (rule : Rule) : Prop :=
  rule.matcher.matchAt? (cs ++ more) = rule.matcher.matchAt? cs

section

variable {s : Char} {state : String} {rule : Rule} {p : Pattern} {accepts : Char → Bool}

theorem alike_of_avoids (same : rule.matcher = p.matcher)
    (h : p.avoids ',' = true ∧ p.avoids '[' = true ∧ p.avoids ']' = true) (sep : IsSeparator s)
    (cs more : List Char) : Alike cs (s :: more) rule := by
  rw [Alike, same]
  rcases sep with rfl | rfl | rfl
  · exact matchAt?_append_of_avoids h.1 (by decide) cs more
  · exact matchAt?_append_of_avoids h.2.1 (by decide) cs more
  · exact matchAt?_append_of_avoids h.2.2 (by decide) cs more

theorem alike_of_one (same : rule.matcher = (one accepts).matcher) (x : Char)
    (cs more : List Char) : Alike (x :: cs) more rule := by
  rw [Alike, same]
  exact (matchAt?_one x (cs ++ more)).trans (matchAt?_one x cs).symm

theorem alike_lineComment (sep : IsSeparator s)
    (ends : ∀ t, x :: cs = '/' :: '/' :: t → '\n' ∈ t) (more : List Char) :
    Alike (x :: cs) (s :: more) (.token lineComment .commentSingle) := by
  have apart : '/' ≠ s := by rcases sep with rfl | rfl | rfl <;> decide
  have same : lineComment.matchAt? (x :: cs ++ s :: more) = lineComment.matchAt? (x :: cs) := by
    by_cases opens : ['/', '/'] <+: x :: cs
    · obtain ⟨t, split⟩ := opens
      have inside := ends t split.symm
      rw [← split, List.append_assoc]
      refine (matchAt?_lineComment _).trans (Eq.trans ?_ (matchAt?_lineComment t).symm)
      have stops : ¬ (t.takeWhile (· ≠ '\n')).length = t.length := by
        intro whole
        have all := (List.takeWhile_prefix (· ≠ '\n')).eq_of_length whole
        rw [← all] at inside
        simpa using List.all_eq_true.mp (List.all_takeWhile (l := t)) _ inside
      have taken : (t ++ s :: more).takeWhile (· ≠ '\n') = t.takeWhile (· ≠ '\n') := by
        rw [List.takeWhile_append, if_neg stops]
      exact congrArg (fun w : List Char => some (Match.mk (w.length + 2) [])) taken
    · have later : ¬ ['/', '/'] <+: x :: cs ++ s :: more := by
        rw [prefix_two_append apart]
        simp [opens]
      rw [not_matchAt?_lineComment opens, not_matchAt?_lineComment later]
  exact same

theorem alike_blockComment (sep : IsSeparator s)
    (ends : ∀ t, x :: cs = '/' :: '*' :: t → Closes (s :: more) → Closes t) :
    Alike (x :: cs) (s :: more) (.token blockComment .commentMultiline) := by
  have apart : '*' ≠ s := by rcases sep with rfl | rfl | rfl <;> decide
  have other : s ≠ '*' ∧ s ≠ '/' := by rcases sep with rfl | rfl | rfl <;> decide
  have same : blockComment.matchAt? (x :: cs ++ s :: more) = blockComment.matchAt? (x :: cs) := by
    by_cases opens : ∃ t, x :: cs = '/' :: '*' :: t ∧ Closes t
    · obtain ⟨t, split, closes⟩ := opens
      obtain ⟨w, back, rfl, fresh⟩ := closes.exists_first
      rw [split, List.cons_append, List.cons_append, List.append_assoc, List.cons_append,
        List.cons_append, matchAt?_blockComment fresh, matchAt?_blockComment fresh]
    · have none (t : List Char) (split : x :: cs = '/' :: '*' :: t) : ¬ Closes t :=
        fun closes => opens ⟨t, split, closes⟩
      rw [not_matchAt?_blockComment none, not_matchAt?_blockComment]
      intro u split closes
      have opens' : ['/', '*'] <+: x :: cs :=
        ((prefix_two_append apart '/' (x :: cs) more).mp ⟨u, split.symm⟩).resolve_right (by simp)
      obtain ⟨t, cons⟩ := opens'
      obtain rfl : t ++ s :: more = u := by
        rw [← cons, List.append_assoc] at split
        exact List.append_cancel_left split
      rcases (closes_append other t more).mp closes with inside | behind
      · exact none t cons.symm inside
      · exact none t cons.symm (ends t cons.symm ((closes_append other [] more).mpr (.inr behind)))
  exact same

theorem alike_quoted {q : Char} (quote : IsQuote q)
    (ends : ∀ t, x :: cs = q :: t → unclosed q t = false) (more : List Char) :
    Alike (x :: cs) more (.token (quoted q) .string) :=
  (Host.local_quoted quote).first.matchAt?_append
    (by rcases quote with rfl | rfl <;> decide) ⟨List.cons_ne_nil x cs, ends⟩ more

/-- In code all rules read the same in front of a separator as at the end, but for comments and
strings that are not over. -/
theorem alike_of_coded (coded : Coded state) (sep : IsSeparator s)
    (line : ∀ t, x :: cs = '/' :: '/' :: t → '\n' ∈ t)
    (block : ∀ t, x :: cs = '/' :: '*' :: t → Closes (s :: more) → Closes t)
    (strings : ∀ q, IsQuote q → ∀ t, x :: cs = q :: t → unclosed q t = false) :
    ∀ rule ∈ lexer.rules state, Alike (x :: cs) (s :: more) rule := by
  have plain {rule : Rule} {p : Pattern} (same : rule.matcher = p.matcher)
      (h : p.avoids ',' = true ∧ p.avoids '[' = true ∧ p.avoids ']' = true) :
      Alike (x :: cs) (s :: more) rule :=
    alike_of_avoids same h sep (x :: cs) more
  have root : ∀ rule ∈ rules, Alike (x :: cs) (s :: more) rule := by
    simp only [rules, List.forall_mem_cons]
    refine ⟨?_, alike_lineComment sep line more, alike_blockComment sep block, ?_,
      alike_quoted (.inl rfl) (strings '"' (.inl rfl)) _,
      alike_quoted (.inr rfl) (strings '\'' (.inr rfl)) _, ?_, ?_, ?_, ?_, ?_, ?_, ?_, ?_,
      alike_of_one rfl x cs _, fun _ => nofun⟩
    all_goals exact plain rfl (by decide +kernel)
  have braces : ∀ rule ∈ interpolationRules ++ braceRules, Alike (x :: cs) (s :: more) rule := by
    simp only [interpolationRules, braceRules, List.cons_append, List.nil_append,
      List.forall_mem_cons]
    exact ⟨alike_of_one rfl x cs _, alike_of_one rfl x cs _, alike_of_one rfl x cs _,
      alike_of_one rfl x cs _, fun _ => nofun⟩
  obtain ⟨interp, brace⟩ := List.forall_mem_append.mp braces
  rcases coded with rfl | rfl | rfl
  · exact root
  · exact List.forall_mem_append.mpr ⟨interp, root⟩
  · exact List.forall_mem_append.mpr ⟨brace, root⟩

theorem alike_chunk (ends : ∃ c ∈ x :: cs, inChunk c = false) (more : List Char) :
    Alike (x :: cs) more (.token (many1 (one inChunk)) .stringBacktick) := by
  have same : (many1 (one inChunk)).matchAt? (x :: cs ++ more) =
      (many1 (one inChunk)).matchAt? (x :: cs) := by
    by_cases ok : inChunk x = true
    · have stops : ¬ ((x :: cs).takeWhile inChunk).length = (x :: cs).length := by
        intro whole
        have all := (List.takeWhile_prefix inChunk).eq_of_length whole
        obtain ⟨c, hc, other⟩ := ends
        rw [← all] at hc
        exact absurd (List.all_eq_true.mp (List.all_takeWhile (l := x :: cs)) c hc)
          (by simp [other])
      have taken : (x :: (cs ++ more)).takeWhile inChunk = (x :: cs).takeWhile inChunk := by
        rw [← List.cons_append, List.takeWhile_append, if_neg stops]
      rw [List.cons_append, matchAt?_many1_cons ok, matchAt?_many1_cons ok, taken]
    · have silent : (many1 (one inChunk)).begins x = false := by simp [many1, plus, begins, ok]
      rw [List.cons_append, matchAt?_of_not_begins silent rfl, matchAt?_of_not_begins silent rfl]
  exact same

theorem alike_escape (escape : x :: cs ≠ ['\\']) (more : List Char) :
    Alike (x :: cs) more (.token (seq (char '\\') anyChar) .stringEscape) := by
  have reading : Local (fun cs => cs ≠ [] ∧ ∀ ds, cs = '\\' :: ds → ds ≠ []) (fun _ => True)
      (seq (char '\\') anyChar) :=
    .seq (.char '\\') (.one (fun filled => filled rfl) fun _ _ _ _ => trivial)
  refine reading.first.matchAt?_append (by decide) ⟨List.cons_ne_nil x cs, ?_⟩ more
  rintro ds split rfl
  exact escape split

/-- In a template as well, but for an escape that is cut off and a stretch that is not over. -/
theorem alike_of_template (sep : IsSeparator s) (escape : x :: cs ≠ ['\\'])
    (ends : ∃ c ∈ x :: cs, inChunk c = false) :
    ∀ rule ∈ lexer.rules "template", Alike (x :: cs) (s :: more) rule := by
  have same : lexer.rules "template" = templateRules := rfl
  rw [same]
  simp only [templateRules, List.forall_mem_cons]
  exact ⟨alike_of_one rfl x cs _, alike_escape escape _,
    alike_of_avoids rfl (by decide +kernel) sep _ more, alike_chunk ends _,
    alike_of_one rfl x cs _, fun _ => nofun⟩

end

end HybridTemplate.Lexer.Script
