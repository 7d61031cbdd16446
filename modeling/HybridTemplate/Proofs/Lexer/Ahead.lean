import HybridTemplate.Lexer.Host
import HybridTemplate.Proofs.Pattern.Locality

set_option autoImplicit false

namespace HybridTemplate.Lexer

open Pattern

namespace Host

def isAffix (c : Char) : Bool := "rbuf".toList.contains c.toLower

def IsQuote (q : Char) : Prop := q = '"' ∨ q = '\''

instance (q : Char) : Decidable (IsQuote q) := by
  unfold IsQuote
  infer_instance

def shortToEnd (q : Char) : List Char → Bool
  | [] => true
  | [c] => c ≠ '\n'
  | c :: d :: cs =>
    if c = q ∨ c = '\n' then false
    else if c = '\\' then d ≠ '\n' && shortToEnd q cs
    else shortToEnd q (d :: cs)

def longToEnd (q : Char) : List Char → Bool
  | [] => true
  | [_] => true
  | c :: d :: cs =>
    if c = '\\' then longToEnd q cs
    else if c = q ∧ d = q ∧ cs.head? = some q then cs.tail.isEmpty
    else longToEnd q (d :: cs)

/-- Whether what begins here is read without a look at the end of the text: a comment ends
with its line, a string with its quotes. -/
def settled (cs : List Char) : Bool :=
  match cs with
  | '#' :: rest => rest.contains '\n'
  | _ =>
    match cs.dropWhile isAffix with
    | [] => true
    | q :: rest =>
      if IsQuote q then
        if rest.take 2 = [q, q] then !longToEnd q (rest.drop 2) else !shortToEnd q rest
      else true

theorem IsQuote.ne {q : Char} (h : IsQuote q) : q ≠ '\\' ∧ q ≠ '\n' ∧ isAffix q = false := by
  rcases h with rfl | rfl <;> decide

theorem exists_of_take_two {x y : Char} {cs : List Char} (h : cs.take 2 = [x, y]) :
    ∃ ds, cs = x :: y :: ds :=
  ⟨cs.drop 2, by rw [← List.take_append_drop 2 cs, h]; rfl⟩

section

variable {q : Char}

def unclosed (q : Char) : List Char → Bool
  | [] => true
  | [c] => c ≠ q ∧ c ≠ '\n'
  | c :: d :: cs =>
    if c = q ∨ c = '\n' then false
    else if c = '\\' then d ≠ '\n' && unclosed q cs
    else unclosed q (d :: cs)

theorem unclosed_cons {c : Char} {cs : List Char} (h : unclosed q (c :: cs) = false) :
    c = q ∨ c = '\n' ∨
      (c = '\\' ∧ ∃ d ds, cs = d :: ds ∧ (d = '\n' ∨ unclosed q ds = false)) ∨
      (c ≠ '\\' ∧ unclosed q cs = false) := by
  cases cs with
  | nil =>
    have stops : c = q ∨ c = '\n' := by simpa [unclosed, or_iff_not_imp_left] using h
    exact stops.imp_right .inl
  | cons d ds =>
    rw [unclosed] at h
    split at h
    · rename_i stops
      exact stops.imp_right .inl
    · split at h
      · rename_i escapes
        refine .inr (.inr (.inl ⟨escapes, d, ds, rfl, ?_⟩))
        simpa [or_iff_not_imp_left] using h
      · rename_i plain
        exact .inr (.inr (.inr ⟨plain, h⟩))

theorem unclosed_of_shortToEnd {cs : List Char} (h : shortToEnd q cs = false) :
    unclosed q cs = false := by
  fun_induction shortToEnd q cs with
  | case1 => cases h
  | case2 c =>
    have newline : c = '\n' := by simpa using h
    rw [newline]
    simp [unclosed]
  | case3 c d cs stops => rw [unclosed, if_pos stops]
  | case4 d cs stops ih =>
    rw [unclosed, if_neg stops, if_pos rfl]
    simpa [or_iff_not_imp_left] using (Bool.and_eq_false_iff.mp h).imp_right ih
  | case5 c d cs stops plain ih => rw [unclosed, if_neg stops, if_neg plain, ih h]

theorem local_quoted (quote : IsQuote q) :
    Local (fun cs => cs ≠ [] ∧ ∀ ds, cs = q :: ds → unclosed q ds = false) (fun _ => True)
      (Parts.quoted q) := by
  have filled : ¬ unclosed q [] = false := by simp [unclosed]
  have plain : Local (unclosed q · = false) (unclosed q · = false)
      (.noneOf (String.ofList [q, '\\', '\n'])) := by
    refine .noneOf filled fun d ds closes other => ?_
    simp only [String.toList_ofList, List.mem_cons, List.not_mem_nil, or_false, not_or] at other
    obtain ⟨no_quote, no_escape, in_line⟩ := other
    rcases unclosed_cons closes with here | ends | ⟨escapes, -⟩ | ⟨-, later⟩
    · exact absurd here no_quote
    · exact absurd ends in_line
    · exact absurd escapes no_escape
    · exact later
  have backslash : Local (unclosed q · = false)
      (fun cs => ∃ d ds, cs = d :: ds ∧ (d = '\n' ∨ unclosed q ds = false)) (.char '\\') := by
    refine (Local.char '\\').mono fun cs closes => ⟨fun none => filled (none ▸ closes), ?_⟩
    rintro ds rfl
    rcases unclosed_cons closes with here | ends | ⟨-, escaped⟩ | ⟨other, -⟩
    · exact absurd here.symm quote.ne.1
    · exact absurd ends (by decide)
    · exact escaped
    · exact absurd rfl other
  have escaped : Local
      (fun cs => ∃ d ds, cs = d :: ds ∧ (d = '\n' ∨ unclosed q ds = false))
      (unclosed q · = false) .inLine := by
    refine .noneOf (fun none => ?_) fun d ds escape in_line => ?_
    · obtain ⟨d, ds, cons, -⟩ := none
      cases cons
    · obtain ⟨e, es, cons, stops⟩ := escape
      cases cons
      exact stops.resolve_left (by simpa using in_line)
  have closing : Local (unclosed q · = false) (fun _ => True) (.char q) :=
    (Local.char q).mono fun cs closes => ⟨fun none => filled (none ▸ closes), fun _ _ => trivial⟩
  exact .seq (.char q) (.seq (.many (.alt plain (.seq backslash escaped)) rfl) closing)

/-- A string that ends in time passes an escape or another character, or is closed here. Where it
passes a quote, a character that is no quote follows before the text ends. -/
theorem longToEnd_cons {c : Char} {cs : List Char} (h : longToEnd q (c :: cs) = false) :
    (c = '\\' ∧ ∃ d ds, cs = d :: ds ∧ longToEnd q ds = false) ∨
      (c ≠ '\\' ∧ cs ≠ [] ∧ ((c = q ∧ ∃ ds, cs = q :: q :: ds) ∨
        ((c = q → ∃ d ds, cs = d :: ds ∧ (d = q → ∃ e es, ds = e :: es ∧ e ≠ q)) ∧
          longToEnd q cs = false))) := by
  cases cs with
  | nil => cases h
  | cons d ds =>
    rw [longToEnd] at h
    split at h
    · rename_i escapes
      exact .inl ⟨escapes, d, ds, rfl, h⟩
    · rename_i plain
      refine .inr ⟨plain, List.cons_ne_nil d ds, ?_⟩
      split at h
      · rename_i closes
        obtain ⟨rfl, rfl, third⟩ := closes
        obtain ⟨e, es, rfl⟩ := List.exists_cons_of_ne_nil (l := ds) (by rintro rfl; cases third)
        obtain rfl := Option.some.inj third
        exact .inl ⟨rfl, es, rfl⟩
      · rename_i on
        refine .inr ⟨fun first => ⟨d, ds, rfl, fun second => ?_⟩, h⟩
        cases ds with
        | nil => cases h
        | cons e es =>
          refine ⟨e, es, rfl, fun third => on ⟨first, second, ?_⟩⟩
          rw [third]
          rfl

theorem local_quotes {three : String} (chars : three.toList = [q, q, q])
    {After : List Char → Prop} :
    Local (fun cs => cs ≠ [] ∧ ∀ ds, cs = q :: ds → ds ≠ [] ∧ ∀ es, ds = q :: es → es ≠ [] ∧
      ∀ fs, es = q :: fs → After fs) After (.lit three) := by
  have whole : Pattern.lit three = .seq (.char q) (.seq (.char q) (.char q)) := by
    rw [Pattern.lit, chars]
    rfl
  rw [whole]
  exact .seq (.char q) (.seq (.char q) (.char q))

def stretch : Pattern := .alt (.noneOf "\\") (.seq (.char '\\') .anyChar)

theorem reach_stretch_plain {c : Cursor} {x : Char} {cs : List Char} (plain : x ≠ '\\')
    (rest : c.rest = x :: cs) :
    reach stretch c = [⟨c.pos + 1, some x, cs, c.groups, [], c.late⟩] := by
  simp [stretch, Pattern.noneOf, Pattern.char, reach, Cursor.step, rest, plain, distinct]

theorem reach_stretch_escape {c : Cursor} {d : Char} {ds : List Char}
    (rest : c.rest = '\\' :: d :: ds) :
    reach stretch c = [⟨c.pos + 1 + 1, some d, ds, c.groups, [], c.late⟩] := by
  simp [stretch, Pattern.noneOf, Pattern.char, Pattern.anyChar, reach, Cursor.step, rest, distinct]

theorem reach_quotes {three : String} (chars : three.toList = [q, q, q]) {c : Cursor}
    {ds : List Char} (rest : c.rest = q :: q :: q :: ds) : reach (.lit three) c ≠ [] := by
  simp [Pattern.lit, chars, Pattern.seqs, Pattern.char, reach, Cursor.step, rest, distinct]

theorem onward_quotes (quote : IsQuote q) {three : String} (chars : three.toList = [q, q, q]) :
    Onward (longToEnd q · = false) stretch (.lit three) := by
  intro more c late before
  have filled : c.rest ≠ [] := by
    rintro void
    simp [void, longToEnd] at before
  obtain ⟨x, cs, rest⟩ := List.exists_cons_of_ne_nil filled
  rw [rest] at before
  have rest' : (c.extend more).rest = x :: (cs ++ more) := by simp [Cursor.extend, rest]
  have next := longToEnd_cons before
  have near : Local _ (fun _ => True) (.lit three) := local_quotes chars
  have same : reach (.lit three) (c.extend more) =
      (reach (.lit three) c).map (Cursor.extend more) := by
    refine (near more c late ⟨filled, fun ds cons => ?_⟩).1
    obtain ⟨rfl, rfl⟩ := List.cons.inj (rest.symm.trans cons)
    rcases next with ⟨escape, -⟩ | ⟨-, filled, ⟨-, ds, rfl⟩ | ⟨goes, -⟩⟩
    · exact absurd escape quote.ne.1
    · exact ⟨filled, by simp⟩
    · refine ⟨filled, ?_⟩
      rintro es rfl
      obtain ⟨d, ds, cons, third⟩ := goes rfl
      obtain ⟨rfl, rfl⟩ := List.cons.inj cons
      obtain ⟨e, es, rfl, -⟩ := third rfl
      exact ⟨List.cons_ne_nil _ _, fun _ _ => trivial⟩
  cases closes : reach (.lit three) c with
  | cons d ds => exact .inl ⟨d, rfl, by rw [same, closes]; rfl⟩
  | nil =>
    refine .inr ⟨rfl, by rw [same, closes]; rfl, ?_⟩
    rcases next with ⟨rfl, d, ds, rfl, there⟩ | ⟨plain, -, ⟨rfl, ds, rfl⟩ | ⟨-, there⟩⟩
    · exact ⟨_, reach_stretch_escape rest, reach_stretch_escape rest', late, there⟩
    · exact absurd closes (reach_quotes chars rest)
    · exact ⟨_, reach_stretch_plain plain rest, reach_stretch_plain plain rest', late, there⟩

end

def Quoted (cs : List Char) : Prop := ∃ q, IsQuote q ∧ cs.getLast? = some q

namespace Quoted

variable {cs : List Char}

theorem ne_nil (h : Quoted cs) : cs ≠ [] := by
  rintro rfl
  obtain ⟨q, -, last⟩ := h
  cases last

theorem mem (h : Quoted cs) : '"' ∈ cs ∨ '\'' ∈ cs := by
  obtain ⟨q, rfl | rfl, last⟩ := h
  · exact .inl (List.mem_of_getLast? last)
  · exact .inr (List.mem_of_getLast? last)

theorem drop (h : Quoted cs) (n : Nat) : cs.drop n = [] ∨ Quoted (cs.drop n) := by
  refine or_iff_not_imp_left.mpr fun filled => ?_
  obtain ⟨q, quote, last⟩ := h
  refine ⟨q, quote, ?_⟩
  rw [List.getLast?_drop, if_neg (by simpa using filled), last]

theorem behind {front back : List Char} (h : Quoted (front ++ back))
    (letters : ∀ c ∈ front, isAffix c = true) : back ≠ [] := by
  rintro rfl
  obtain ⟨q, quote, last⟩ := h
  rw [List.append_nil] at last
  exact absurd (letters q (List.mem_of_getLast? last)) (by simp [quote.ne.2.2])

end Quoted

/-- The text ends with a quote, and what it begins with is over before that. -/
structure Closed (cs : List Char) : Prop where
  quoted : Quoted cs
  settled : settled cs = true

theorem Closed.string {front back : List Char} {q : Char} (h : Closed (front ++ q :: back))
    (quote : IsQuote q) (letters : ∀ c ∈ front, isAffix c = true) :
    if back.take 2 = [q, q] then longToEnd q (back.drop 2) = false
    else shortToEnd q back = false := by
  have string : (front ++ q :: back).dropWhile isAffix = q :: back := by
    rw [List.dropWhile_append_of_pos letters, List.dropWhile_cons_of_neg (by simp [quote.ne.2.2])]
  have known := h.settled
  unfold Host.settled at known
  split at known
  · rename_i rest cons
    cases front with
    | nil =>
      cases cons
      exact absurd quote (by decide)
    | cons c front =>
      cases cons
      exact absurd (letters '#' List.mem_cons_self) (by decide)
  · rw [string] at known
    simp only [quote, if_true] at known
    split at known
    · rename_i three
      rw [if_pos three]
      simpa using known
    · rename_i one
      rw [if_neg one]
      simpa using known

end Host

/-- A rule that reads the same at the beginning of such a text and of a longer one. -/
def Steady (Before : List Char → Prop) (rule : Rule) : Prop :=
  ∀ cs more, Before cs → rule.matcher.matchAt? (cs ++ more) = rule.matcher.matchAt? cs

namespace Steady

variable {Before Before' : List Char → Prop} {p : Pattern} {rule : Rule}

theorem mono (h : Steady Before rule) (weaker : ∀ cs, Before' cs → Before cs) :
    Steady Before' rule :=
  fun cs more before => h cs more (weaker cs before)

theorem of_first (same : rule.matcher = p.matcher) (h : LocalFirst Before p)
    (fixed : p.dependsOnDelay = false) : Steady Before rule := by
  intro cs more before
  rw [same]
  exact h.matchAt?_append fixed before more

/-- A rule that accepts no quotes does not see beyond one. -/
theorem of_avoids (same : rule.matcher = p.matcher)
    (h : p.avoids '"' = true ∧ p.avoids '\'' = true) : Steady Host.Quoted rule := by
  intro cs more quoted
  rw [same]
  exact quoted.mem.elim (matchAt?_of_avoids h.1 · more) (matchAt?_of_avoids h.2 · more)

end Steady

namespace Host

theorem steady_comment :
    Steady Closed (.token (.seq (.char '#') (.many .inLine)) .commentSingle) := by
  have line : Local ('\n' ∈ ·) ('\n' ∈ ·) (.many .inLine) := by
    refine .many (.noneOf (by simp) fun d ds ends inside => ?_) rfl
    exact (List.mem_cons.mp ends).resolve_left fun same => inside (by simp [← same])
  refine (Steady.of_first rfl (Local.seq (.char '#') line).first (by decide)).mono ?_
  refine fun cs closed => ⟨closed.quoted.ne_nil, ?_⟩
  rintro ds rfl
  simpa [Host.settled] using closed.settled

theorem steady_shortString {q : Char} (quote : IsQuote q) :
    Steady Closed (.grouped (shortString q) [.stringAffix, .string]) := by
  have reading := ((Local.upTo isAffix 2).group 1).seq ((local_quoted quote).group 2)
  have fixed : (shortString q).dependsOnDelay = false := by
    rcases quote with rfl | rfl <;> decide
  refine (Steady.of_first rfl reading.first fixed).mono ?_
  rintro cs closed front back - letters rfl
  refine ⟨closed.quoted.behind letters, closed.quoted.behind letters, ?_⟩
  rintro ds rfl
  have known := closed.string quote letters
  refine unclosed_of_shortToEnd ?_
  split at known
  · rename_i three
    obtain ⟨es, rfl⟩ := exists_of_take_two three
    simp [shortToEnd]
  · exact known

theorem steady_longString {q : Char} (quote : IsQuote q) {three : String}
    (chars : three.toList = [q, q, q]) :
    Steady Closed (.grouped (longString three) [.stringAffix, .string]) := by
  have reading := ((Local.upTo isAffix 2).group 1).seq_first
    (((local_quotes chars).seq_first ((onward_quotes quote chars).few rfl)).group 2)
  have fixed : (longString three).dependsOnDelay = false := by
    obtain rfl : three = String.ofList [q, q, q] := by rw [← chars, String.ofList_toList]
    rcases quote with rfl | rfl <;> decide
  refine (Steady.of_first rfl reading fixed).mono ?_
  rintro cs closed front back - letters rfl
  refine ⟨closed.quoted.behind letters, closed.quoted.behind letters, ?_⟩
  rintro ds rfl
  have known := closed.string quote letters
  refine ⟨?_, ?_⟩
  · rintro rfl
    simp [shortToEnd] at known
  · rintro es rfl
    refine ⟨?_, ?_⟩
    · rintro rfl
      simp [shortToEnd, quote.ne.2.1] at known
    · rintro fs rfl
      simpa using known

theorem steady_rules : ∀ rule ∈ rules, Steady Closed rule := by
  have double : IsQuote '"' := .inl rfl
  have single : IsQuote '\'' := .inr rfl
  have plain {rule : Rule} {p : Pattern} (same : rule.matcher = p.matcher)
      (h : p.avoids '"' = true ∧ p.avoids '\'' = true) : Steady Closed rule :=
    (Steady.of_avoids same h).mono fun _ => Closed.quoted
  simp only [rules, List.forall_mem_cons]
  refine ⟨?_, ?_, steady_comment, steady_longString double rfl, steady_longString single rfl,
    steady_shortString double, steady_shortString single, ?_, ?_, ?_, ?_, ?_, ?_, ?_, ?_, ?_, ?_,
    ?_, fun _ => nofun⟩
  all_goals exact plain rfl (by decide +kernel)

end Host

end HybridTemplate.Lexer
