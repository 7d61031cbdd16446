import HybridTemplate.Proofs.Lexer.Categories
import HybridTemplate.Proofs.Pattern.Beginnings

set_option autoImplicit false

namespace HybridTemplate.Lexer

open Pattern

variable {l : Lexer} {stack : List String} {front back cs : List Char}
  {rule : Rule} {before after : List Rule} {m : Pattern.Match} {category : Category} {x : Char}

/-- The rule does not match where the character comes first. -/
def Silent (x : Char) (rule : Rule) : Prop := ∀ cs, rule.matcher.matchAt? (x :: cs) = none

/-- Rules are silent where no match of their patterns can begin. -/
theorem silent_of_begins {rules : List Rule} (ps : List Pattern)
    (same : rules.map Rule.matcher = ps.map Pattern.matcher)
    (h : ∀ p ∈ ps, p.begins x = false ∧ p.consumes = true) : ∀ rule ∈ rules, Silent x rule := by
  intro rule hr cs
  have known : rule.matcher ∈ ps.map Pattern.matcher := same ▸ List.mem_map_of_mem hr
  obtain ⟨p, hp, matcher⟩ := List.mem_map.mp known
  obtain ⟨begins, consumes⟩ := h p hp
  rw [← matcher]
  exact matchAt?_of_not_begins begins consumes cs

/-- What holds of each ASCII character can be seen from their numbers. -/
theorem forall_ascii {P : Char → Prop} (h : ∀ n < 128, P (Char.ofNat n)) (ascii : x.val < 128) :
    P x := by
  have known := h x.toNat (UInt32.lt_iff_toNat_lt.mp ascii)
  rwa [Char.ofNat_toNat] at known

theorem firstMatch?_append_silent {rules : List Rule}
    (silent : ∀ r ∈ before, r.matcher.matchAt? cs = none) :
    firstMatch? stack cs (before ++ rules) = firstMatch? stack cs rules := by
  induction before with
  | nil => rfl
  | cons r before ih =>
    obtain ⟨here, later⟩ := List.forall_mem_cons.mp silent
    rw [List.cons_append, firstMatch?, here]
    exact ih later

theorem firstMatch?_ne_none {rules : List Rule} (mem : rule ∈ rules)
    (found : rule.matcher.matchAt? cs = some m) (filled : m.length ≠ 0) :
    firstMatch? stack cs rules ≠ none := by
  induction rules with
  | nil => cases mem
  | cons r rules ih =>
    rw [firstMatch?]
    rcases List.mem_cons.mp mem with rfl | mem
    · rw [found]
      simp [filled]
    · split
      · exact ih mem
      · split
        · exact ih mem
        · exact Option.some_ne_none _

theorem firstMatch?_of_first (skipped : ∀ r ∈ before, r.matcher.matchAt? cs = none)
    (found : rule.matcher.matchAt? cs = some m) (filled : m.length ≠ 0) :
    firstMatch? stack cs (before ++ rule :: after) = some (Rule.taken rule stack cs m) := by
  rw [firstMatch?_append_silent skipped, firstMatch?, found]
  exact if_neg fun void => filled void.1

theorem step_of_first (stack : List String)
    (rules : l.rules (stack.headD "root") = before ++ rule :: after)
    (skipped : ∀ r ∈ before, r.matcher.matchAt? (x :: cs) = none)
    (found : rule.matcher.matchAt? (x :: cs) = some m) (filled : m.length ≠ 0) :
    l.step stack x cs = Rule.taken rule stack (x :: cs) m := by
  rw [step, rules, firstMatch?_of_first skipped found filled]
  rfl

/-- Where the lexer stands after a match of a rule before which no rule matches. -/
theorem next?_of_first (stack : List String) (n : Nat) (front back : List Char)
    (rules : l.rules (stack.headD "root") = before ++ rule :: after)
    (skipped : ∀ r ∈ before, r.matcher.matchAt? (front ++ back) = none)
    (found : rule.matcher.matchAt? (front ++ back) = some m) (length : m.length = front.length)
    (filled : front ≠ []) :
    l.next? ⟨stack, n, front ++ back⟩ =
      some ⟨rule.transition.apply stack, n + Text.byteLength front, back⟩ := by
  obtain ⟨c, cs, cons⟩ := List.exists_cons_of_ne_nil (l := front ++ back) (by simp [filled])
  rw [cons] at skipped found
  have taken := step_of_first stack rules skipped found
    (length ▸ mt List.eq_nil_of_length_eq_zero filled)
  rw [next?, cons]
  dsimp only
  rw [taken, Rule.taken, ← cons]
  dsimp only
  rw [length, List.take_left, List.drop_left]

/-- A rule that makes a token of its match, and before which no rule matches. -/
theorem categories_of_first (stack : List String) (front back : List Char)
    (rules : l.rules (stack.headD "root") = before ++ rule :: after)
    (skipped : ∀ r ∈ before, r.matcher.matchAt? (front ++ back) = none)
    (found : rule.matcher.matchAt? (front ++ back) = some m) (length : m.length = front.length)
    (filled : front ≠ []) (action : rule.action = .token category) :
    l.categories stack (front ++ back) = List.replicate (Text.byteLength front) category ++
      l.categories (rule.transition.apply stack) back := by
  obtain ⟨c, cs, cons⟩ := List.exists_cons_of_ne_nil (l := front ++ back) (by simp [filled])
  have taken : l.step stack c cs = Rule.taken rule stack (front ++ back) m := by
    rw [cons] at skipped found ⊢
    exact step_of_first stack rules skipped found
      (length ▸ mt List.eq_nil_of_length_eq_zero filled)
  have passed : (front ++ back).take m.length = front := by rw [length, List.take_left]
  have left : (front ++ back).drop m.length = back := by rw [length, List.drop_left]
  rw [cons, categories_cons, taken, ← cons, Rule.taken]
  dsimp only
  rw [passed, left, action]
  simp [Action.pieces, piece, byteSize_ofList]

theorem categories_of_char (stack : List String) {accepts : Char → Bool}
    (rules : l.rules (stack.headD "root") = before ++ rule :: after)
    (silent : ∀ r ∈ before, Silent x r) (same : rule.matcher = (one accepts).matcher)
    (ok : accepts x = true) (action : rule.action = .token category) (cs : List Char) :
    l.categories stack (x :: cs) = List.replicate x.utf8Size category ++
      l.categories (rule.transition.apply stack) cs := by
  have found : rule.matcher.matchAt? ([x] ++ cs) = some ⟨1, []⟩ := by
    rw [same]
    exact (matchAt?_one x cs).trans (if_pos ok)
  have read := categories_of_first stack [x] cs rules (fun r hr => silent r hr cs) found rfl
    (List.cons_ne_nil x []) action
  simpa using read

/-- A stretch that one rule accepts is read character by character, whatever follows. -/
theorem categories_stretch (stack : List String) {accepts : Char → Bool}
    (rules : l.rules (stack.headD "root") =
      before ++ .token (many1 (one accepts)) category :: after)
    (silent : ∀ x, accepts x = true → ∀ r ∈ before, Silent x r) {w : List Char}
    (all : ∀ x ∈ w, accepts x = true) (cs : List Char) :
    l.categories stack (w ++ cs) =
      List.replicate (Text.byteLength w) category ++ l.categories stack cs := by
  have greedy (x : Char) (cs : List Char) (ok : accepts x = true) :
      l.categories stack (x :: cs) =
        List.replicate (Text.byteLength ((x :: cs).takeWhile accepts)) category ++
          l.categories stack ((x :: cs).dropWhile accepts) := by
    have split := List.takeWhile_append_dropWhile (p := accepts) (l := x :: cs)
    have filled : (x :: cs).takeWhile accepts ≠ [] := by simp [ok]
    have read := categories_of_first stack ((x :: cs).takeWhile accepts)
      ((x :: cs).dropWhile accepts) (m := ⟨((x :: cs).takeWhile accepts).length, []⟩) rules
      (fun r hr => ?_) ?_ rfl filled rfl
    · rw [split] at read
      exact read
    · rw [split]
      exact silent x ok r hr cs
    · rw [split]
      exact matchAt?_many1_cons ok cs
  have single (x : Char) (cs : List Char) (ok : accepts x = true) :
      l.categories stack (x :: cs) =
        List.replicate x.utf8Size category ++ l.categories stack cs := by
    rw [greedy x cs ok, List.takeWhile_cons_of_pos ok, List.dropWhile_cons_of_pos ok]
    cases cs with
    | nil => simp
    | cons y cs =>
      by_cases next : accepts y = true
      · rw [greedy y cs next, Text.byteLength_cons, ← List.replicate_append_replicate,
          List.append_assoc]
      · rw [List.takeWhile_cons_of_neg next, List.dropWhile_cons_of_neg next]
        simp
  induction w with
  | nil => simp
  | cons x w ih =>
    obtain ⟨ok, later⟩ := List.forall_mem_cons.mp all
    rw [List.cons_append, single x _ ok, ih later, Text.byteLength_cons,
      ← List.replicate_append_replicate, List.append_assoc]

section

variable {inner : Lexer} {below : List String} {own rules : List Rule} {more : List Char}

theorem firstMatch?_stays (stays : ∀ r ∈ rules, r.transition = .stay)
    (same : ∀ r ∈ rules, r.matcher.matchAt? (cs ++ more) = r.matcher.matchAt? cs) :
    firstMatch? stack (cs ++ more) rules =
      (firstMatch? below cs rules).map fun s => { s with stack := stack } := by
  induction rules with
  | nil => rfl
  | cons r rules ih =>
    obtain ⟨stay, stays⟩ := List.forall_mem_cons.mp stays
    obtain ⟨here, later⟩ := List.forall_mem_cons.mp same
    rw [firstMatch?, firstMatch?, here, ih stays later, stay]
    cases found : r.matcher.matchAt? cs with
    | none => rfl
    | some m =>
      have passed : (cs ++ more).take m.length = cs.take m.length :=
        List.take_append_of_le_length (r.matcher.within cs m found).1
      by_cases void : m.length = 0
      · simp [void]
      · simp [void, passed, Transition.apply]

/-- Where a state has the rules of another lexer, behind rules that are silent, and nothing there
sees beyond the text, a step is the other lexer's. -/
theorem step_embedded {c : Char}
    (split : l.rules (stack.headD "root") = own ++ inner.rules (below.headD "root"))
    (stays : ∀ r ∈ inner.rules (below.headD "root"), r.transition = .stay)
    (silent : ∀ r ∈ own, r.matcher.matchAt? (c :: cs ++ more) = none)
    (same : ∀ r ∈ inner.rules (below.headD "root"),
      r.matcher.matchAt? (c :: cs ++ more) = r.matcher.matchAt? (c :: cs))
    (ends : c = '\n' → firstMatch? below (c :: cs) (inner.rules (below.headD "root")) ≠ none) :
    l.step stack c (cs ++ more) = { inner.step below c cs with stack := stack } := by
  have first : firstMatch? stack (c :: (cs ++ more)) (l.rules (stack.headD "root")) =
      (firstMatch? below (c :: cs) (inner.rules (below.headD "root"))).map
        fun s => { s with stack := stack } := by
    rw [split]
    exact (firstMatch?_append_silent silent).trans (firstMatch?_stays stays same)
  rw [step, step, first]
  cases found : firstMatch? below (c :: cs) (inner.rules (below.headD "root")) with
  | some s => rfl
  | none =>
    have inLine : c ≠ '\n' := fun ends' => ends ends' found
    simp [recovery, inLine]

theorem step_stays (stays : ∀ r ∈ inner.rules (below.headD "root"), r.transition = .stay) (c : Char)
    (cs : List Char)
    (ends : c = '\n' → firstMatch? below (c :: cs) (inner.rules (below.headD "root")) ≠ none) :
    (inner.step below c cs).stack = below ∧ 0 < (inner.step below c cs).length := by
  cases found : firstMatch? below (c :: cs) (inner.rules (below.headD "root")) with
  | some s =>
    obtain ⟨r, hr, m, -, counts, rfl⟩ := firstMatch?_cases found
    have stay := stays r hr
    rw [step, found]
    refine ⟨?_, counts.resolve_right ?_⟩
    · rw [Option.getD_some, Rule.taken, stay]
      rfl
    · rw [stay]
      rintro ⟨pops, -⟩
      cases pops
  | none =>
    have inLine : c ≠ '\n' := fun ends' => ends ends' found
    rw [step, found]
    simp [recovery, inLine]

/-- A text in such a state is read as the other lexer reads it alone. -/
theorem categories_embedded (inner : Lexer) (stack below : List String)
    (split : l.rules (stack.headD "root") = own ++ inner.rules (below.headD "root"))
    (stays : ∀ r ∈ inner.rules (below.headD "root"), r.transition = .stay)
    (ends : ∀ ds, firstMatch? below ('\n' :: ds) (inner.rules (below.headD "root")) ≠ none)
    (text : List Char)
    (silent : ∀ ds, ds <:+ text → ds ≠ [] → ∀ r ∈ own, r.matcher.matchAt? (ds ++ more) = none)
    (same : ∀ ds, ds <:+ text → ds ≠ [] → ∀ r ∈ inner.rules (below.headD "root"),
      r.matcher.matchAt? (ds ++ more) = r.matcher.matchAt? ds) :
    l.categories stack (text ++ more) =
      inner.categories below text ++ l.categories stack more := by
  match text with
  | [] => simp
  | c :: cs =>
    have whole := List.suffix_refl (c :: cs)
    have filled := List.cons_ne_nil c cs
    have newline : c = '\n' →
        firstMatch? below (c :: cs) (inner.rules (below.headD "root")) ≠ none := by
      rintro rfl
      exact ends cs
    obtain ⟨stay, long⟩ := step_stays stays c cs newline
    have within := inner.length_step_le below c cs
    have later : (c :: cs).drop (inner.step below c cs).length <:+ c :: cs :=
      List.drop_suffix _ _
    have rest := categories_embedded inner stack below split stays ends
      ((c :: cs).drop (inner.step below c cs).length)
      (fun ds hds => silent ds (hds.trans later)) (fun ds hds => same ds (hds.trans later))
    rw [List.cons_append, categories_cons, categories_cons,
      step_embedded split stays (silent _ whole filled) (same _ whole filled) newline]
    dsimp only
    rw [← List.cons_append, List.drop_append_of_le_length within, rest, stay, List.append_assoc]
termination_by text.length
decreasing_by
  simp only [List.length_drop, List.length_cons]
  omega

end

end HybridTemplate.Lexer
