import HybridTemplate.Proofs.Lexer.Literals

set_option autoImplicit false

namespace HybridTemplate.Lexer.FormatString

open Pattern Host

/-- A character of a literal's text: no brace, backslash or quote, and no end of a line where a
single quote encloses it. -/
def isPlain (triple : Bool) (c : Char) : Bool :=
  !"\x7b\x7d\\\"'".toList.contains c && (triple || c ≠ '\n')

def isHostChar (c : Char) : Bool := !"\"'\\#!\x7b\x7d".toList.contains c

abbrev Chunk (triple : Bool) := { w : List Char // ∀ c ∈ w, isPlain triple c = true }

abbrev Expression := { e : List Char // ∀ c ∈ e, isHostChar c = true }

abbrev Brace := { c : Char // c = '{' ∨ c = '}' }

theorem Brace.byteLength_twice (brace : Brace) : Text.byteLength [brace.1, brace.1] = 2 := by
  rcases brace.2 with brace | brace <;> rw [brace] <;> rfl

def Chunk.empty {triple : Bool} : Chunk triple := ⟨[], fun _ => nofun⟩

def Chunk.append {triple : Bool} (w v : Chunk triple) : Chunk triple :=
  ⟨w.1 ++ v.1, List.forall_mem_append.mpr ⟨w.2, v.2⟩⟩

/-- What the body of a literal is made of. -/
inductive Part (triple : Bool) where
  | chunk (w : Chunk triple)
  | doubled (brace : Brace)
  | interpolation (e : Expression)

def Part.chars {triple : Bool} : Part triple → List Char
  | .chunk w => w.1
  | .doubled brace => [brace.1, brace.1]
  | .interpolation e => '{' :: (e.1 ++ ['}'])

structure Quoting where
  letters : List Char
  short : letters.length ≤ 3
  known : ∀ c ∈ letters, c ∈ "rbufRBUF".toList
  quote : Char
  isQuote : IsQuote quote
  triple : Bool

namespace Quoting

def count (q : Quoting) : Nat := if q.triple then 3 else 1

def quotes (q : Quoting) : List Char := List.replicate q.count q.quote

def enclose (q : Quoting) (body : List Char) : List Char :=
  q.letters ++ (q.quotes ++ (body ++ q.quotes))

end Quoting

theorem isAffix_iff {c : Char} : isAffix c = true ↔ c ∈ "rbufRBUF".toList := by
  let Known (c : Char) : Prop := isAffix c = true ↔ c ∈ "rbufRBUF".toList
  have codes : ∀ n < 128, Known (Char.ofNat n) := by decide +kernel
  refine ⟨fun letter => ?_, fun listed => ?_⟩
  · refine (forall_ascii codes ?_).mp letter
    by_cases upper : 'A'.val ≤ c.val ∧ c.val ≤ 'Z'.val
    · exact UInt32.lt_of_le_of_lt upper.2 (by decide)
    · have same : c.toLower = c := dif_neg upper
      have members : "rbuf".toList.all (fun c => decide (c.val < 128)) = true := by decide
      rw [isAffix, same] at letter
      exact of_decide_eq_true (List.all_eq_true.mp members c (by simpa using letter))
  · have all : "rbufRBUF".toList.all isAffix = true := by decide
    exact List.all_eq_true.mp all c listed

theorem Quoting.leads (q : Quoting) : Leads q.letters :=
  ⟨q.short, fun c hc => isAffix_iff.mpr (q.known c hc)⟩

variable {triple : Bool} {w cs back more : List Char} {n : Nat} {p : Pattern}

/-- Text that is no different from the letters of a prefix. -/
def Mistakable (w : List Char) : Prop := w ≠ [] ∧ w.length ≤ 3 ∧ ∀ c ∈ w, c ∈ "rbufRBUF".toList

instance (w : List Char) : Decidable (Mistakable w) :=
  decidable_of_iff (w ≠ [] ∧ w.length ≤ 3 ∧ w.all ("rbufRBUF".toList.contains ·) = true) (by
    simp only [Mistakable, List.all_eq_true, List.contains_eq_mem, decide_eq_true_eq])

theorem mistakable_iff : Mistakable w ↔ w ≠ [] ∧ Leads w := by
  refine and_congr_right fun _ => ⟨fun ⟨short, known⟩ => ?_, fun leads => ?_⟩
  · exact ⟨short, fun c hc => isAffix_iff.mpr (known c hc)⟩
  · exact ⟨leads.short, fun c hc => isAffix_iff.mp (leads.letters c hc)⟩

theorem not_isQuote_behind {front rest : List Char} {x : Char} (free : ∀ c ∈ w, ¬ IsQuote c)
    (stops : ∀ c, back.head? = some c → isAffix c = false ∧
      (IsQuote c → ¬ (w.length ≤ n ∧ ∀ d ∈ w, isAffix d = true)))
    (short : front.length ≤ n) (letters : ∀ c ∈ front, isAffix c = true)
    (split : w ++ back = front ++ x :: rest) : ¬ IsQuote x := by
  rcases List.append_eq_append_iff.mp split with ⟨as, rfl, behind⟩ | ⟨bs, rfl, behind⟩
  · cases as with
    | nil =>
      rw [List.append_nil] at short letters
      exact fun quote => (stops x (by rw [behind]; rfl)).2 quote ⟨short, letters⟩
    | cons a as =>
      have letter := letters a (by simp)
      have other := (stops a (by rw [behind]; rfl)).1
      exact absurd letter (by simp [other])
  · cases bs with
    | nil =>
      rw [List.append_nil] at stops
      rw [List.nil_append] at behind
      exact fun quote => (stops x (by rw [← behind]; rfl)).2 quote ⟨short, letters⟩
    | cons b bs =>
      obtain ⟨rfl, -⟩ := List.cons.inj behind
      exact free x (by simp)

/-- A string is not matched where no quote comes first or behind letters of a prefix. -/
theorem matchAt?_affixed (opens : ∀ x, ¬ IsQuote x → p.begins x = false)
    (consumes : p.consumes = true) (free : ∀ c ∈ w, ¬ IsQuote c)
    (stops : ∀ c, back.head? = some c → isAffix c = false ∧
      (IsQuote c → ¬ (w.length ≤ n ∧ ∀ d ∈ w, isAffix d = true))) :
    (seq (group 1 (affix n)) (group 2 p)).matchAt? (w ++ back) = none := by
  refine matchAt?_of_unreached fun d hd => ?_
  obtain ⟨e, he, hd⟩ := exists_of_mem_seq hd
  obtain ⟨front, short, letters, split⟩ : ∃ front : List Char, front.length ≤ n ∧
      (∀ c ∈ front, isAffix c = true) ∧ w ++ back = front ++ e.rest := by
    obtain ⟨f, hf, rfl⟩ := List.mem_map.mp he
    exact rest_of_mem_upTo hf
  have shorter := length_lt_of_consumes (p := group 2 p) consumes hd
  cases rest : e.rest with
  | nil =>
    rw [rest] at shorter
    cases shorter
  | cons x cs =>
    rw [rest] at split
    have other := not_isQuote_behind free stops short letters split
    rw [reach_of_not_begins (p := group 2 p) (opens x other) consumes rest] at hd
    cases hd

def stateOf (triple : Bool) : String := if triple then "triple" else "single"

theorem textual_stateOf (triple : Bool) : Textual (stateOf triple) := by
  cases triple
  · exact .inl rfl
  · exact .inr rfl

theorem rules_stateOf (triple : Bool) : ∃ escaped, lexer.rules (stateOf triple) =
    [quotes, doubledBrace, opensInterpolation, .token (seq (char '\\') escaped) .stringEscape] ++
      .token (many1 (one (isPlain triple))) .string :: [] := by
  cases triple with
  | false =>
    have plain : isPlain false = fun c => !"\x7b\x7d\\\n\"'".toList.contains c := by
      funext c
      simp [isPlain, Bool.and_assoc, Bool.and_comm, Bool.and_left_comm]
    rw [plain]
    exact ⟨inLine, rfl⟩
  | true =>
    have plain : isPlain true = fun c => !"\x7b\x7d\\\"'".toList.contains c := by
      funext c
      rw [isPlain, Bool.true_or, Bool.and_true]
    rw [plain]
    exact ⟨anyChar, rfl⟩

theorem not_isQuote_of_isPlain {c : Char} (plain : isPlain triple c = true) : ¬ IsQuote c := by
  rintro (rfl | rfl) <;> cases triple <;> cases plain

theorem silent_of_isPlain (escaped : Pattern) {x : Char} (plain : isPlain triple x = true) :
    ∀ r ∈ [doubledBrace, opensInterpolation, .token (seq (char '\\') escaped) .stringEscape],
      Silent x r := by
  refine silent_of_begins
    [alt (lit "\x7b\x7b") (lit "\x7d\x7d"), char '{', seq (char '\\') escaped] rfl ?_
  simp only [isPlain, Bool.and_eq_true, Bool.not_eq_true', List.contains_eq_mem,
    decide_eq_false_iff_not] at plain
  have members : x ≠ '{' ∧ x ≠ '}' ∧ x ≠ '\\' := by
    refine ⟨?_, ?_, ?_⟩ <;> rintro rfl <;> exact plain.1 (by decide)
  simp only [List.forall_mem_cons]
  refine ⟨⟨?_, rfl⟩, ⟨?_, rfl⟩, ⟨?_, rfl⟩, fun _ => nofun⟩
  · simp [lit, seqs, Pattern.char, begins, consumes, members]
  · simp [Pattern.char, begins, members]
  · simp [Pattern.char, begins, consumes, members]

/-- A stretch of text is a piece of the string, but where it stands before a quote and could be a
prefix. -/
theorem categories_text (w : Chunk triple)
    (stops : ∀ c, back.head? = some c → isPlain triple c = false ∧ isAffix c = false ∧
      (IsQuote c → ¬ Mistakable w.1)) :
    lexer.categories [stateOf triple] (w.1 ++ back) =
      List.replicate (Text.byteLength w.1) .string ++
        lexer.categories [stateOf triple] back := by
  obtain ⟨w, plain⟩ := w
  cases w with
  | nil => simp
  | cons x w =>
    obtain ⟨escaped, rules⟩ := rules_stateOf triple
    refine categories_of_first [stateOf triple] (x :: w) back rules ?_
      (matchAt?_many1 plain (fun c first => (stops c first).1) (List.cons_ne_nil x w)) rfl
      (List.cons_ne_nil x w) rfl
    refine List.forall_mem_cons.mpr ⟨?_, fun r hr =>
      silent_of_isPlain escaped (plain x List.mem_cons_self) r hr (w ++ back)⟩
    rw [matcher_quotes, matcher_matchAt?]
    refine matchAt?_affixed (fun c other => ?_) rfl
      (fun c hc => not_isQuote_of_isPlain (plain c hc)) fun c first => ?_
    · have unequal := not_or.mp other
      simp [anyQuotes, alts, lit, seqs, Pattern.char, begins, consumes, unequal]
    · obtain ⟨-, other, taken⟩ := stops c first
      exact ⟨other, fun quote leads => taken quote
        (mistakable_iff.mpr ⟨List.cons_ne_nil x w, leads.1, leads.2⟩)⟩

theorem isPlain_brace (triple : Bool) (brace : Brace) :
    isPlain triple brace.1 = false ∧ isAffix brace.1 = false ∧ ¬ IsQuote brace.1 := by
  rcases brace.2 with opens | closes
  · rw [opens]
    cases triple <;> decide
  · rw [closes]
    cases triple <;> decide

theorem categories_text_brace (w : Chunk triple) (brace : Brace) (cs : List Char) :
    lexer.categories [stateOf triple] (w.1 ++ brace.1 :: cs) =
      List.replicate (Text.byteLength w.1) .string ++
        lexer.categories [stateOf triple] (brace.1 :: cs) := by
  refine categories_text w fun c first => ?_
  obtain rfl := Option.some.inj first
  obtain ⟨stops, other, quote⟩ := isPlain_brace triple brace
  exact ⟨stops, other, fun isQuote => absurd isQuote quote⟩

theorem silent_quotes (brace : Brace) : Silent brace.1 quotes := by
  have other : (seq (group 1 (affix 3)) (group 2 anyQuotes)).begins brace.1 = false := by
    rcases brace.2 with opens | closes
    · rw [opens]
      decide
    · rw [closes]
      decide
  intro cs
  rw [matcher_quotes, matcher_matchAt?]
  exact matchAt?_of_not_begins other rfl cs

theorem categories_doubled (brace : Brace) (cs : List Char) :
    lexer.categories [stateOf triple] (brace.1 :: brace.1 :: cs) =
      List.replicate 2 .stringEscape ++ lexer.categories [stateOf triple] cs := by
  obtain ⟨escaped, rules⟩ := rules_stateOf triple
  have found : doubledBrace.matcher.matchAt? ([brace.1, brace.1] ++ cs) = some ⟨2, []⟩ := by
    refine (matchAt?_eq (p := alt (lit "\x7b\x7b") (lit "\x7d\x7d")) rfl _).trans ?_
    rcases brace.2 with brace | brace <;> rw [brace] <;>
      simp [lit, seqs, Pattern.char, reach, Cursor.step, Cursor.atStart, distinct]
  have second : lexer.rules (stateOf triple) = [quotes] ++ doubledBrace :: _ := rules
  have read := categories_of_first [stateOf triple] [brace.1, brace.1] cs second
    (List.forall_mem_singleton.mpr (silent_quotes brace _)) found rfl (List.cons_ne_nil _ _) rfl
  rw [brace.byteLength_twice] at read
  exact read

theorem categories_opening (single : cs.head? ≠ some '{') :
    lexer.categories [stateOf triple] ('{' :: cs) =
      .stringInterpol :: lexer.categories ["interp", stateOf triple] cs := by
  obtain ⟨escaped, rules⟩ := rules_stateOf triple
  have undoubled : (alt (lit "\x7b\x7b") (lit "\x7d\x7d")).matchAt? ('{' :: cs) = none := by
    refine matchAt?_of_unreached fun d hd => ?_
    rcases List.mem_append.mp hd with opens | closes
    · have rest : '{' :: cs = '{' :: '{' :: d.rest := rest_of_mem_lit opens
      refine single ?_
      rw [(List.cons.inj rest).2]
      rfl
    · have rest : '{' :: cs = '}' :: '}' :: d.rest := rest_of_mem_lit closes
      cases rest
  have third : lexer.rules (stateOf triple) =
    [quotes, doubledBrace] ++ opensInterpolation :: _ := rules
  exact categories_of_first [stateOf triple] ['{'] cs third
    (List.forall_mem_cons.mpr ⟨silent_quotes ⟨'{', .inl rfl⟩ cs,
      List.forall_mem_singleton.mpr undoubled⟩) (matchAt?_char '{' cs) rfl (List.cons_ne_nil _ _)
    rfl

theorem categories_closing {state : String} {below : List String} (cs : List Char) :
    lexer.categories ("interp" :: state :: below) ('}' :: cs) =
      .stringInterpol :: lexer.categories (state :: below) cs := by
  have pops : lexer.rules "interp" = [] ++
      .pop (char '}') .stringInterpol :: (interpolationRules.tail ++ Host.rules) := rfl
  exact categories_of_char ("interp" :: state :: below) pops (fun _ => nofun) rfl
    (beq_self_eq_true '}') rfl cs

theorem stays_host : ∀ r ∈ Host.rules, r.transition = .stay := by
  decide +kernel

/-- The rule for blanks comes first, so the end of a line never goes unread. -/
theorem host_newline (ds : List Char) : firstMatch? ["root"] ('\n' :: ds) Host.rules ≠ none := by
  have blank : Text.isBlank '\n' = true := rfl
  have found := matchAt?_many1_cons blank ds
  rw [List.takeWhile_cons_of_pos blank] at found
  have first : Host.rules = .token (many1 (one Text.isBlank)) .whitespace :: Host.rules.tail := rfl
  rw [first]
  exact firstMatch?_ne_none List.mem_cons_self found (Nat.succ_ne_zero _)

theorem not_isQuote_of_isHostChar {c : Char} (free : isHostChar c = true) : ¬ IsQuote c := by
  rintro (rfl | rfl) <;> cases free

theorem matchAt?_string {r : Rule}
    (same : r.matcher = (seq (group 1 (affix 2)) (group 2 p)).matcher)
    (opens : ∀ c, ¬ IsQuote c → p.begins c = false) (consumes : p.consumes = true) {e : List Char}
    (free : ∀ c ∈ e, isHostChar c = true) :
    r.matcher.matchAt? (e ++ '}' :: more) = r.matcher.matchAt? e := by
  have quotes : ∀ c ∈ e, ¬ IsQuote c := fun c hc => not_isQuote_of_isHostChar (free c hc)
  have alone : (seq (group 1 (affix 2)) (group 2 p)).matchAt? (e ++ []) = none :=
    matchAt?_affixed opens consumes quotes fun _ => nofun
  rw [List.append_nil] at alone
  rw [same]
  refine (matchAt?_affixed opens consumes quotes fun c first => ?_).trans alone.symm
  obtain rfl := Option.some.inj first
  exact ⟨by decide, fun quote => absurd quote (by decide)⟩

theorem matchAt?_host {e : List Char} (filled : e ≠ []) (free : ∀ c ∈ e, isHostChar c = true) :
    ∀ r ∈ Host.rules, r.matcher.matchAt? (e ++ '}' :: more) = r.matcher.matchAt? e := by
  have plain {r : Rule} {p : Pattern} (same : r.matcher = p.matcher) (h : p.avoids '}' = true) :
      r.matcher.matchAt? (e ++ '}' :: more) = r.matcher.matchAt? e := by
    rw [same]
    exact matchAt?_append_of_avoids h (by decide) e more
  obtain ⟨x, ds, rfl⟩ := List.exists_cons_of_ne_nil filled
  have comment : Silent x (.token (seq (char '#') (many inLine)) .commentSingle) := by
    have first : x ≠ '#' := by
      rintro rfl
      cases free '#' List.mem_cons_self
    exact fun cs => matchAt?_of_not_begins (p := seq (char '#') (many inLine))
      (by simp [Pattern.char, begins, consumes, first]) rfl cs
  have long (three : String) (q : Char) (chars : three.toList = [q, q, q]) (quote : IsQuote q)
      (c : Char) (other : ¬ IsQuote c) :
      (seqs [lit three, few (alt (noneOf "\\") (seq (char '\\') anyChar)), lit three]).begins c =
        false := by
    have unequal : c ≠ q := fun same => other (same ▸ quote)
    simp [lit, chars, seqs, Pattern.char, begins, consumes, unequal]
  have short (q : Char) (quote : IsQuote q) (c : Char) (other : ¬ IsQuote c) :
      (Parts.quoted q).begins c = false := by
    have unequal : c ≠ q := fun same => other (same ▸ quote)
    simp [Parts.quoted, seqs, Pattern.char, begins, consumes, unequal]
  simp only [Host.rules, List.forall_mem_cons]
  refine ⟨?_, ?_, (comment _).trans (comment _).symm,
    matchAt?_string rfl (long "\"\"\"" '"' rfl (.inl rfl)) rfl free,
    matchAt?_string rfl (long "'''" '\'' rfl (.inr rfl)) rfl free,
    matchAt?_string rfl (short '"' (.inl rfl)) rfl free,
    matchAt?_string rfl (short '\'' (.inr rfl)) rfl free, ?_, ?_, ?_, ?_, ?_, ?_, ?_, ?_, ?_, ?_,
    (matchAt?_one x _).trans (matchAt?_one x _).symm, List.forall_mem_nil _⟩
  all_goals exact plain rfl (by decide +kernel)

theorem silent_interpolation {x : Char} (free : isHostChar x = true) :
    ∀ r ∈ interpolationRules, Silent x r := by
  refine silent_of_begins [char '}', seq (char '!') (oneOf "rsa"), char '{'] rfl ?_
  have members : x ≠ '}' ∧ x ≠ '!' ∧ x ≠ '{' := by
    refine ⟨?_, ?_, ?_⟩ <;> rintro rfl <;> cases free
  simp only [List.forall_mem_cons]
  refine ⟨⟨?_, rfl⟩, ⟨?_, rfl⟩, ⟨?_, rfl⟩, fun _ => nofun⟩
  all_goals simp [Pattern.char, begins, consumes, members]

theorem categories_expression (e : Expression) (below : List String) (more : List Char) :
    lexer.categories ("interp" :: below) (e.1 ++ '}' :: more) =
      Host.lexer.categories ["root"] e.1 ++
        lexer.categories ("interp" :: below) ('}' :: more) := by
  have split : lexer.rules "interp" =
      interpolationRules ++ Host.lexer.rules (["root"].headD "root") := rfl
  refine categories_embedded Host.lexer ("interp" :: below) ["root"] split stays_host host_newline
    e.1 (fun ds within filled r hr => ?_) fun ds within filled r hr => ?_
  · obtain ⟨x, ds, rfl⟩ := List.exists_cons_of_ne_nil filled
    exact silent_interpolation (e.2 x (within.subset List.mem_cons_self)) r hr _
  · exact matchAt?_host filled (fun c hc => e.2 c (within.subset hc)) r hr

theorem categories_interpolation (e : Expression) (cs : List Char) :
    lexer.categories [stateOf triple] ('{' :: (e.1 ++ '}' :: cs)) =
      .stringInterpol :: (Token.bytewise (Host.lexer.tokens (String.ofList e.1)) ++
        .stringInterpol :: lexer.categories [stateOf triple] cs) := by
  have single : (e.1 ++ '}' :: cs).head? ≠ some '{' := by
    obtain ⟨e, free⟩ := e
    cases e with
    | nil => exact fun opens => absurd opens (by simp)
    | cons c e =>
      intro opens
      obtain rfl := Option.some.inj opens
      cases free '{' List.mem_cons_self
  rw [categories_opening single, categories_expression, categories_closing, Lexer.tokens,
    bytewise_tokensFrom, String.toList_ofList]

theorem categories_replicate {state : String} (textual : Textual state) {quote : Char}
    (known : IsQuote quote) (n : Nat) (cs : List Char) :
    lexer.categories [state] (List.replicate n quote ++ cs) =
      List.replicate n .string ++ lexer.categories [state] cs := by
  induction n with
  | zero => rfl
  | succ n ih =>
    have first : lexer.categories [state] (quote :: (List.replicate n quote ++ cs)) = _ :=
      categories_quote textual known leads_nil _
    rw [List.replicate_succ, List.cons_append, first, ih]
    rfl

namespace Quoting

variable (q : Quoting)

theorem exists_count_eq : ∃ n, q.count = n + 1 := by
  unfold count
  split
  · exact ⟨2, rfl⟩
  · exact ⟨0, rfl⟩

theorem quotes_ne_nil : q.quotes ≠ [] := by
  obtain ⟨n, count⟩ := q.exists_count_eq
  simp [quotes, count]

theorem byteLength_quotes : Text.byteLength q.quotes = q.count := by
  have size : q.quote.utf8Size = 1 := by
    rcases q.isQuote with quote | quote <;> rw [quote] <;> rfl
  rw [quotes]
  induction q.count with
  | zero => rfl
  | succ n ih => rw [List.replicate_succ, Text.byteLength_cons, ih, size, Nat.add_comm]

theorem categories_quotes {ls : List Char} (leads : Leads ls) (cs : List Char) :
    lexer.categories [stateOf q.triple] (ls ++ (q.quotes ++ cs)) =
      List.replicate (Text.byteLength ls) .stringAffix ++ (List.replicate q.count .string ++
        lexer.categories [stateOf q.triple] cs) := by
  have textual := textual_stateOf q.triple
  obtain ⟨n, count⟩ := q.exists_count_eq
  rw [quotes, count, List.replicate_succ, List.cons_append,
    categories_quote textual q.isQuote leads, categories_replicate textual q.isQuote]
  rfl

/-- The text in front of the closing quotes is a piece of the string, or is taken for a prefix. -/
theorem categories_last (w : Chunk q.triple) :
    lexer.categories [stateOf q.triple] (w.1 ++ q.quotes) =
      List.replicate (Text.byteLength w.1) (if Mistakable w.1 then .stringAffix else .string) ++
        List.replicate q.count .string := by
  split
  · rename_i taken
    have read := q.categories_quotes (mistakable_iff.mp taken).2 []
    rwa [List.append_nil, categories_nil, List.append_nil] at read
  · rename_i other
    have closes := q.categories_quotes leads_nil []
    rw [List.append_nil, categories_nil, List.append_nil] at closes
    rw [categories_text w fun c first => ?_]
    · exact congrArg _ closes
    · obtain ⟨n, count⟩ := q.exists_count_eq
      rw [quotes, count, List.replicate_succ] at first
      obtain rfl := Option.some.inj first
      refine ⟨?_, q.isQuote.ne.2.2, fun _ => other⟩
      exact Bool.eq_false_iff.mpr fun plain => not_isQuote_of_isPlain plain q.isQuote

theorem dropWhile_enclose (body : List Char) :
    (q.enclose body).dropWhile (fun c => "rRbBuUfF".toList.contains c) =
      q.quotes ++ (body ++ q.quotes) := by
  have letters : ∀ c ∈ q.letters, "rRbBuUfF".toList.contains c = true := by
    have all : "rbufRBUF".toList.all ("rRbBuUfF".toList.contains ·) = true := by decide
    exact fun c hc => List.all_eq_true.mp all c (q.known c hc)
  have stops : ("rRbBuUfF".toList.contains q.quote) = false := by
    rcases q.isQuote with quote | quote <;> rw [quote] <;> decide
  obtain ⟨n, count⟩ := q.exists_count_eq
  rw [enclose, List.dropWhile_append_of_pos letters, quotes, count, List.replicate_succ,
    List.cons_append, List.dropWhile_cons_of_neg (by rw [stops]; decide)]

theorem startState_enclose {body : List Char} (free : ∀ c ∈ body, ¬ IsQuote c) :
    startState (String.ofList (q.enclose body)) = stateOf q.triple := by
  have opens : opensTriple (q.quotes ++ (body ++ q.quotes)) = q.triple := by
    obtain ⟨-, -, -, quote, isQuote, triple⟩ := q
    cases triple with
    | true => rcases isQuote with rfl | rfl <;> rfl
    | false =>
      cases body with
      | nil => rcases isQuote with rfl | rfl <;> rfl
      | cons c body =>
        have other := free c List.mem_cons_self
        have double : c ≠ '"' := fun same => other (.inl same)
        have single : c ≠ '\'' := fun same => other (.inr same)
        rcases isQuote with rfl | rfl <;> simp [quotes, count, opensTriple, double, single]
  have chars : (String.ofList (q.enclose body)).toList = q.enclose body := String.toList_ofList
  rw [startState, chars, dropWhile_enclose, opens]
  rfl

end Quoting

def Part.host : Part triple → List Category
  | .interpolation e => Token.bytewise (Host.lexer.tokens (String.ofList e.1))
  | _ => []

/-- The categories of a part: a chunk is a piece of the string or taken for a prefix as a whole,
braces that are doubled are an escape, and an expression is host code between its braces. -/
def Part.Shows : Part triple → List Category → Prop
  | .chunk w, ks => ks = List.replicate (Text.byteLength w.1) .string ∨
      ks = List.replicate (Text.byteLength w.1) .stringAffix
  | .doubled _, ks => ks = [.stringEscape, .stringEscape]
  | .interpolation e, ks => ks = .stringInterpol ::
      (Token.bytewise (Host.lexer.tokens (String.ofList e.1)) ++ [.stringInterpol])

/-- A body in front of the closing quotes, behind a stretch of text. -/
theorem categories_body (q : Quoting) (body : List (Part q.triple)) (stretch : Chunk q.triple) :
    ∃ k kss, (k = .string ∨ k = .stringAffix) ∧ List.Forall₂ Part.Shows body kss ∧
      lexer.categories [stateOf q.triple]
          (stretch.1 ++ (body.flatMap Part.chars ++ q.quotes)) =
        List.replicate (Text.byteLength stretch.1) k ++
          (kss.flatten ++ List.replicate q.count .string) := by
  -- The stretch grows by each chunk, and ends in front of a brace or of the closing quotes.
  induction body generalizing stretch with
  | nil =>
    refine ⟨_, [], ?_, .nil, q.categories_last stretch⟩
    split
    · exact .inr rfl
    · exact .inl rfl
  | cons part body ih =>
    cases part with
    | chunk w =>
      obtain ⟨k, kss, known, shown, read⟩ := ih (stretch.append w)
      refine ⟨k, List.replicate (Text.byteLength w.1) k :: kss, known, .cons ?_ shown, ?_⟩
      · rcases known with rfl | rfl
        · exact .inl rfl
        · exact .inr rfl
      · rw [Chunk.append, List.append_assoc, Text.byteLength_append,
          ← List.replicate_append_replicate, List.append_assoc] at read
        rw [List.flatMap_cons, Part.chars, List.append_assoc, read, List.flatten_cons,
          List.append_assoc]
    | doubled brace =>
      obtain ⟨k, kss, -, shown, read⟩ := ih Chunk.empty
      refine ⟨.string, [.stringEscape, .stringEscape] :: kss, .inl rfl, .cons rfl shown, ?_⟩
      have rest : lexer.categories [stateOf q.triple] (body.flatMap Part.chars ++ q.quotes) = _ :=
        read
      rw [List.flatMap_cons, Part.chars, List.append_assoc, List.cons_append, List.cons_append,
        List.nil_append, categories_text_brace, categories_doubled, rest]
      rfl
    | interpolation e =>
      obtain ⟨k, kss, -, shown, read⟩ := ih Chunk.empty
      refine ⟨.string, _ :: kss, .inl rfl, .cons rfl shown, ?_⟩
      have rest : lexer.categories [stateOf q.triple] (body.flatMap Part.chars ++ q.quotes) = _ :=
        read
      have split : (Part.interpolation e : Part q.triple).chars ++ body.flatMap Part.chars ++
          q.quotes = '{' :: (e.1 ++ '}' :: (body.flatMap Part.chars ++ q.quotes)) := by
        simp [Part.chars]
      rw [List.flatMap_cons, split, categories_text_brace stretch ⟨'{', .inl rfl⟩,
        categories_interpolation, rest]
      simp [Chunk.empty]

theorem Part.not_isQuote (p : Part triple) : ∀ c ∈ p.chars, ¬ IsQuote c := by
  cases p with
  | chunk w => exact fun c hc => not_isQuote_of_isPlain (w.2 c hc)
  | doubled brace =>
    have other := (isPlain_brace triple brace).2.2
    exact List.forall_mem_cons.mpr ⟨other, List.forall_mem_singleton.mpr other⟩
  | interpolation e =>
    refine List.forall_mem_cons.mpr ⟨by decide, List.forall_mem_append.mpr ⟨fun c hc => ?_,
      List.forall_mem_singleton.mpr (by decide)⟩⟩
    exact not_isQuote_of_isHostChar (e.2 c hc)

theorem Part.Shows.length_eq {p : Part triple} {ks : List Category} (h : p.Shows ks) :
    ks.length = Text.byteLength p.chars := by
  cases p with
  | chunk w => rcases h with rfl | rfl <;> exact List.length_replicate
  | doubled brace =>
    rw [show ks = _ from h, Part.chars, brace.byteLength_twice]
    rfl
  | interpolation e =>
    rw [show ks = _ from h, Lexer.tokens, bytewise_tokensFrom, String.toList_ofList, Part.chars,
      Text.byteLength_cons, Text.byteLength_append, List.length_cons, List.length_append,
      length_categories]
    exact Nat.add_comm _ 1

theorem Part.Shows.count_error {p : Part triple} {ks : List Category} (h : p.Shows ks) :
    ks.count .error = p.host.count .error := by
  cases p with
  | chunk w => rcases h with rfl | rfl <;> simp [Part.host, List.count_replicate]
  | doubled brace => rw [show ks = _ from h]; rfl
  | interpolation e =>
    rw [show ks = _ from h]
    simp [Part.host]

theorem count_error_flatten {body : List (Part triple)} {kss : List (List Category)}
    (shown : List.Forall₂ Part.Shows body kss) :
    kss.flatten.count .error = (body.flatMap Part.host).count .error := by
  induction shown with
  | nil => rfl
  | cons here _ ih => rw [List.flatten_cons, List.count_append, here.count_error, ih,
      List.flatMap_cons, List.count_append]

/-- The literal is read part by part between its quotes, and an expression as host code is read
alone. Only what host code has no rule for is an error. -/
theorem tokens_parts (q : Quoting) (body : List (Part q.triple)) :
    ∃ kss, List.Forall₂ (fun p ks => p.Shows ks ∧ ks.length = Text.byteLength p.chars) body kss ∧
      Token.bytewise (tokens (String.ofList (q.enclose (body.flatMap Part.chars)))) =
        List.replicate (Text.byteLength q.letters) .stringAffix ++
          (List.replicate q.count .string ++
            (kss.flatten ++ List.replicate q.count .string)) ∧
      (Token.bytewise (tokens (String.ofList (q.enclose (body.flatMap Part.chars))))).count .error =
        (body.flatMap Part.host).count .error := by
  obtain ⟨k, kss, -, shown, read⟩ := categories_body q body Chunk.empty
  have inside : lexer.categories [stateOf q.triple] (body.flatMap Part.chars ++ q.quotes) =
    kss.flatten ++ List.replicate q.count .string := read
  have free : ∀ c ∈ body.flatMap Part.chars, ¬ IsQuote c := fun c hc => by
    obtain ⟨p, -, hc⟩ := List.mem_flatMap.mp hc
    exact p.not_isQuote c hc
  have whole : Token.bytewise (tokens (String.ofList (q.enclose (body.flatMap Part.chars)))) =
      List.replicate (Text.byteLength q.letters) .stringAffix ++ (List.replicate q.count .string ++
        (kss.flatten ++ List.replicate q.count .string)) := by
    rw [tokens, bytewise_tokensFrom, q.startState_enclose free, String.toList_ofList,
      Quoting.enclose, q.categories_quotes q.leads, inside]
  refine ⟨kss, shown.imp fun p ks h => ⟨h, h.length_eq⟩, whole, ?_⟩
  rw [whole]
  simp [List.count_replicate, count_error_flatten shown]

def prefixTokens (ls : List Char) : List Token :=
  if ls = [] then [] else [⟨0, .stringAffix, String.ofList ls⟩]

/-- Tokens behind the one of the prefix are known from their bytes, where they begin with a piece of
the string. -/
theorem Quoting.tokens_eq (q : Quoting) {w : List Char} (free : ∀ c ∈ w, ¬ IsQuote c)
    {t : Token} {ts : List Token} (string : t.category = .string)
    (tiles : Token.Tiles (Text.byteLength q.letters)
      (String.ofList (q.quotes ++ (w ++ q.quotes))) (t :: ts))
    (filled : ∀ u ∈ t :: ts, u.text ≠ "")
    (apart : (t :: ts).IsChain fun u v => u.category ≠ v.category)
    (same : List.replicate q.count .string ++
      lexer.categories [stateOf q.triple] (w ++ q.quotes) = Token.bytewise (t :: ts)) :
    tokens (String.ofList (q.enclose w)) = prefixTokens q.letters ++ t :: ts := by
  have split : String.ofList (q.enclose w) =
      String.ofList q.letters ++ String.ofList (q.quotes ++ (w ++ q.quotes)) :=
    String.ofList_append
  have read : lexer.categories [startState (String.ofList (q.enclose w))]
      (String.ofList (q.enclose w)).toList =
        List.replicate (Text.byteLength q.letters) .stringAffix ++ Token.bytewise (t :: ts) := by
    rw [q.startState_enclose free, String.toList_ofList, enclose, q.categories_quotes q.leads, same]
  rw [tokens]
  by_cases none : q.letters = []
  · have void : String.ofList q.letters = "" := none ▸ rfl
    rw [void, String.empty_append] at split
    rw [none] at read tiles
    rw [prefixTokens, if_pos none]
    exact tokensFrom_eq (split ▸ tiles) filled apart read
  · have other : Category.stringAffix ≠ t.category := string ▸ by decide
    rw [prefixTokens, if_neg none]
    refine tokensFrom_eq ?_ (List.forall_mem_cons.mpr ⟨by simpa using none, filled⟩)
      (.cons_cons other apart) ?_
    · rw [split]
      refine (Token.Tiles.single ⟨0, .stringAffix, String.ofList q.letters⟩).append ?_
      rw [byteSize_ofList, Nat.zero_add]
      exact tiles
    · rw [read, List.singleton_append, Token.bytewise_cons _ (t :: ts), byteSize_ofList]

/-- Text that could not be a prefix is one piece of the string with all the quotes. -/
theorem Quoting.tokens_of_text (q : Quoting) (w : Chunk q.triple) (other : ¬ Mistakable w.1) :
    tokens (String.ofList (q.enclose w.1)) = prefixTokens q.letters ++
      [⟨Text.byteLength q.letters, .string, String.ofList (q.quotes ++ (w.1 ++ q.quotes))⟩] := by
  refine q.tokens_eq (fun c hc => not_isQuote_of_isPlain (w.2 c hc)) rfl (.single ⟨_, .string, _⟩)
    (List.forall_mem_singleton.mpr (by simp [q.quotes_ne_nil])) (.singleton _) ?_
  rw [q.categories_last, if_neg other]
  simp [byteSize_ofList, byteLength_quotes]

/-- Text that could be a prefix is taken for the one of the closing quotes. -/
theorem Quoting.tokens_of_mistakable (q : Quoting) (w : Chunk q.triple) (taken : Mistakable w.1) :
    tokens (String.ofList (q.enclose w.1)) = prefixTokens q.letters ++
      [⟨Text.byteLength q.letters, .string, String.ofList q.quotes⟩,
        ⟨Text.byteLength q.letters + q.count, .stringAffix, String.ofList w.1⟩,
        ⟨Text.byteLength q.letters + q.count + Text.byteLength w.1, .string,
          String.ofList q.quotes⟩] := by
  refine q.tokens_eq (fun c hc => not_isQuote_of_isPlain (w.2 c hc)) rfl
    ⟨⟨rfl, ?_, ?_, trivial⟩, ?_⟩ ?_ ?_ ?_
  · simp [Token.stop, byteSize_ofList, byteLength_quotes]
  · simp [Token.stop, byteSize_ofList]
  · simp [String.ofList_append]
  · simp [q.quotes_ne_nil, taken.1]
  · simp
  · rw [q.categories_last, if_pos taken]
    simp [byteSize_ofList, byteLength_quotes]

/-- The prefix is an affix and all the rest one piece of the string, unless the text could be a
prefix itself: then the rule for quotes takes it for one, with the closing quotes behind it. -/
theorem tokens_plain (q : Quoting) (w : Chunk q.triple) :
    tokens (String.ofList (q.enclose w.1)) = prefixTokens q.letters ++
      if Mistakable w.1 then
        [⟨Text.byteLength q.letters, .string, String.ofList q.quotes⟩,
          ⟨Text.byteLength q.letters + q.count, .stringAffix, String.ofList w.1⟩,
          ⟨Text.byteLength q.letters + q.count + Text.byteLength w.1, .string,
            String.ofList q.quotes⟩]
      else
        [⟨Text.byteLength q.letters, .string,
          String.ofList (q.quotes ++ (w.1 ++ q.quotes))⟩] := by
  split
  · rename_i taken
    exact q.tokens_of_mistakable w taken
  · rename_i other
    exact q.tokens_of_text w other

/-- A letter between single quotes is taken for a prefix of the second one. -/
theorem text_before_quote_is_affix :
    tokens "f'b'" =
        [⟨0, .stringAffix, "f"⟩, ⟨1, .string, "'"⟩, ⟨2, .stringAffix, "b"⟩, ⟨3, .string, "'"⟩] ∧
      tokens "f'b'" ≠ [⟨0, .stringAffix, "f"⟩, ⟨1, .string, "'b'"⟩] := by
  have read := Quoting.tokens_of_mistakable
    ⟨['f'], by decide, List.forall_mem_singleton.mpr (by decide), '\'', .inr rfl, false⟩
    ⟨['b'], List.forall_mem_singleton.mpr rfl⟩ (by decide)
  have cut : tokens "f'b'" =
      [⟨0, .stringAffix, "f"⟩, ⟨1, .string, "'"⟩, ⟨2, .stringAffix, "b"⟩, ⟨3, .string, "'"⟩] := read
  refine ⟨cut, ?_⟩
  rw [cut]
  exact fun same => absurd (congrArg List.length same) (by decide)

end HybridTemplate.Lexer.FormatString
