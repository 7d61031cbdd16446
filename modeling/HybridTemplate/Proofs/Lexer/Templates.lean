import HybridTemplate.Proofs.Lexer.Identifiers

set_option autoImplicit false

/-! Code with words, strings, braces and template literals, whose interpolations hold such code
again. A closing brace belongs to the brace or to the interpolation that was opened last, so the
code of an interpolation is read as it is read alone, at any depth. What a word says is known from
all the letters that stand together, so the reading of code carries the letters before it along.
-/
namespace HybridTemplate.Lexer.Script

open Parts Pattern

abbrev Word := { w : List Char // w ≠ [] ∧ ∀ c ∈ w, c.isLower = true }

abbrev Space := { w : List Char // w ≠ [] ∧ ∀ c ∈ w, Text.isBlank c = true }

abbrev StringBody := { w : List Char // ∀ c ∈ w, c ≠ '"' ∧ c ≠ '\\' ∧ c ≠ '\n' }

abbrev Chunk := { w : List Char // ∀ c ∈ w, c ≠ backtick ∧ c ≠ '\\' ∧ c ≠ '$' }

mutual

inductive Code where
  | done
  | word (w : Word) (rest : Code)
  | space (w : Space) (rest : Code)
  | string (w : StringBody) (rest : Code)
  | braces (inner rest : Code)
  | template (t : Template) (rest : Code)

inductive Template where
  | done
  | chunk (w : Chunk) (rest : Template)
  | escape (c : Char) (rest : Template)
  | dollar (rest : Template)
  | interpolation (code : Code) (rest : Template)

end

mutual

def Code.chars : Code → List Char
  | .done => []
  | .word w rest => w.1 ++ rest.chars
  | .space w rest => w.1 ++ rest.chars
  | .string w rest => '"' :: (w.1 ++ '"' :: rest.chars)
  | .braces inner rest => '{' :: (inner.chars ++ '}' :: rest.chars)
  | .template t rest => backtick :: (t.chars ++ backtick :: rest.chars)

def Template.chars : Template → List Char
  | .done => []
  | .chunk w rest => w.1 ++ rest.chars
  | .escape c rest => '\\' :: c :: rest.chars
  | .dollar rest => '$' :: rest.chars
  | .interpolation code rest => '$' :: '{' :: (code.chars ++ '}' :: rest.chars)

end

mutual

/-- No dollar sign that stands by itself is followed by an opening brace. -/
def Code.Sound : Code → Prop
  | .done => True
  | .word _ rest => rest.Sound
  | .space _ rest => rest.Sound
  | .string _ rest => rest.Sound
  | .braces inner rest => inner.Sound ∧ rest.Sound
  | .template t rest => t.Sound ∧ rest.Sound

def Template.Sound : Template → Prop
  | .done => True
  | .chunk _ rest => rest.Sound
  | .escape _ rest => rest.Sound
  | .dollar rest => rest.chars.head? ≠ some '{' ∧ rest.Sound
  | .interpolation code rest => code.Sound ∧ rest.Sound

end

def wordReading (letters : List Char) : List Category :=
  List.replicate (Text.byteLength letters) (nameCategory letters)

mutual

/-- The category of each byte of code, and of the letters that stand in front of it. -/
def Code.reading : Code → (letters : List Char) → List Category
  | .done, letters => wordReading letters
  | .word w rest, letters => rest.reading (letters ++ w.1)
  | .space w rest, letters =>
    wordReading letters ++ (List.replicate (Text.byteLength w.1) .whitespace ++ rest.reading [])
  | .string w rest, letters =>
    wordReading letters ++
      (List.replicate (Text.byteLength w.1 + 2) .string ++ rest.reading [])
  | .braces inner rest, letters =>
    wordReading letters ++
      .punctuation :: (inner.reading [] ++ .punctuation :: rest.reading [])
  | .template t rest, letters =>
    wordReading letters ++ .stringBacktick :: (t.reading ++ .stringBacktick :: rest.reading [])

def Template.reading : Template → List Category
  | .done => []
  | .chunk w rest => List.replicate (Text.byteLength w.1) .stringBacktick ++ rest.reading
  | .escape c rest => List.replicate (1 + c.utf8Size) .stringEscape ++ rest.reading
  | .dollar rest => .stringBacktick :: rest.reading
  | .interpolation code rest =>
    .stringInterpol :: .stringInterpol :: (code.reading [] ++ .stringInterpol :: rest.reading)

end

/-- A part of a text that is code, behind other characters. -/
abbrev Place := List Char × Code

def Place.behind (front : List Char) (p : Place) : Place := (front ++ p.1, p.2)

mutual

def Code.interpolations : Code → List Place
  | .done => []
  | .word w rest => rest.interpolations.map (Place.behind w.1)
  | .space w rest => rest.interpolations.map (Place.behind w.1)
  | .string w rest => rest.interpolations.map (Place.behind ('"' :: (w.1 ++ ['"'])))
  | .braces inner rest =>
    inner.interpolations.map (Place.behind ['{']) ++
      rest.interpolations.map (Place.behind ('{' :: (inner.chars ++ ['}'])))
  | .template t rest =>
    t.interpolations.map (Place.behind [backtick]) ++
      rest.interpolations.map (Place.behind (backtick :: (t.chars ++ [backtick])))

def Template.interpolations : Template → List Place
  | .done => []
  | .chunk w rest => rest.interpolations.map (Place.behind w.1)
  | .escape c rest => rest.interpolations.map (Place.behind ['\\', c])
  | .dollar rest => rest.interpolations.map (Place.behind ['$'])
  | .interpolation code rest =>
    (['$', '{'], code) :: code.interpolations.map (Place.behind ['$', '{']) ++
      rest.interpolations.map (Place.behind ('$' :: '{' :: (code.chars ++ ['}'])))

end

theorem byteLength_enclosed {x y : Char} (opens : x.utf8Size = 1) (closes : y.utf8Size = 1)
    (w : List Char) : Text.byteLength (x :: (w ++ [y])) = Text.byteLength w + 2 := by
  rw [Text.byteLength_cons, Text.byteLength_append, Text.byteLength_cons, Text.byteLength_nil,
    opens, closes]
  omega

variable {state : String} {below : List String} {cs more : List Char}

theorem lowercase_start {x : Char} (lower : x.isLower = true) : isNameStart x = true := by
  have letter : x.isAlpha = true := Bool.or_eq_true_iff.mpr (.inr lower)
  rw [isNameStart, letter, Bool.true_or, Bool.true_or]

theorem lowercase_word {x : Char} (lower : x.isLower = true) : Text.isWord x = true := by
  have letter : x.isAlphanum = true :=
    Bool.or_eq_true_iff.mpr (.inl (Bool.or_eq_true_iff.mpr (.inr lower)))
  rw [Text.isWord_ascii (ascii_of_isAlphanum letter), Text.isAsciiWord, letter, Bool.true_or]

/-- What follows does not go on with a name. -/
def Apart (cs : List Char) : Prop := ∀ c, cs.head? = some c → isNamePart c = false

theorem apart_cons {x : Char} (h : isNamePart x = false) (cs : List Char) : Apart (x :: cs) := by
  rintro c first
  obtain rfl := Option.some.inj first
  exact h

theorem isNamePart_of_isBlank {x : Char} (blank : Text.isBlank x = true) :
    isNamePart x = false := by
  have codes : ∀ r ∈ Text.blankRanges, ∀ k < r.2 + 1 - r.1,
      isNamePart (Char.ofNat (r.1 + k)) = false := by
    decide +kernel
  obtain ⟨r, hr, first, last⟩ := Text.inRanges_iff.mp blank
  have known := codes r hr (x.toNat - r.1) (by omega)
  rwa [Nat.add_sub_cancel' first, Char.ofNat_toNat] at known

theorem apart_space (w : Space) (cs : List Char) : Apart (w.1 ++ cs) := by
  obtain ⟨w, filled, blank⟩ := w
  obtain ⟨x, w, rfl⟩ := List.exists_cons_of_ne_nil filled
  exact apart_cons (isNamePart_of_isBlank (blank x List.mem_cons_self)) _

theorem categories_letters (coded : Coded state) {letters : List Char}
    (lower : ∀ c ∈ letters, c.isLower = true) (apart : Apart more) :
    lexer.categories (state :: below) (letters ++ more) =
      wordReading letters ++ lexer.categories (state :: below) more := by
  cases letters with
  | nil => rfl
  | cons x letters =>
    exact categories_word coded
      (lowercase_start (lower x List.mem_cons_self)) (fun c hc => lowercase_word (lower c hc)) apart

theorem categories_space (coded : Coded state) (w : Space) (cs : List Char) :
    lexer.categories (state :: below) (w.1 ++ cs) =
      List.replicate (Text.byteLength w.1) .whitespace ++
        lexer.categories (state :: below) cs := by
  obtain ⟨own, split, silent⟩ := rules_of_coded coded
  have first : lexer.rules state =
      own ++ .token (many1 (one Text.isBlank)) .whitespace :: rules.tail := split
  refine categories_stretch (state :: below) first (fun x blank => silent x ?_ ?_) w.2.2 cs
  · rintro rfl
    cases blank
  · rintro rfl
    cases blank

def stringPart (q : Char) : Pattern :=
  alt (noneOf (String.ofList [q, '\\', '\n'])) (seq (char '\\') inLine)

theorem reach_stringPart_plain {q : Char} (c : Cursor) (x : Char) (cs : List Char)
    (rest : c.rest = x :: cs) (plain : x ≠ q ∧ x ≠ '\\' ∧ x ≠ '\n') :
    reach (stringPart q) c = [⟨c.pos + 1, some x, cs, c.groups, [], c.late⟩] := by
  simp [stringPart, noneOf, Pattern.char, reach, Cursor.step, rest, plain, distinct]

theorem reach_stringPart_quote {q : Char} (other : q ≠ '\\') (c : Cursor)
    (rest : c.rest = q :: cs) : reach (stringPart q) c = [] := by
  simp [stringPart, noneOf, Pattern.char, reach, Cursor.step, rest, other, distinct]

theorem matchAt?_quoted {q : Char} (other : q ≠ '\\') {w : List Char}
    (plain : ∀ c ∈ w, c ≠ q ∧ c ≠ '\\' ∧ c ≠ '\n') (cs : List Char) :
    (quoted q).matchAt? (q :: (w ++ q :: cs)) = some ⟨w.length + 2, []⟩ := by
  have opens : reach (char q) (.atStart (q :: (w ++ q :: cs)) false) =
      [⟨1, some q, w ++ q :: cs, [], [], false⟩] :=
    step_of_accepted _ q _ rfl (beq_self_eq_true q)
  have all : ∀ x ∈ w, decide (x ≠ q ∧ x ≠ '\\' ∧ x ≠ '\n') = true :=
    fun x hx => decide_eq_true (plain x hx)
  have stops (c : Cursor) (rest : c.rest = q :: cs) : reach (stringPart q) c = [] :=
    reach_stringPart_quote other c rest
  obtain ⟨d, first, pos, rest, groups⟩ := head?_reach_many all
    (fun c x cs rest ok => reach_stringPart_plain c x cs rest (of_decide_eq_true ok)) stops
    (c := ⟨1, some q, w ++ q :: cs, [], [], false⟩) rfl rfl
  have closes : reach (char q) d = [⟨d.pos + 1, some q, cs, d.groups, [], d.late⟩] :=
    step_of_accepted d q cs rest (beq_self_eq_true q)
  have whole : (reach (quoted q) (.atStart (q :: (w ++ q :: cs)) false)).head? =
      some ⟨d.pos + 1, some q, cs, d.groups, [], d.late⟩ := by
    rw [quoted, seqs, head?_reach_seq]
    refine findSome?_of_head? (congrArg List.head? opens) ?_
    rw [seqs, head?_reach_seq]
    exact findSome?_of_head? first (congrArg List.head? closes)
  have length : d.pos + 1 = w.length + 2 := by
    rw [pos]
    dsimp only
    omega
  rw [matchAt?_eq rfl, whole, Option.map_some, length, groups]

theorem categories_string (coded : Coded state) (w : StringBody) (cs : List Char) :
    lexer.categories (state :: below) ('"' :: (w.1 ++ '"' :: cs)) =
      List.replicate (Text.byteLength w.1 + 2) .string ++
        lexer.categories (state :: below) cs := by
  obtain ⟨own, split, silent⟩ := rules_of_coded coded
  have first : lexer.rules state =
      (own ++ rules.take 4) ++ .token (quoted '"') .string :: rules.drop 5 := by
    rw [List.append_assoc]
    exact split
  have quiet : ∀ r ∈ rules.take 4, Silent '"' r :=
    silent_of_begins (openers.take 4) rfl (by decide +kernel)
  have found := matchAt?_quoted (q := '"') (by decide) w.2 cs
  rw [List.append_cons w.1 '"' cs, ← List.cons_append] at found
  have read := categories_of_first (state :: below) _ cs first (fun r hr => ?_) found (by simp)
    (List.cons_ne_nil _ _) rfl
  · rw [byteLength_enclosed rfl rfl, List.cons_append, ← List.append_cons] at read
    exact read
  · refine List.forall_mem_append.mpr ⟨silent '"' ?_ ?_, quiet⟩ r hr _ <;> decide

def unpunctuated : List Pattern :=
  openers ++ (vocabulary.map fun e => keyword e.1) ++ [identifier, number, operator]

def Punctuates (x : Char) : Prop := x ∈ ['{', '}', '[', ']', ',']

theorem Punctuates.known {x : Char} (h : Punctuates x) :
    x.utf8Size = 1 ∧ "()[]\x7b\x7d;,.:".toList.contains x = true ∧
      ∀ r ∈ rules.take 14, Silent x r := by
  have known : ['{', '}', '[', ']', ','].all (fun x =>
      x.utf8Size == 1 && "()[]\x7b\x7d;,.:".toList.contains x &&
        unpunctuated.all fun p => !p.begins x && p.consumes) = true := by
    decide +kernel
  have here := List.all_eq_true.mp known x h
  simp only [Bool.and_eq_true, beq_iff_eq, List.all_eq_true, Bool.not_eq_true'] at here
  exact ⟨here.1.1, here.1.2, silent_of_begins unpunctuated rfl here.2⟩

theorem categories_punctuation {x : Char} (known : Punctuates x) (cs : List Char) :
    lexer.categories ("root" :: below) (x :: cs) =
      .punctuation :: lexer.categories ("root" :: below) cs := by
  obtain ⟨size, ok, silent⟩ := known.known
  have last : lexer.rules "root" =
      rules.take 14 ++ .token (oneOf "()[]\x7b\x7d;,.:") .punctuation :: [] := rfl
  have read := categories_of_char ("root" :: below) last silent rfl ok rfl cs
  rw [size] at read
  exact read

theorem categories_braces (coded : Coded state) (below : List String) :
    ∃ inner deep, Coded inner ∧
      (∀ cs, lexer.categories (state :: below) ('{' :: cs) =
        .punctuation :: lexer.categories (inner :: deep) cs) ∧
      ∀ cs, lexer.categories (inner :: deep) ('}' :: cs) =
        .punctuation :: lexer.categories (state :: below) cs := by
  have pops : lexer.rules "brace" =
      [] ++ .pop (char '}') .punctuation :: (braceRules.tail ++ rules) := rfl
  have closes (cs : List Char) : lexer.categories ("brace" :: state :: below) ('}' :: cs) =
      .punctuation :: lexer.categories (state :: below) cs :=
    categories_of_char ("brace" :: state :: below) pops (fun _ => nofun) rfl
      (beq_self_eq_true '}') rfl cs
  rcases coded with rfl | rfl | rfl
  · exact ⟨"root", below, .inl rfl, categories_punctuation List.mem_cons_self,
      categories_punctuation (List.mem_cons_of_mem _ List.mem_cons_self)⟩
  · refine ⟨"brace", "interp" :: below, .inr (.inr rfl), fun cs => ?_, closes⟩
    have pushes : lexer.rules "interp" =
        interpolationRules.take 1 ++ .push (char '{') .punctuation "brace" :: rules := rfl
    exact categories_of_char ("interp" :: below) pushes
      (List.forall_mem_singleton.mpr (silent_braces rfl (by decide))) rfl
      (beq_self_eq_true '{') rfl cs
  · refine ⟨"brace", "brace" :: below, .inr (.inr rfl), fun cs => ?_, closes⟩
    have pushes : lexer.rules "brace" =
        braceRules.take 1 ++ .push (char '{') .punctuation "brace" :: rules := rfl
    exact categories_of_char ("brace" :: below) pushes
      (List.forall_mem_singleton.mpr (silent_braces rfl (by decide))) rfl
      (beq_self_eq_true '{') rfl cs

theorem categories_opening (coded : Coded state) (cs : List Char) :
    lexer.categories (state :: below) (backtick :: cs) =
      .stringBacktick :: lexer.categories ("template" :: state :: below) cs := by
  obtain ⟨own, split, silent⟩ := rules_of_coded coded
  have pushes : lexer.rules state = (own ++ rules.take 3) ++
      .push (char backtick) .stringBacktick "template" :: rules.drop 4 := by
    rw [List.append_assoc]
    exact split
  have quiet : ∀ r ∈ rules.take 3, Silent backtick r :=
    silent_of_begins (openers.take 3) rfl (by decide +kernel)
  have other : ∀ r ∈ own, Silent backtick r := silent backtick (by decide) (by decide)
  exact categories_of_char (state :: below) pushes (List.forall_mem_append.mpr ⟨other, quiet⟩) rfl
    (beq_self_eq_true backtick) rfl cs

theorem categories_closing (cs : List Char) :
    lexer.categories ("template" :: state :: below) (backtick :: cs) =
      .stringBacktick :: lexer.categories (state :: below) cs := by
  have pops : lexer.rules "template" =
      [] ++ .pop (char backtick) .stringBacktick :: templateRules.tail := rfl
  exact categories_of_char ("template" :: state :: below) pops (fun _ => nofun) rfl
    (beq_self_eq_true backtick) rfl cs

def inChunk (c : Char) : Bool := !(String.ofList [backtick, '\\', '$']).toList.contains c

theorem inChunk_iff {x : Char} : inChunk x = true ↔ x ≠ backtick ∧ x ≠ '\\' ∧ x ≠ '$' := by
  simp [inChunk]

theorem silent_before_chunk {x : Char} (plain : x ≠ backtick ∧ x ≠ '\\' ∧ x ≠ '$') :
    ∀ r ∈ templateRules.take 3, Silent x r := by
  obtain ⟨ends, escapes, dollar⟩ := plain
  refine silent_of_begins [char backtick, seq (char '\\') anyChar, lit "$\x7b"] rfl ?_
  simp only [List.forall_mem_cons]
  refine ⟨⟨?_, rfl⟩, ⟨?_, rfl⟩, ⟨?_, rfl⟩, fun _ => nofun⟩
  · simpa [Pattern.char, begins] using ends
  · simpa [Pattern.char, begins, consumes] using escapes
  · simpa [lit, seqs, Pattern.char, begins, consumes] using dollar

theorem categories_chunk (w : Chunk) (cs : List Char) :
    lexer.categories ("template" :: below) (w.1 ++ cs) =
      List.replicate (Text.byteLength w.1) .stringBacktick ++
        lexer.categories ("template" :: below) cs := by
  have split : lexer.rules "template" = templateRules.take 3 ++
      .token (many1 (one inChunk)) .stringBacktick :: templateRules.drop 4 := rfl
  exact categories_stretch ("template" :: below) split
    (fun x ok => silent_before_chunk (inChunk_iff.mp ok)) (fun x hx => inChunk_iff.mpr (w.2 x hx))
    cs

theorem categories_escape (c : Char) (cs : List Char) :
    lexer.categories ("template" :: below) ('\\' :: c :: cs) =
      List.replicate (1 + c.utf8Size) .stringEscape ++
        lexer.categories ("template" :: below) cs := by
  have found : (seq (char '\\') anyChar).matchAt? (['\\', c] ++ cs) = some ⟨2, []⟩ := by
    rw [matchAt?_eq rfl]
    simp [Pattern.char, anyChar, reach, Cursor.step, Cursor.atStart, distinct]
  have split : lexer.rules "template" = templateRules.take 1 ++
      .token (seq (char '\\') anyChar) .stringEscape :: templateRules.drop 2 := rfl
  have quiet : ∀ r ∈ templateRules.take 1, Silent '\\' r :=
    silent_of_begins [char backtick] rfl (by decide)
  exact categories_of_first ("template" :: below) ['\\', c] cs split (fun r hr => quiet r hr _)
    found rfl (List.cons_ne_nil _ _) rfl

theorem silent_before_dollar : ∀ r ∈ templateRules.take 2, Silent '$' r :=
  silent_of_begins [char backtick, seq (char '\\') anyChar] rfl (by decide)

theorem categories_dollar (lone : cs.head? ≠ some '{') :
    lexer.categories ("template" :: below) ('$' :: cs) =
      .stringBacktick :: lexer.categories ("template" :: below) cs := by
  have unopened : (lit "$\x7b").matchAt? ('$' :: cs) = none := by
    refine matchAt?_of_unreached fun d hd => lone ?_
    have rest : '$' :: cs = '$' :: '{' :: d.rest := rest_of_mem_lit hd
    rw [(List.cons.inj rest).2]
    rfl
  have split : lexer.rules "template" = templateRules.take 2 ++
      (templateRules.drop 2).take 2 ++ .token (char '$') .stringBacktick :: [] := rfl
  have chunk : Silent '$' (.token (many1 (noneOf (String.ofList [backtick, '\\', '$'])))
      .stringBacktick) :=
    matchAt?_of_not_begins (p := many1 (noneOf (String.ofList [backtick, '\\', '$']))) (x := '$')
      (by decide +kernel) rfl
  exact categories_of_first ("template" :: below) ['$'] cs split
    (List.forall_mem_append.mpr ⟨fun r hr => silent_before_dollar r hr cs,
      List.forall_mem_cons.mpr ⟨unopened, List.forall_mem_singleton.mpr (chunk cs)⟩⟩)
    (matchAt?_char '$' cs) rfl (List.cons_ne_nil _ _) rfl

/-- An interpolation leads to a state of its own, and its brace back. -/
theorem categories_interpolation (below : List String) :
    (∀ cs, lexer.categories ("template" :: below) ('$' :: '{' :: cs) =
        .stringInterpol :: .stringInterpol ::
          lexer.categories ("interp" :: "template" :: below) cs) ∧
      ∀ cs, lexer.categories ("interp" :: "template" :: below) ('}' :: cs) =
        .stringInterpol :: lexer.categories ("template" :: below) cs := by
  constructor
  · intro cs
    have pushes : lexer.rules "template" = templateRules.take 2 ++
        .push (lit "$\x7b") .stringInterpol "interp" :: templateRules.drop 3 := rfl
    exact categories_of_first ("template" :: below) ['$', '{'] cs pushes
      (fun r hr => silent_before_dollar r hr _) (matchAt?_lit "$\x7b" cs) rfl
      (List.cons_ne_nil _ _) rfl
  · have pops : lexer.rules "interp" =
        [] ++ .pop (char '}') .stringInterpol :: (interpolationRules.tail ++ rules) := rfl
    exact categories_of_char ("interp" :: "template" :: below) pops (fun _ => nofun) rfl
      (beq_self_eq_true '}') rfl

mutual

/-- Code is read alike in every state for code, and what follows it from the same states. -/
theorem categories_code (code : Code) (sound : code.Sound) {state : String} (coded : Coded state)
    (below : List String) (letters : List Char) (lower : ∀ c ∈ letters, c.isLower = true)
    (more : List Char) (apart : Apart more) :
    lexer.categories (state :: below) (letters ++ (code.chars ++ more)) =
      code.reading letters ++ lexer.categories (state :: below) more := by
  have none : ∀ c ∈ ([] : List Char), c.isLower = true := fun _ => nofun
  match code with
  | .done => exact categories_letters coded lower apart
  | .word w rest =>
    rw [Code.chars, Code.reading, List.append_assoc, ← List.append_assoc letters]
    exact categories_code rest sound coded below (letters ++ w.1)
      (List.forall_mem_append.mpr ⟨lower, w.2.2⟩) more apart
  | .space w rest =>
    rw [Code.chars, Code.reading, List.append_assoc, categories_letters coded lower
      (apart_space w _), categories_space coded, List.append_assoc, List.append_assoc]
    congr 2
    exact categories_code rest sound coded below [] none more apart
  | .string w rest =>
    have follows : Apart ('"' :: (w.1 ++ '"' :: (rest.chars ++ more))) := apart_cons rfl _
    have split : (Code.string w rest).chars ++ more =
        '"' :: (w.1 ++ '"' :: (rest.chars ++ more)) := by
      rw [Code.chars, List.cons_append, List.append_assoc, List.cons_append]
    rw [split, Code.reading, categories_letters coded lower follows, categories_string coded,
      List.append_assoc, List.append_assoc]
    congr 2
    exact categories_code rest sound coded below [] none more apart
  | .braces inner rest =>
    obtain ⟨state', deep, coded', opens, closes⟩ := categories_braces coded below
    have split : (Code.braces inner rest).chars ++ more =
        '{' :: (inner.chars ++ '}' :: (rest.chars ++ more)) := by
      rw [Code.chars, List.cons_append, List.append_assoc, List.cons_append]
    have inside := categories_code inner sound.1 coded' deep [] none _
      (apart_cons (x := '}') rfl (rest.chars ++ more))
    have behind := categories_code rest sound.2 coded below [] none more apart
    rw [List.nil_append] at inside behind
    rw [split, Code.reading, categories_letters coded lower (apart_cons rfl _), opens, inside,
      closes, behind]
    simp only [List.append_assoc, List.cons_append]
  | .template t rest =>
    have split : (Code.template t rest).chars ++ more =
        backtick :: (t.chars ++ backtick :: (rest.chars ++ more)) := by
      rw [Code.chars, List.cons_append, List.append_assoc, List.cons_append]
    have behind := categories_code rest sound.2 coded below [] none more apart
    rw [List.nil_append] at behind
    rw [split, Code.reading, categories_letters coded lower (apart_cons rfl _),
      categories_opening coded, categories_template t sound.1 state below (rest.chars ++ more),
      behind]
    simp only [List.append_assoc, List.cons_append]

theorem categories_template (t : Template) (sound : t.Sound) (state : String) (below : List String)
    (more : List Char) :
    lexer.categories ("template" :: state :: below) (t.chars ++ backtick :: more) =
      t.reading ++ .stringBacktick :: lexer.categories (state :: below) more := by
  match t with
  | .done => exact categories_closing more
  | .chunk w rest =>
    rw [Template.chars, Template.reading, List.append_assoc, categories_chunk, List.append_assoc,
      categories_template rest sound state below more]
  | .escape c rest =>
    rw [Template.chars, Template.reading, List.cons_append, List.cons_append, categories_escape,
      List.append_assoc, categories_template rest sound state below more]
  | .dollar rest =>
    have lone : (rest.chars ++ backtick :: more).head? ≠ some '{' := by
      have other := sound.1
      cases h : rest.chars with
      | nil => exact fun brace => absurd brace (by simp [backtick])
      | cons x cs => rwa [h] at other
    rw [Template.chars, Template.reading, List.cons_append, categories_dollar lone,
      categories_template rest sound.2 state below more, List.cons_append]
  | .interpolation code rest =>
    obtain ⟨opens, closes⟩ := categories_interpolation (state :: below)
    have split : (Template.interpolation code rest).chars ++ backtick :: more =
        '$' :: '{' :: (code.chars ++ '}' :: (rest.chars ++ backtick :: more)) := by
      rw [Template.chars, List.cons_append, List.cons_append, List.append_assoc, List.cons_append]
    have inside := categories_code code sound.1 (.inr (.inl rfl)) ("template" :: state :: below) []
      (fun _ => nofun) _ (apart_cons (x := '}') rfl (rest.chars ++ backtick :: more))
    rw [List.nil_append] at inside
    rw [split, Template.reading, opens, inside, closes,
      categories_template rest sound.2 state below more]
    simp only [List.append_assoc, List.cons_append]

end

theorem categories_alone (code : Code) (sound : code.Sound) :
    lexer.categories ["root"] code.chars = code.reading [] := by
  have read := categories_code code sound (.inl rfl) [] [] (fun _ => nofun) [] (fun _ => nofun)
  rwa [List.nil_append, List.append_nil, categories_nil, List.append_nil] at read

theorem length_reading (code : Code) (sound : code.Sound) :
    (code.reading []).length = Text.byteLength code.chars := by
  rw [← categories_alone code sound, length_categories]

theorem length_reading_template (t : Template) (sound : t.Sound) :
    t.reading.length = Text.byteLength t.chars := by
  have read := congrArg List.length (categories_template t sound "root" [] [])
  rw [length_categories, Text.byteLength_append, categories_nil, List.length_append] at read
  exact (Nat.add_right_cancel (m := 1) read).symm

theorem nameCategory_ne_error (w : List Char) : nameCategory w ≠ .error := by
  have known : ∀ e ∈ vocabulary, e.2 ≠ .error := by decide
  rw [nameCategory]
  cases found : listing? w with
  | none => decide
  | some e => exact known e (List.mem_of_find?_eq_some found)

theorem error_notMem_wordReading (letters : List Char) : .error ∉ wordReading letters :=
  fun h => nameCategory_ne_error letters (List.eq_of_mem_replicate h).symm

mutual

theorem error_notMem_reading (code : Code) (letters : List Char) :
    .error ∉ code.reading letters := by
  match code with
  | .done => exact error_notMem_wordReading letters
  | .word w rest => exact error_notMem_reading rest (letters ++ w.1)
  | .space w rest =>
    simp [Code.reading, error_notMem_wordReading, error_notMem_reading rest]
  | .string w rest =>
    simp [Code.reading, error_notMem_wordReading, error_notMem_reading rest]
  | .braces inner rest =>
    simp [Code.reading, error_notMem_wordReading, error_notMem_reading inner,
      error_notMem_reading rest]
  | .template t rest =>
    simp [Code.reading, error_notMem_wordReading, error_notMem_template t,
      error_notMem_reading rest]

theorem error_notMem_template (t : Template) : .error ∉ t.reading := by
  match t with
  | .done => exact List.not_mem_nil
  | .chunk w rest => simp [Template.reading, error_notMem_template rest]
  | .escape c rest => simp [Template.reading, error_notMem_template rest]
  | .dollar rest => simp [Template.reading, error_notMem_template rest]
  | .interpolation code rest =>
    simp [Template.reading, error_notMem_reading code, error_notMem_template rest]

end

/-- The code of the place stands in the characters, and its own reading at the same bytes. -/
def Shows (cs : List Char) (ks : List Category) (p : Place) : Prop :=
  p.2.Sound ∧ ∃ after us vs, cs = p.1 ++ (p.2.chars ++ after) ∧
    ks = us ++ (p.2.reading [] ++ vs) ∧ us.length = Text.byteLength p.1

variable {ks : List Category} {p : Place}

theorem Shows.behind (h : Shows cs ks p) (front : List Char) (us : List Category)
    (same : us.length = Text.byteLength front) :
    Shows (front ++ cs) (us ++ ks) (p.behind front) := by
  obtain ⟨sound, after, before, vs, rfl, rfl, length⟩ := h
  refine ⟨sound, after, us ++ before, vs, ?_, ?_, ?_⟩
  · rw [Place.behind, List.append_assoc]
  · rw [Place.behind, List.append_assoc]
  · rw [Place.behind, List.length_append, Text.byteLength_append, same, length]

theorem Shows.append (h : Shows cs ks p) (more : List Char) (us : List Category) :
    Shows (cs ++ more) (ks ++ us) p := by
  obtain ⟨sound, after, before, vs, rfl, rfl, length⟩ := h
  exact ⟨sound, after ++ more, before, vs ++ us, by simp only [List.append_assoc],
    by simp only [List.append_assoc], length⟩

@[simp] theorem Place.behind_nil (p : Place) : p.behind [] = p := rfl

@[simp] theorem Place.behind_behind (p : Place) (front other : List Char) :
    (p.behind front).behind other = p.behind (other ++ front) := by
  rw [behind, behind, behind, List.append_assoc]

theorem length_enclosed {x y : Char} {w : List Char} {k k' : Category} {us : List Category}
    (opens : x.utf8Size = 1) (closes : y.utf8Size = 1) (same : us.length = Text.byteLength w) :
    (k :: (us ++ [k'])).length = Text.byteLength (x :: (w ++ [y])) := by
  rw [byteLength_enclosed opens closes, ← same]
  simp

theorem Shows.behind_letters (h : Shows cs ks p) (letters : List Char) :
    Shows (letters ++ cs) (wordReading letters ++ ks) (p.behind letters) :=
  h.behind letters (wordReading letters) List.length_replicate

mutual

theorem shows_code (code : Code) (sound : code.Sound) (letters : List Char) :
    ∀ p ∈ code.interpolations,
      Shows (letters ++ code.chars) (code.reading letters) (p.behind letters) := by
  match code with
  | .done => exact fun _ => nofun
  | .word w rest =>
    refine List.forall_mem_map.mpr fun p hp => ?_
    have shown := shows_code rest sound (letters ++ w.1) p hp
    rwa [List.append_assoc, ← Place.behind_behind] at shown
  | .space w rest =>
    refine List.forall_mem_map.mpr fun p hp => ?_
    have shown := (shows_code rest sound [] p hp).behind w.1
      (List.replicate (Text.byteLength w.1) .whitespace) List.length_replicate
    exact shown.behind_letters letters
  | .string w rest =>
    refine List.forall_mem_map.mpr fun p hp => ?_
    have shown := (shows_code rest sound [] p hp).behind ('"' :: (w.1 ++ ['"']))
      (List.replicate (Text.byteLength w.1 + 2) .string)
      (List.length_replicate.trans (byteLength_enclosed rfl rfl w.1).symm)
    simpa [Code.chars, Code.reading] using shown.behind_letters letters
  | .braces inner rest =>
    refine List.forall_mem_append.mpr ⟨List.forall_mem_map.mpr fun p hp => ?_,
      List.forall_mem_map.mpr fun p hp => ?_⟩
    · have shown := ((shows_code inner sound.1 [] p hp).behind ['{'] [.punctuation] rfl).append
        ('}' :: rest.chars) (.punctuation :: rest.reading [])
      simpa [Code.chars, Code.reading] using shown.behind_letters letters
    · have shown := (shows_code rest sound.2 [] p hp).behind ('{' :: (inner.chars ++ ['}']))
        (.punctuation :: (inner.reading [] ++ [.punctuation]))
        (length_enclosed rfl rfl (length_reading inner sound.1))
      simpa [Code.chars, Code.reading] using shown.behind_letters letters
  | .template t rest =>
    refine List.forall_mem_append.mpr ⟨List.forall_mem_map.mpr fun p hp => ?_,
      List.forall_mem_map.mpr fun p hp => ?_⟩
    · have shown :=
        ((shows_template t sound.1 p hp).behind [backtick] [.stringBacktick] rfl).append
          (backtick :: rest.chars) (.stringBacktick :: rest.reading [])
      simpa [Code.chars, Code.reading] using shown.behind_letters letters
    · have shown := (shows_code rest sound.2 [] p hp).behind
        (backtick :: (t.chars ++ [backtick]))
        (.stringBacktick :: (t.reading ++ [.stringBacktick]))
        (length_enclosed rfl rfl (length_reading_template t sound.1))
      simpa [Code.chars, Code.reading] using shown.behind_letters letters

theorem shows_template (t : Template) (sound : t.Sound) :
    ∀ p ∈ t.interpolations, Shows t.chars t.reading p := by
  match t with
  | .done => exact fun _ => nofun
  | .chunk w rest =>
    refine List.forall_mem_map.mpr fun p hp => ?_
    exact (shows_template rest sound p hp).behind w.1 _ List.length_replicate
  | .escape c rest =>
    refine List.forall_mem_map.mpr fun p hp => ?_
    have size : Text.byteLength ['\\', c] = 1 + c.utf8Size := rfl
    exact (shows_template rest sound p hp).behind ['\\', c] _
      (List.length_replicate.trans size.symm)
  | .dollar rest =>
    refine List.forall_mem_map.mpr fun p hp => ?_
    exact (shows_template rest sound.2 p hp).behind ['$'] [.stringBacktick] rfl
  | .interpolation code rest =>
    have first : Shows (Template.interpolation code rest).chars
        (Template.interpolation code rest).reading (['$', '{'], code) :=
      ⟨sound.1, '}' :: rest.chars, [.stringInterpol, .stringInterpol],
        .stringInterpol :: rest.reading, rfl, rfl, rfl⟩
    refine List.forall_mem_append.mpr ⟨List.forall_mem_cons.mpr ⟨first,
      List.forall_mem_map.mpr fun p hp => ?_⟩, List.forall_mem_map.mpr fun p hp => ?_⟩
    · exact ((shows_code code sound.1 [] p hp).behind ['$', '{']
        [.stringInterpol, .stringInterpol] rfl).append ('}' :: rest.chars)
          (.stringInterpol :: rest.reading)
    · have shown := ((shows_template rest sound.2 p hp).behind ('{' :: (code.chars ++ ['}']))
        (.stringInterpol :: (code.reading [] ++ [.stringInterpol]))
        (length_enclosed rfl rfl (length_reading code sound.1))).behind ['$'] [.stringInterpol] rfl
      simpa [Template.chars, Template.reading] using shown

end

/-- Template literals nest to any depth: each byte of code has the category of the part of the code
that it belongs to, none is an error, and the code of an interpolation is read as it is alone. -/
theorem tokens_code (code : Code) (sound : code.Sound) :
    Token.bytewise (lexer.tokens (String.ofList code.chars)) = code.reading [] ∧
      (∀ t ∈ lexer.tokens (String.ofList code.chars), t.category ≠ .error) ∧
      ∀ p ∈ code.interpolations, (∃ after, code.chars = p.1 ++ (p.2.chars ++ after)) ∧
        ((Token.bytewise (lexer.tokens (String.ofList code.chars))).drop
            (Text.byteLength p.1)).take (Text.byteLength p.2.chars) =
          Token.bytewise (lexer.tokens (String.ofList p.2.chars)) := by
  have read (code : Code) (sound : code.Sound) :
      Token.bytewise (lexer.tokens (String.ofList code.chars)) = code.reading [] := by
    rw [tokens, bytewise_tokensFrom, String.toList_ofList, categories_alone code sound]
  refine ⟨read code sound, fun t ht error => ?_, fun p hp => ?_⟩
  · have known := category_mem_categories ht
    rw [String.toList_ofList, categories_alone code sound, error] at known
    exact error_notMem_reading code [] known
  · have shown := shows_code code sound [] p hp
    rw [Place.behind_nil, List.nil_append] at shown
    obtain ⟨inside, after, us, vs, chars, categories, length⟩ := shown
    refine ⟨⟨after, chars⟩, ?_⟩
    rw [read code sound, read p.2 inside, categories, ← length, List.drop_left,
      ← length_reading p.2 inside, List.take_left]

/-- A template literal in an interpolation, with braces around it and a string in its own. -/
def nested : Code :=
  let space : Space := ⟨[' '], List.cons_ne_nil _ _, List.forall_mem_singleton.mpr rfl⟩
  let deepest : Template := .chunk ⟨['b'], by simp [backtick]⟩ (.interpolation
    (.string ⟨['}'], by simp⟩ .done) (.dollar .done))
  .word ⟨['i', 'f'], List.cons_ne_nil _ _, List.forall_mem_cons.mpr
    ⟨rfl, List.forall_mem_singleton.mpr rfl⟩⟩ (.template (.escape '$' (.interpolation
    (.braces (.template deepest .done) (.space space .done)) .done)) .done)

theorem tokens_code_nested :
    nested.Sound ∧ nested.interpolations.length = 2 ∧
      Token.bytewise (lexer.tokens (String.ofList nested.chars)) =
        List.replicate 2 .keyword ++ .stringBacktick :: List.replicate 2 .stringEscape ++
        List.replicate 2 .stringInterpol ++ .punctuation :: List.replicate 2 .stringBacktick ++
        List.replicate 2 .stringInterpol ++ List.replicate 3 .string ++
        .stringInterpol :: List.replicate 2 .stringBacktick ++
        [.punctuation, .whitespace, .stringInterpol, .stringBacktick] := by
  have sound : nested.Sound := by simp [nested, Code.Sound, Template.Sound, Template.chars]
  exact ⟨sound, rfl, (tokens_code nested sound).1.trans (by decide +kernel)⟩

end HybridTemplate.Lexer.Script
