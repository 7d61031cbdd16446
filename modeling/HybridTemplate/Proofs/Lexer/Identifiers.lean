import HybridTemplate.Lexer.Script
import HybridTemplate.Proofs.Lexer.Rules

set_option autoImplicit false

namespace HybridTemplate.Lexer.Script

open Parts Pattern

variable {state : String} {stack : List String} {x : Char} {w cs back : List Char}

/-- The words that are not names of their own, with their categories. -/
def vocabulary : List (List String × Category) := [
  (["import", "export", "from"], .keywordNamespace),
  (["var", "let", "const", "function", "class"], .keywordDeclaration),
  (["true", "false", "null", "undefined", "NaN", "Infinity"], .keywordConstant),
  (keywords, .keyword),
  (builtins, .nameBuiltin)]

def listing? (w : List Char) : Option (List String × Category) :=
  vocabulary.find? fun e => String.ofList w ∈ e.1

def nameCategory (w : List Char) : Category := ((listing? w).map Prod.snd).getD .nameOther

def wordRule (e : List String × Category) : Rule := .token (keyword e.1) e.2

def openers : List Pattern :=
  [many1 blank, seq (lit "//") (many inLine), blockComment, char backtick, quoted '"', quoted '\'']

theorem matcher_openers : (rules.take 6).map Rule.matcher = openers.map Pattern.matcher := rfl

theorem rules_eq : rules =
    rules.take 6 ++ (vocabulary.map wordRule ++ .token identifier .nameOther :: rules.drop 12) :=
  rfl

theorem words_of_vocabulary :
    ∀ e ∈ vocabulary, ∀ s ∈ e.1, s ≠ "" ∧ ∀ c ∈ s.toList, Text.isWord c = true := by
  have known : ∀ e ∈ vocabulary, ∀ s ∈ e.1, s ≠ "" ∧ s.toList.all Text.isWord = true := by
    decide +kernel
  exact fun e he s hs => (known e he s hs).imp_right List.all_eq_true.mp

theorem listing?_of_mem : ∀ e ∈ vocabulary, ∀ s ∈ e.1, listing? s.toList = some e := by
  decide +kernel

theorem eq_of_category : ∀ e ∈ vocabulary, e.2 ≠ .nameOther ∧
    ∀ f ∈ vocabulary, e.2 = f.2 → e = f := by
  decide +kernel

/-- A state in which code is read. -/
def Coded (state : String) : Prop := state = "root" ∨ state = "interp" ∨ state = "brace"

instance (state : String) : Decidable (Coded state) := inferInstanceAs (Decidable (_ ∨ _ ∨ _))

theorem silent_braces {rule : Rule} {brace : Char} (same : rule.matcher = (char brace).matcher)
    (other : x ≠ brace) : Silent x rule := by
  intro cs
  rw [same]
  exact (matchAt?_one x cs).trans (if_neg (by simpa using other))

theorem rules_of_coded (coded : Coded state) :
    ∃ own, lexer.rules state = own ++ rules ∧ ∀ x, x ≠ '{' → x ≠ '}' → ∀ r ∈ own, Silent x r := by
  rcases coded with rfl | rfl | rfl
  · exact ⟨[], rfl, fun _ _ _ _ => nofun⟩
  · refine ⟨interpolationRules, rfl, fun x opens closes => ?_⟩
    simp only [interpolationRules, List.forall_mem_cons]
    exact ⟨silent_braces rfl closes, silent_braces rfl opens, fun _ => nofun⟩
  · refine ⟨braceRules, rfl, fun x opens closes => ?_⟩
    simp only [braceRules, List.forall_mem_cons]
    exact ⟨silent_braces rfl closes, silent_braces rfl opens, fun _ => nofun⟩

theorem ascii_of_isAlphanum (h : x.isAlphanum = true) : x.val < 128 := by
  rcases Bool.or_eq_true_iff.mp h with letter | digit
  · rcases Bool.or_eq_true_iff.mp letter with upper | lower
    · exact UInt32.lt_of_le_of_lt (of_decide_eq_true upper).2 (by decide)
    · have last := (Bool.and_eq_true_iff.mp lower).2
      exact UInt32.lt_of_le_of_lt (of_decide_eq_true last) (by decide)
  · have last := (Bool.and_eq_true_iff.mp digit).2
    exact UInt32.lt_of_le_of_lt (of_decide_eq_true last) (by decide)

theorem ascii_of_isNameStart (start : isNameStart x = true) : x.val < 128 := by
  simp only [isNameStart, Bool.or_eq_true, beq_iff_eq] at start
  rcases start with (letter | rfl) | rfl
  · exact ascii_of_isAlphanum (Bool.or_eq_true_iff.mpr (.inl letter))
  · decide
  · decide

theorem silent_openers (start : isNameStart x = true) : ∀ r ∈ rules.take 6, Silent x r := by
  let Unopened (x : Char) : Prop :=
    isNameStart x = true → ∀ p ∈ openers, p.begins x = false ∧ p.consumes = true
  have unopened : ∀ n < 128, Unopened (Char.ofNat n) := by decide +kernel
  exact silent_of_begins openers matcher_openers
    (forall_ascii unopened (ascii_of_isNameStart start) start)

/-- No rule before those for words matches where a name begins. -/
theorem silent_before_words (coded : Coded (stack.headD "root")) :
    ∃ before, lexer.rules (stack.headD "root") =
        before ++ (vocabulary.map wordRule ++ .token identifier .nameOther :: rules.drop 12) ∧
      ∀ x, isNameStart x = true → ∀ r ∈ before, Silent x r := by
  obtain ⟨own, split, silent⟩ := rules_of_coded coded
  refine ⟨own ++ rules.take 6, ?_, fun x start => ?_⟩
  · rw [split, List.append_assoc, ← rules_eq]
  · have opens : x ≠ '{' := by
      rintro rfl
      cases start
    have closes : x ≠ '}' := by
      rintro rfl
      cases start
    exact List.forall_mem_append.mpr ⟨silent x opens closes, silent_openers start⟩

theorem start_of_vocabulary :
    ∀ e ∈ vocabulary, ∀ s ∈ e.1, s.toList.head?.any isNameStart = true := by
  decide +kernel

/-- The rule for some words matches where one of them stands alone. -/
theorem matchAt?_wordRule {e : List String × Category} (he : e ∈ vocabulary)
    (word : ∀ c ∈ w, Text.isWord c = true) (stops : back.head?.any Text.isWord = false) :
    (wordRule e).matcher.matchAt? (w ++ back) =
      if String.ofList w ∈ e.1 then some ⟨w.length, []⟩ else none := by
  have known := matchAt?_keyword (words_of_vocabulary e he) (w ++ back)
  rw [takeWhile_word word stops] at known
  exact known

theorem categories_listed (coded : Coded (stack.headD "root")) {e : List String × Category}
    (he : e ∈ vocabulary) {s : String} (hs : s ∈ e.1) (back : List Char)
    (stops : back.head?.any Text.isWord = false) :
    lexer.categories stack (s.toList ++ back) =
      List.replicate s.utf8ByteSize e.2 ++ lexer.categories stack back := by
  obtain ⟨filled, word⟩ := words_of_vocabulary e he s hs
  have chars : s.toList ≠ [] := fun none => filled (String.toList_injective none)
  obtain ⟨before, rules, silent⟩ := silent_before_words coded
  obtain ⟨-, earlier, later, split, others⟩ :=
    List.find?_eq_some_iff_append.mp (listing?_of_mem e he s hs)
  rw [split, List.map_append, List.map_cons, List.append_assoc, List.cons_append,
    ← List.append_assoc] at rules
  have read := categories_of_first stack s.toList back (m := ⟨s.toList.length, []⟩) rules ?_ ?_ rfl
    chars rfl
  · rw [Text.byteLength_toList] at read
    exact read
  · refine List.forall_mem_append.mpr ⟨fun r hr => ?_, List.forall_mem_map.mpr fun f hf => ?_⟩
    · have start := start_of_vocabulary e he s hs
      obtain ⟨x, rest, cons⟩ := List.exists_cons_of_ne_nil chars
      rw [cons] at start ⊢
      exact silent x start r hr _
    · have hv : f ∈ vocabulary := split ▸ List.mem_append_left _ hf
      exact (matchAt?_wordRule hv word stops).trans (if_neg (by simpa using others f hf))
  · refine (matchAt?_wordRule he word stops).trans (if_pos ?_)
    rw [String.ofList_toList]
    exact hs

def isNamePart (c : Char) : Bool := Text.isWord c || c == '$'

theorem matchAt?_identifier (start : isNameStart x = true) (parts : ∀ c ∈ w, isNamePart c = true)
    (stops : ∀ c, back.head? = some c → isNamePart c = false) :
    identifier.matchAt? (x :: w ++ back) = some ⟨w.length + 1, []⟩ := by
  have on := step_of_accepted (.atStart (x :: w ++ back) false) x (w ++ back) rfl start
  obtain ⟨d, first, pos, -, groups⟩ := head?_reach_many parts step_of_accepted
    (step_of_stop stops) (c := ⟨1, some x, w ++ back, [], [], false⟩) rfl rfl
  have whole : (reach identifier (.atStart (x :: w ++ back) false)).head? = some d := by
    rw [identifier, head?_reach_seq]
    exact findSome?_of_head? (congrArg List.head? on) first
  rw [matchAt?_eq rfl, whole, Option.map_some, groups, pos, Nat.add_comm]

theorem categories_name (coded : Coded (stack.headD "root")) (start : isNameStart x = true)
    (parts : ∀ c ∈ w, isNamePart c = true) (back : List Char)
    (stops : ∀ c, back.head? = some c → isNamePart c = false)
    (unlisted : ∀ e ∈ vocabulary,
      String.ofList ((x :: w ++ back).takeWhile Text.isWord) ∉ e.1) :
    lexer.categories stack (x :: w ++ back) =
      List.replicate (Text.byteLength (x :: w)) .nameOther ++ lexer.categories stack back := by
  obtain ⟨before, rules, silent⟩ := silent_before_words coded
  rw [← List.append_assoc] at rules
  refine categories_of_first stack (x :: w) back rules
    (List.forall_mem_append.mpr ⟨fun r hr => ?_, ?_⟩) (matchAt?_identifier start parts stops) rfl
    (List.cons_ne_nil x w) rfl
  · exact silent x start r hr (w ++ back)
  · refine List.forall_mem_map.mpr fun e he => ?_
    exact (matchAt?_keyword (words_of_vocabulary e he) _).trans (if_neg (unlisted e he))

theorem nameCategory_of_mem {e : List String × Category} (he : e ∈ vocabulary) {s : String}
    (hs : s ∈ e.1) : nameCategory s.toList = e.2 := by
  rw [nameCategory, listing?_of_mem e he s hs]
  rfl

theorem nameCategory_of_unlisted (unlisted : ∀ e ∈ vocabulary, String.ofList w ∉ e.1) :
    nameCategory w = .nameOther := by
  have none : listing? w = none :=
    List.find?_eq_none.mpr fun e he => by simpa using unlisted e he
  rw [nameCategory, none]
  rfl

theorem categories_word (coded : Coded (stack.headD "root")) (start : isNameStart x = true)
    (word : ∀ c ∈ x :: w, Text.isWord c = true)
    (stops : ∀ c, back.head? = some c → isNamePart c = false) :
    lexer.categories stack (x :: w ++ back) =
      List.replicate (Text.byteLength (x :: w)) (nameCategory (x :: w)) ++
        lexer.categories stack back := by
  have ends : back.head?.any Text.isWord = false := by
    cases first : back.head? with
    | none => rfl
    | some c => exact (Bool.or_eq_false_iff.mp (stops c first)).1
  by_cases listed : ∃ e ∈ vocabulary, String.ofList (x :: w) ∈ e.1
  · obtain ⟨e, he, hs⟩ := listed
    have read := categories_listed coded he hs back ends
    rw [← nameCategory_of_mem he hs, String.toList_ofList, byteSize_ofList] at read
    exact read
  · have unlisted : ∀ e ∈ vocabulary, String.ofList (x :: w) ∉ e.1 :=
      fun e he hs => listed ⟨e, he, hs⟩
    rw [nameCategory_of_unlisted unlisted]
    refine categories_name coded start (fun c hc => ?_) back stops ?_
    · simp [isNamePart, word c (List.mem_cons_of_mem x hc)]
    · rw [takeWhile_word word ends]
      exact unlisted

def IsIdentifier (w : String) : Prop :=
  ∃ c cs, w.toList = c :: cs ∧ isNameStart c = true ∧
    ∀ d ∈ cs, d.isAlphanum = true ∨ d = '_' ∨ d = '$'

/-- The part of a name before its first dollar sign. -/
def stem (w : String) : String := String.ofList (w.toList.takeWhile (· ≠ '$'))

def behind (w : String) : String := String.ofList (w.toList.dropWhile (· ≠ '$'))

theorem isWord_of_part (part : x.isAlphanum = true ∨ x = '_' ∨ x = '$') :
    Text.isWord x = true ↔ x ≠ '$' := by
  rcases part with letter | rfl | rfl
  · have ascii := ascii_of_isAlphanum letter
    rw [Text.isWord_ascii ascii, Text.isAsciiWord, letter, Bool.true_or]
    refine ⟨fun _ => ?_, fun _ => rfl⟩
    rintro rfl
    cases letter
  · decide
  · decide

theorem IsIdentifier.parts {w : String} (h : IsIdentifier w) :
    ∀ d ∈ w.toList, d.isAlphanum = true ∨ d = '_' ∨ d = '$' := by
  obtain ⟨c, cs, chars, start, parts⟩ := h
  rw [chars]
  refine List.forall_mem_cons.mpr ⟨?_, parts⟩
  simp only [isNameStart, Bool.or_eq_true, beq_iff_eq] at start
  rcases start with (letter | rfl) | rfl
  · exact .inl (Bool.or_eq_true_iff.mpr (.inl letter))
  · exact .inr (.inl rfl)
  · exact .inr (.inr rfl)

theorem IsIdentifier.takeWhile_eq {w : String} (h : IsIdentifier w) :
    w.toList.takeWhile Text.isWord = (stem w).toList := by
  have same (cs : List Char) (parts : ∀ d ∈ cs, d.isAlphanum = true ∨ d = '_' ∨ d = '$') :
      cs.takeWhile Text.isWord = cs.takeWhile (· ≠ '$') := by
    induction cs with
    | nil => rfl
    | cons d cs ih =>
      obtain ⟨here, later⟩ := List.forall_mem_cons.mp parts
      rw [List.takeWhile_cons, List.takeWhile_cons, ih later]
      simp only [isWord_of_part here, decide_eq_true_eq]
  rw [stem, String.toList_ofList, same _ h.parts]

theorem stem_append_behind (w : String) : stem w ++ behind w = w := by
  rw [stem, behind, ← String.ofList_append, List.takeWhile_append_dropWhile, String.ofList_toList]

theorem isNamePart_of_part (part : x.isAlphanum = true ∨ x = '_' ∨ x = '$') :
    isNamePart x = true := by
  by_cases dollar : x = '$'
  · rw [dollar]
    rfl
  · rw [isNamePart, (isWord_of_part part).mpr dollar, Bool.true_or]

theorem IsIdentifier.behind_eq {w : String} (h : IsIdentifier w) (cut : stem w ≠ w) :
    ∃ ds, (behind w).toList = '$' :: ds ∧ ∀ d ∈ ds, isNamePart d = true := by
  have joined := stem_append_behind w
  cases rest : (behind w).toList with
  | nil =>
    have none : behind w = "" := String.toList_injective rest
    rw [none, String.append_empty] at joined
    exact absurd joined cut
  | cons d ds =>
    have chars : w.toList.dropWhile (· ≠ '$') = d :: ds := by
      rw [← rest, behind, String.toList_ofList]
    have first := List.head?_dropWhile_not (· ≠ '$') w.toList
    rw [chars] at first
    obtain rfl : d = '$' := by simpa using first
    refine ⟨ds, rfl, fun d hd => isNamePart_of_part (h.parts d ?_)⟩
    refine (List.dropWhile_suffix (l := w.toList) (· ≠ '$')).subset ?_
    rw [chars]
    exact List.mem_cons_of_mem _ hd

theorem stem_of_listed {e : List String × Category} (he : e ∈ vocabulary) {w : String}
    (hw : w ∈ e.1) : stem w = w := by
  have plain : ∀ c ∈ w.toList, decide (c ≠ '$') = true := fun c hc => by
    refine decide_eq_true ?_
    rintro rfl
    exact absurd ((words_of_vocabulary e he w hw).2 '$' hc) (by decide)
  have all : (w.toList ++ []).takeWhile (fun c => decide (c ≠ '$')) = w.toList ++ [] :=
    List.takeWhile_append_of_pos plain
  rw [List.append_nil] at all
  rw [stem, all, String.ofList_toList]

theorem nameCategory_eq_iff (w : String) :
    (∀ e ∈ vocabulary, nameCategory w.toList = e.2 ↔ w ∈ e.1) ∧
      (nameCategory w.toList = .nameOther ↔ ∀ e ∈ vocabulary, w ∉ e.1) := by
  by_cases listed : ∃ e ∈ vocabulary, w ∈ e.1
  · obtain ⟨e, he, hw⟩ := listed
    obtain ⟨other, only⟩ := eq_of_category e he
    rw [nameCategory_of_mem he hw]
    refine ⟨fun f hf => ⟨fun same => only f hf same ▸ hw, fun hf' => ?_⟩, fun none => ?_,
      fun none => ?_⟩
    · rw [← nameCategory_of_mem he hw, nameCategory_of_mem hf hf']
    · exact absurd none other
    · exact absurd hw (none e he)
  · have unlisted : ∀ e ∈ vocabulary, w ∉ e.1 := fun e he hw => listed ⟨e, he, hw⟩
    rw [nameCategory_of_unlisted (by simpa using unlisted)]
    refine ⟨fun e he => ⟨fun same => absurd same.symm (eq_of_category e he).1, fun hw => ?_⟩,
      fun _ => unlisted, fun _ => rfl⟩
    exact absurd hw (unlisted e he)

theorem coded_root : Coded (["root"].headD "root") := .inl rfl

theorem tokens_of_whole {w : String} (identifier : IsIdentifier w)
    (whole : ∀ e ∈ vocabulary, stem w ∈ e.1 → stem w = w) :
    lexer.tokens w = [⟨0, nameCategory w.toList, w⟩] := by
  obtain ⟨c, cs, chars, start, parts⟩ := id identifier
  have filled : w ≠ "" := by
    rintro rfl
    cases chars
  refine tokensFrom_eq (.single ⟨0, _, w⟩) (List.forall_mem_singleton.mpr filled) (.singleton _) ?_
  rw [Token.bytewise_cons, Token.bytewise_nil]
  by_cases listed : ∃ e ∈ vocabulary, stem w ∈ e.1
  · obtain ⟨e, he, hs⟩ := listed
    rw [whole e he hs] at hs
    have read := categories_listed coded_root he hs [] rfl
    rw [List.append_nil, categories_nil] at read
    rw [nameCategory_of_mem he hs, read]
  · have unlisted : ∀ e ∈ vocabulary, stem w ∉ e.1 := fun e he hs => listed ⟨e, he, hs⟩
    have other : nameCategory w.toList = .nameOther := by
      refine (nameCategory_eq_iff w).2.mpr fun e he hw => unlisted e he ?_
      rw [stem_of_listed he hw]
      exact hw
    have read := categories_name coded_root start (fun d hd => isNamePart_of_part (parts d hd))
      [] (fun _ => nofun) ?_
    · rw [List.append_nil, ← chars, Text.byteLength_toList, categories_nil] at read
      rw [other, read]
    · rw [List.append_nil, ← chars, identifier.takeWhile_eq, String.ofList_toList]
      exact unlisted

theorem tokens_of_cut {w : String} (identifier : IsIdentifier w) {e : List String × Category}
    (he : e ∈ vocabulary) (hs : stem w ∈ e.1) (cut : stem w ≠ w) :
    lexer.tokens w =
      [⟨0, e.2, stem w⟩, ⟨(stem w).utf8ByteSize, .nameOther, behind w⟩] := by
  obtain ⟨ds, dollar, more⟩ := identifier.behind_eq cut
  have joined := stem_append_behind w
  have tiles : Token.Tiles 0 w
      [⟨0, e.2, stem w⟩, ⟨(stem w).utf8ByteSize, .nameOther, behind w⟩] := by
    have both := (Token.Tiles.single ⟨0, e.2, stem w⟩).append
      (.single ⟨0 + (stem w).utf8ByteSize, .nameOther, behind w⟩)
    rw [joined, Nat.zero_add] at both
    exact both
  have filled : behind w ≠ "" := fun void => by
    rw [void] at dollar
    cases dollar
  refine tokensFrom_eq tiles ?_ ?_ ?_
  · exact List.forall_mem_cons.mpr ⟨(words_of_vocabulary e he _ hs).1,
      List.forall_mem_singleton.mpr filled⟩
  · exact .cons_cons (eq_of_category e he).1 (.singleton _)
  · have front := categories_listed coded_root he hs (behind w).toList
      (by rw [dollar]; rfl)
    have back := categories_name coded_root (x := '$') rfl more [] (fun _ => nofun)
      fun f hf none => (words_of_vocabulary f hf _ none).1 rfl
    rw [← String.toList_append, joined] at front
    rw [List.append_nil, ← dollar, Text.byteLength_toList, categories_nil] at back
    rw [front, back]
    rfl

/-- A name is one token, listed or not, unless a listed word in it stands before a dollar sign. Such
a word is cut off. -/
theorem tokens_identifier {w : String} (identifier : IsIdentifier w) :
    ((∀ e ∈ vocabulary, stem w ∈ e.1 → stem w = w) →
      ∃ category, lexer.tokens w = [⟨0, category, w⟩] ∧
        (∀ e ∈ vocabulary, category = e.2 ↔ w ∈ e.1) ∧
        (category = .nameOther ↔ ∀ e ∈ vocabulary, w ∉ e.1)) ∧
    ∀ e ∈ vocabulary, stem w ∈ e.1 → stem w ≠ w →
      lexer.tokens w =
        [⟨0, e.2, stem w⟩, ⟨(stem w).utf8ByteSize, .nameOther, behind w⟩] :=
  ⟨fun whole => ⟨nameCategory w.toList, tokens_of_whole identifier whole, nameCategory_eq_iff w⟩,
    fun _ he hs cut => tokens_of_cut identifier he hs cut⟩

theorem tokens_identifier_beyond_keyword :
    IsIdentifier "instanceof_$in" ∧ (∀ e ∈ vocabulary, stem "instanceof_$in" ∉ e.1) ∧
      ∃ category, lexer.tokens "instanceof_$in" = [⟨0, category, "instanceof_$in"⟩] ∧
        category = .nameOther := by
  have parts : "nstanceof_$in".toList.all
      (fun d => decide (d.isAlphanum = true ∨ d = '_' ∨ d = '$')) = true := by
    decide +kernel
  have identifier : IsIdentifier "instanceof_$in" :=
    ⟨'i', _, rfl, rfl, fun d hd => of_decide_eq_true (List.all_eq_true.mp parts d hd)⟩
  have unlisted : ∀ e ∈ vocabulary, stem "instanceof_$in" ∉ e.1 := by decide +kernel
  obtain ⟨category, one, -, other⟩ :=
    (tokens_identifier identifier).1 fun e he hs => absurd hs (unlisted e he)
  exact ⟨identifier, unlisted, category, one, other.mpr (by decide +kernel)⟩

/-- A dollar sign goes on with a name, and still the word before it is read as a keyword. -/
theorem keyword_before_dollar_is_cut :
    IsIdentifier "if$" ∧
      lexer.tokens "if$" = [⟨0, .keyword, "if"⟩, ⟨2, .nameOther, "$"⟩] ∧
      ¬ ∃ category, lexer.tokens "if$" = [⟨0, category, "if$"⟩] := by
  have identifier : IsIdentifier "if$" :=
    ⟨'i', ['f', '$'], rfl, rfl, List.forall_mem_cons.mpr
      ⟨.inl rfl, List.forall_mem_singleton.mpr (.inr (.inr rfl))⟩⟩
  have cut := tokens_of_cut identifier (e := (keywords, .keyword)) (by decide +kernel)
    (by decide +kernel) (by decide +kernel)
  have parts : stem "if$" = "if" ∧ behind "if$" = "$" := by decide +kernel
  rw [parts.1, parts.2] at cut
  refine ⟨identifier, cut, ?_⟩
  rintro ⟨category, one⟩
  exact absurd (congrArg List.length (cut.symm.trans one)) (by simp)

end HybridTemplate.Lexer.Script
