import HybridTemplate.Proofs.Pattern.Beginnings
import HybridTemplate.Proofs.Pattern.Written
import HybridTemplate.Proofs.Utility.StartTags

set_option autoImplicit false

namespace HybridTemplate

namespace Pattern

def Match.text? (m : Match) (subject : List Char) (index : Nat) : Option (List Char) :=
  (m.group? index).map fun g => (subject.drop g.1).take (g.2 - g.1)

/-- The groups of the matches from left to right. The search goes on behind each match, which has
to have used up a character. -/
def captures (p : Pattern) (cs : List Char) : List (Nat → Option (List Char)) :=
  match cs with
  | [] => []
  | c :: cs =>
    match p.matchAt? (c :: cs) with
    | some m => m.text? (c :: cs) :: captures p (cs.drop (m.length - 1))
    | none => captures p cs
termination_by cs.length
decreasing_by
  · simp only [List.length_drop, List.length_cons]
    omega
  · simp

variable {p : Pattern} {x : Char} {cs : List Char}

theorem captures_of_match {m : Match} (found : p.matchAt? (x :: cs) = some m)
    (filled : 0 < m.length) :
    captures p (x :: cs) = m.text? (x :: cs) :: captures p ((x :: cs).drop m.length) := by
  obtain ⟨n, length⟩ := Nat.exists_eq_succ_of_ne_zero (Nat.ne_of_gt filled)
  rw [captures, found]
  simp only [length, Nat.succ_sub_one, Nat.succ_eq_add_one, List.drop_succ_cons]

theorem captures_of_none (none : p.matchAt? (x :: cs) = none) :
    captures p (x :: cs) = captures p cs := by
  rw [captures, none]

end Pattern

namespace Utility.MarkupScan

open Pattern
open Text (CharSet)

def quotedText (q : Char) : Pattern := seqs [char q, many (noneOf (String.ofList [q])), char q]

def isPlain (c : Char) : Bool := !isQuote c && c != '>'

/-- A part of a start tag behind its name: text without quotes, or text in quotes. -/
def tagPart : Pattern := alts [many1 (one isPlain), quotedText '"', quotedText '\'']

def startTag : Pattern :=
  seqs [char '<', group 1 (many1 (one Char.isAlphanum)), group 2 (many tagPart), maybe (char '/'),
    char '>']

def valueText : Pattern := alts [quotedText '\'', quotedText '"', many1 (one isBareChar)]

def assigned : Pattern := seqs [many blank, char '=', many blank, group 2 valueText]

def tagAttribute : Pattern := seq (group 1 (many1 (one isKeyChar))) (maybe assigned)

theorem has_alphanumerics (c : Char) :
    ((uppers.union lowers).union decimals).has c = c.isAlphanum := by
  rw [CharSet.has_union, has_letters, has_decimals]
  rfl

def plainChars : CharSet := (CharSet.ofChars "\"'>".toList).complement

theorem has_plainChars (c : Char) : plainChars.has c = isPlain c := by
  simp [plainChars, isPlain, isQuote, bne, Bool.and_assoc, Bool.beq_eq_decide_eq]

def keyChars : CharSet := (CharSet.blanks.union (.ofChars "\"'>/=".toList)).complement

theorem has_keyChars (c : Char) : keyChars.has c = isKeyChar c := by
  simp [keyChars, isKeyChar, isQuote, Bool.and_assoc, Bool.beq_eq_decide_eq]

def bareChars : CharSet := (CharSet.blanks.union (.ofChars "\"'=><\x60".toList)).complement

theorem has_bareChars (c : Char) : bareChars.has c = isBareChar c := by
  simp [bareChars, isBareChar, isQuote, Bool.and_assoc, Bool.beq_eq_decide_eq]

def writtenQuoted (q : Char) : Written (quotedText q) :=
  .seq (.char q) (.seq (.many (.noneOf (String.ofList [q])) rfl) (.char q))

def writtenStartTag : Written startTag :=
  .seq (.char '<') <| .seq (.group 1 (.many1 (.set _ has_alphanumerics) rfl)) <|
  .seq (.group 2 (.many (.alt (.many1 (.set plainChars has_plainChars) rfl)
    (.alt (writtenQuoted '"') (writtenQuoted '\''))) rfl)) <|
  .seq (.maybe (.char '/')) (.char '>')

def blanks : Written (many blank) := .many .blank Written.mayBeEmpty_blank

def writtenAttribute : Written tagAttribute :=
  .seq (.group 1 (.many1 (.set keyChars has_keyChars) rfl)) <|
  .maybe <| .seq blanks <| .seq (.char '=') <| .seq blanks <|
  .group 2 (.alt (writtenQuoted '\'') (.alt (writtenQuoted '"')
    (.many1 (.set bareChars has_bareChars) rfl)))

theorem startTag_written :
    ofText? "<([a-zA-Z0-9]+)((?:[^\"'>]+|\"[^\"]*\"|'[^']*')*)/?>" = some startTag :=
  writtenStartTag.ofText?_eq (by decide +kernel)

theorem tagAttribute_written :
    ofText? "([^\\s\"'>/=]+)(?:\\s*=\\s*('[^']*'|\"[^\"]*\"|[^\\s\"'=><\x60]+))?" =
      some tagAttribute :=
  writtenAttribute.ofText?_eq (by decide +kernel)

theorem exists_of_quotedRest? {q : Char} {cs inside rest : List Char}
    (h : quotedRest? q cs = some (inside, rest)) :
    ∃ body, q ∉ body ∧ inside = body ++ [q] ∧ cs = body ++ q :: rest := by
  unfold quotedRest? at h
  split at h
  · cases h
  · rename_i c tail left
    cases h
    obtain rfl : c = q := by
      have := List.head?_dropWhile_not (· != q) cs
      simpa [left] using this
    refine ⟨cs.takeWhile (· != c), fun inside => ?_, rfl, ?_⟩
    · simpa using List.all_eq_true.mp List.all_takeWhile c inside
    · rw [← left, List.takeWhile_append_dropWhile]

section

variable {c d : Cursor} {a back front : List Char}

theorem exists_covers_quoted {q : Char} {body : List Char} (apart : q ∉ body)
    (late : c.late = false) (rest : c.rest = q :: body ++ q :: back) :
    ∃ d, Covers (quotedText q) c (q :: body ++ [q]) [] d ∧ d.rest = back := by
  have plain : ∀ x ∈ body, (!(String.ofList [q]).toList.contains x) = true := by
    intro x hx
    have : x ≠ q := fun same => apart (same ▸ hx)
    simpa using this
  have stops : ∀ x, (q :: back).head? = some x → (!(String.ofList [q]).toList.contains x) = false :=
    by simp
  obtain ⟨d, opens⟩ := Covers.char rest
  obtain ⟨e, inside, left⟩ := exists_covers_many plain stops (opens.late.trans late)
    (List.cons.inj (opens.rest.symm.trans rest)).2
  obtain ⟨f, closes⟩ := Covers.char left
  exact ⟨f, opens.seq (inside.seq closes), (List.cons.inj (closes.rest.symm.trans left)).2⟩

theorem rest_of_mem_quoted {q : Char} (hd : d ∈ reach (quotedText q) c) :
    ∃ body, q ∉ body ∧ c.rest = q :: body ++ q :: d.rest := by
  obtain ⟨e, he, hd⟩ := exists_of_mem_seq hd
  obtain ⟨f, hf, hd⟩ := exists_of_mem_seq hd
  obtain ⟨body, plain, rest⟩ := rest_of_mem_many hf
  refine ⟨body, fun inside => ?_, ?_⟩
  · simpa using plain q inside
  · rw [rest_of_mem_char he, rest, rest_of_mem_char hd]
    rfl

theorem isPlain_iff {x : Char} : isPlain x = true ↔ x ≠ '>' ∧ isQuote x = false := by
  simp [isPlain, and_comm]

theorem exists_passes_tagPart (hd : d ∈ reach tagPart c) :
    ∃ front, Passes front ∧ c.rest = front ++ d.rest := by
  obtain ⟨p, hp, hd⟩ := mem_reach_alts.mp hd
  simp only [List.mem_cons, List.not_mem_nil, or_false] at hp
  have quoted {q : Char} (quote : isQuote q = true) (hd : d ∈ reach (quotedText q) c) :
      ∃ front, Passes front ∧ c.rest = front ++ d.rest := by
    obtain ⟨body, apart, rest⟩ := rest_of_mem_quoted hd
    refine ⟨_, passes_quoted ⟨q, String.ofList body, quote, by simpa using apart⟩, ?_⟩
    simpa [QuotedText.chars] using rest
  rcases hp with rfl | rfl | rfl
  · obtain ⟨x, front, first, all, rest⟩ := rest_of_mem_many1 hd
    refine ⟨x :: front, passes_of_forall (List.forall_mem_cons.mpr ⟨?_, fun y hy => ?_⟩), rest⟩
    · exact isPlain_iff.mp first
    · exact isPlain_iff.mp (all y hy)
  · exact quoted rfl hd
  · exact quoted rfl hd

theorem exists_passes_tagParts (hd : d ∈ reach (many tagPart) c) :
    ∃ front, Passes front ∧ c.rest = front ++ d.rest := by
  refine forall_mem_reach_loop (P := fun d => ∃ front, Passes front ∧ c.rest = front ++ d.rest)
    ?_ ?_ d hd
  · intro d hd
    obtain rfl := List.mem_singleton.mp hd
    exact ⟨[], passes_nil, rfl⟩
  · rintro d ⟨front, passes, rest⟩ e he
    obtain ⟨more, further, left⟩ := exists_passes_tagPart he
    exact ⟨front ++ more, passes.append further, by rw [rest, left, List.append_assoc]⟩

theorem exists_passes_slash (hd : d ∈ reach (maybe (char '/')) c) :
    ∃ front, Passes front ∧ c.rest = front ++ d.rest := by
  have either : d ∈ reach (char '/') c ∨ d = c := by simpa [maybe, reach] using hd
  rcases either with slash | rfl
  · exact ⟨['/'], passes_singleton (by decide) rfl, rest_of_mem_char slash⟩
  · exact ⟨[], passes_nil, rfl⟩

theorem passes_of_isAlphanum (all : ∀ x ∈ front, x.isAlphanum = true) : Passes front := by
  refine passes_of_forall fun x hx => ?_
  have apart {y : Char} (other : y.isAlphanum = false) : x ≠ y := by
    rintro rfl
    exact absurd (all _ hx) (by simp [other])
  exact ⟨apart rfl, by simp [isQuote, apart (y := '"') rfl, apart (y := '\'') rfl]⟩

theorem exists_covers_tagPart {x : Char} {cs : List Char} (rest : c.rest = x :: cs)
    (bracket : x ≠ '>') (closed : (upToBracket? c.rest).isSome = true) (late : c.late = false) :
    ∃ front d, front ≠ [] ∧ Covers tagPart c front [] d := by
  cases quote : isQuote x with
  | false =>
    obtain ⟨d, covers, -⟩ := exists_covers_many1
      (List.forall_mem_cons.mpr ⟨isPlain_iff.mpr ⟨bracket, quote⟩,
        List.all_eq_true.mp (List.all_takeWhile (p := isPlain) (l := cs))⟩)
      (stops_dropWhile isPlain cs) (List.cons_ne_nil x _) late
      (by rw [rest, List.cons_append, List.takeWhile_append_dropWhile])
    exact ⟨_, d, List.cons_ne_nil _ _, covers.alt_left _⟩
  | true =>
    have read : (quotedRest? x cs).isSome = true := by
      rw [rest, upToBracket?, if_neg bracket, if_pos quote] at closed
      split at closed
      · cases closed
      · rename_i found
        rw [found]
        rfl
    obtain ⟨⟨inside, back⟩, found⟩ := Option.isSome_iff_exists.mp read
    obtain ⟨body, apart, -, split⟩ := exists_of_quotedRest? found
    rw [split] at rest
    obtain ⟨d, covers, -⟩ := exists_covers_quoted apart late rest
    refine ⟨x :: body ++ [x], d, List.cons_ne_nil x (body ++ [x]), ?_⟩
    rcases isQuote_iff.mp quote with rfl | rfl
    · exact .alt_right (reach_of_not_begins rfl rfl rest) (covers.alt_left _)
    · exact .alt_right (reach_of_not_begins rfl rfl rest)
        (.alt_right (reach_of_not_begins rfl rfl rest) covers)

/-- The parts of a start tag go on to the bracket that the search for it finds. -/
theorem exists_runs_tagPart (found : upToBracket? c.rest = some (a, back)) (late : c.late = false) :
    ∃ d, Runs tagPart c a d ∧ d.rest = '>' :: back := by
  induction length : c.rest.length using Nat.strong_induction_on generalizing c a with
  | h n ih =>
    cases rest : c.rest with
    | nil =>
      rw [rest, upToBracket?] at found
      cases found
    | cons x cs =>
      by_cases bracket : x = '>'
      · rw [bracket] at rest
        rw [rest, upToBracket?, if_pos rfl] at found
        cases found
        exact ⟨c, .stop (reach_of_not_begins rfl rfl rest), rest⟩
      · obtain ⟨front, d, moved, covers⟩ :=
          exists_covers_tagPart rest bracket (by rw [found]; rfl) late
        obtain ⟨w, passes, split⟩ := exists_passes_tagPart covers.mem
        obtain rfl := List.append_cancel_right (split.symm.trans covers.rest)
        rw [split, passes, Option.map_eq_some_iff] at found
        obtain ⟨⟨more, last⟩, found, same⟩ := found
        cases same
        have shorter : d.rest.length < n := by
          have := List.length_pos_iff.mpr moved
          rw [← length, split, List.length_append]
          omega
        obtain ⟨e, runs, left⟩ := ih _ shorter found (covers.late.trans late) rfl
        exact ⟨e, .step covers moved runs, left⟩

theorem eq_of_upToBracket? {cs : List Char} (found : upToBracket? cs = some (a, back)) :
    cs = a ++ '>' :: back := by
  obtain ⟨d, runs, left⟩ := exists_runs_tagPart (c := .atStart cs false) found rfl
  exact runs.rest.trans (by rw [left])

end

section

variable {cs a back : List Char}

theorem matchAt?_startTag (named : cs.head?.any Char.isAlphanum = true)
    (found : upToBracket? (cs.dropWhile Char.isAlphanum) = some (a, back)) :
    startTag.matchAt? ('<' :: cs) =
      some ⟨(cs.takeWhile Char.isAlphanum).length + a.length + 2,
        [(2, (cs.takeWhile Char.isAlphanum).length + 1,
          (cs.takeWhile Char.isAlphanum).length + 1 + a.length),
        (1, 1, (cs.takeWhile Char.isAlphanum).length + 1)]⟩ := by
  have filled : cs.takeWhile Char.isAlphanum ≠ [] := by
    cases cs with
    | nil => cases named
    | cons x cs =>
      have named : x.isAlphanum = true := named
      simp [named]
  have first : (Cursor.atStart ('<' :: cs) false).rest = '<' :: cs := rfl
  obtain ⟨c, opens⟩ := Covers.char first
  have behind : c.rest = cs := (List.cons.inj opens.rest).2.symm
  obtain ⟨d, word, left⟩ := exists_covers_many1 (c := c)
    (List.all_eq_true.mp (List.all_takeWhile (p := Char.isAlphanum) (l := cs)))
    (stops_dropWhile Char.isAlphanum cs) filled opens.late
    (by rw [behind, List.takeWhile_append_dropWhile])
  obtain ⟨d', name, same⟩ := word.group 1
  rw [← left, ← same] at found
  obtain ⟨e, runs, left⟩ := exists_runs_tagPart found (name.late.trans opens.late)
  obtain ⟨e', parts, same⟩ := (runs.many (name.late.trans opens.late)).group 2
  rw [← same] at left
  obtain ⟨f, closes⟩ := Covers.char left
  have none : reach (char '/') e' = [] := reach_of_not_begins rfl rfl left
  have whole := opens.seq (name.seq (parts.seq ((Covers.maybe_not none).seq closes)))
  have first : (reach startTag (.atStart ('<' :: cs) false)).head? = some f := whole.first
  rw [matchAt?_eq rfl, first, Option.map_some, whole.groups, whole.pos, name.pos, opens.pos]
  simp [Cursor.atStart]
  omega

/-- No match begins at a bracket that opens no tag or whose tag is not closed. -/
theorem not_matchAt?_startTag (h : cs.head?.any Char.isAlphanum = true →
    upToBracket? (cs.dropWhile Char.isAlphanum) = none) : startTag.matchAt? ('<' :: cs) = none := by
  refine matchAt?_of_unreached fun d hd => ?_
  obtain ⟨c₁, opens, hd⟩ := exists_of_mem_seq hd
  obtain ⟨c₂, name, hd⟩ := exists_of_mem_seq hd
  obtain ⟨c₃, parts, hd⟩ := exists_of_mem_seq hd
  obtain ⟨c₄, slash, closes⟩ := exists_of_mem_seq hd
  obtain ⟨e, word, rfl⟩ := List.mem_map.mp name
  obtain ⟨x, front, first, all, named⟩ := rest_of_mem_many1 word
  obtain ⟨f, inner, rfl⟩ := List.mem_map.mp parts
  obtain ⟨inside, passes, left⟩ := exists_passes_tagParts inner
  obtain ⟨slashes, further, behind⟩ := exists_passes_slash slash
  have split : cs = x :: front ++ (inside ++ (slashes ++ '>' :: d.rest)) := by
    have begins : cs = c₁.rest := (List.cons.inj (rest_of_mem_char opens)).2
    have left : e.rest = inside ++ f.rest := left
    have behind : f.rest = slashes ++ c₄.rest := behind
    rw [begins, named, left, behind, rest_of_mem_char closes]
  have word := passes_of_isAlphanum (List.forall_mem_cons.mpr ⟨first, all⟩)
  have closed : upToBracket? cs ≠ none := by
    rw [split, word, passes, further, upToBracket?, if_pos rfl]
    exact Option.some_ne_none _
  have stuck := h (by rw [split]; exact first)
  have start := passes_of_isAlphanum
    (List.all_eq_true.mp (List.all_takeWhile (p := Char.isAlphanum) (l := cs)))
  apply closed
  have same := start (cs.dropWhile Char.isAlphanum)
  rwa [List.takeWhile_append_dropWhile, stuck] at same

/-- The start tags with their names and attributes are the matches of the pattern. -/
theorem startTags_eq (cs : List Char) :
    (startTags cs).map (fun tag => (some tag.1, some tag.2)) =
      (captures startTag cs).map fun group => (group 1, group 2) := by
  fun_induction startTags cs with
  | case1 =>
    rw [captures]
    rfl
  | case2 c cs opens a back found ih =>
    obtain ⟨rfl, named⟩ := opens
    have split : cs = cs.takeWhile Char.isAlphanum ++ (a ++ '>' :: back) := by
      rw [← eq_of_upToBracket? found, List.takeWhile_append_dropWhile]
    rw [captures_of_match (matchAt?_startTag named found) (Nat.succ_pos _), List.map_cons,
      List.map_cons, ih]
    generalize cs.takeWhile Char.isAlphanum = w at split
    have behind : cs.drop (w.length + a.length + 1) = back := by
      rw [split, Nat.add_assoc, List.drop_length_add_append, List.drop_length_add_append]
      rfl
    have name : cs.take w.length = w := by rw [split, List.take_left]
    have inside : (cs.drop w.length).take a.length = a := by
      rw [split, List.drop_left, List.take_left]
    simpa [Match.text?, Match.group?, behind, inside] using name.symm
  | case3 c cs opens none ih =>
    obtain ⟨rfl, named⟩ := opens
    rw [captures_of_none (not_matchAt?_startTag fun _ => none), ih]
  | case4 c cs closed ih =>
    rw [captures_of_none, ih]
    by_cases bracket : c = '<'
    · subst bracket
      exact not_matchAt?_startTag fun named => absurd ⟨rfl, named⟩ closed
    · have other : startTag.begins c = false := by
        simpa [startTag, begins, seqs, char, consumes] using bracket
      exact matchAt?_of_not_begins other rfl cs

end

section

variable {c d : Cursor} {back cs : List Char}

theorem begins_quotedText (q x : Char) : (quotedText q).begins x = (x == q) := Bool.or_false _

theorem exists_covers_valueText (v : WrittenValue)
    (stop : v.isQuoted = true ∨ back.head?.any isBareChar = false) (late : c.late = false)
    (rest : c.rest = v.chars ++ back) : ∃ d, Covers valueText c v.chars [] d ∧ d.rest = back := by
  cases v with
  | quoted text =>
    obtain ⟨q, body, quote, apart⟩ := text
    have rest : c.rest = q :: body.toList ++ q :: back := by
      simpa [WrittenValue.chars, QuotedText.chars] using rest
    obtain ⟨d, covers, left⟩ := exists_covers_quoted apart late rest
    refine ⟨d, ?_, left⟩
    rcases isQuote_iff.mp quote with rfl | rfl
    · exact .alt_right (reach_of_not_begins rfl rfl rest) (covers.alt_left _)
    · exact covers.alt_left _
  | bare text filled bareChars =>
    have filled : text.toList ≠ [] := by simpa using filled
    obtain ⟨d, covers, left⟩ := exists_covers_many1 bareChars
      (fun x first => by simpa [WrittenValue.isQuoted, first] using stop) filled late rest
    obtain ⟨x, w, chars⟩ := List.exists_cons_of_ne_nil filled
    have bare := (isBareChar_clear (bareChars x (chars ▸ List.mem_cons_self))).2.1
    have stuck {q : Char} (quote : isQuote q = true) : reach (quotedText q) c = [] := by
      have first : c.rest = x :: (w ++ back) := by
        rw [rest, WrittenValue.chars, chars]
        rfl
      refine reach_of_not_begins ?_ rfl first
      rw [begins_quotedText, beq_eq_false_iff_ne]
      rintro rfl
      rw [bare] at quote
      cases quote
    exact ⟨d, .alt_right (stuck rfl) (.alt_right (stuck rfl) covers), left⟩

theorem exists_of_mem_valueText (hd : d ∈ reach valueText c) :
    ∃ (v : WrittenValue) (back : List Char),
      (v.isQuoted = true ∨ back.head?.any isBareChar = false) ∧ c.rest = v.chars ++ back := by
  obtain ⟨p, hp, hd⟩ := mem_reach_alts.mp hd
  simp only [List.mem_cons, List.not_mem_nil, or_false] at hp
  have quoted {q : Char} (quote : isQuote q = true) (hd : d ∈ reach (quotedText q) c) :
      ∃ (v : WrittenValue) (back : List Char),
        (v.isQuoted = true ∨ back.head?.any isBareChar = false) ∧ c.rest = v.chars ++ back := by
    obtain ⟨body, apart, rest⟩ := rest_of_mem_quoted hd
    refine ⟨.quoted ⟨q, String.ofList body, quote, by simpa using apart⟩, d.rest, .inl rfl, ?_⟩
    simpa [WrittenValue.chars, QuotedText.chars] using rest
  rcases hp with rfl | rfl | rfl
  · exact quoted rfl hd
  · exact quoted rfl hd
  · obtain ⟨x, front, first, all, rest⟩ := rest_of_mem_many1 hd
    have all : ∀ y ∈ x :: front ++ d.rest.takeWhile isBareChar, isBareChar y = true :=
      List.forall_mem_append.mpr ⟨List.forall_mem_cons.mpr ⟨first, all⟩,
        List.all_eq_true.mp List.all_takeWhile⟩
    refine ⟨.bare (String.ofList (x :: front ++ d.rest.takeWhile isBareChar)) (by simp)
      (by rwa [String.toList_ofList]), d.rest.dropWhile isBareChar, .inr ?_, ?_⟩
    · exact not_any_dropWhile isBareChar d.rest
    · rw [rest, WrittenValue.chars, String.toList_ofList, List.append_assoc,
        List.takeWhile_append_dropWhile]

theorem exists_of_mem_assigned (hd : d ∈ reach assigned c) :
    ∃ (w : WrittenAssignment) (back : List Char),
      (w.value.isQuoted = true ∨ back.head?.any isBareChar = false) ∧
        c.rest = w.before.1.toList ++ '=' :: (w.behind.1.toList ++ (w.value.chars ++ back)) := by
  obtain ⟨c₁, before, hd⟩ := exists_of_mem_seq hd
  obtain ⟨c₂, equals, hd⟩ := exists_of_mem_seq hd
  obtain ⟨c₃, behind, value⟩ := exists_of_mem_seq hd
  obtain ⟨e, value, -⟩ := List.mem_map.mp value
  obtain ⟨s, blanks, rest⟩ := rest_of_mem_many before
  obtain ⟨t, blanks', rest'⟩ := rest_of_mem_many behind
  obtain ⟨v, back, stop, text⟩ := exists_of_mem_valueText value
  refine ⟨⟨⟨String.ofList s, by simpa using blanks⟩, ⟨String.ofList t, by simpa using blanks'⟩, v⟩,
    back, stop, ?_⟩
  rw [rest, rest_of_mem_char equals, rest', text]
  simp

theorem reach_assigned (none : value? c.rest = none) : reach assigned c = [] := by
  refine List.eq_nil_iff_forall_not_mem.mpr fun d hd => ?_
  obtain ⟨w, back, stop, rest⟩ := exists_of_mem_assigned hd
  rw [rest, value?_assigned w stop] at none
  cases none

theorem exists_covers_assigned (w : WrittenAssignment)
    (stop : w.value.isQuoted = true ∨ back.head?.any isBareChar = false) (late : c.late = false)
    (rest : c.rest = w.before.1.toList ++ '=' :: (w.behind.1.toList ++ (w.value.chars ++ back))) :
    ∃ front d, Covers assigned c (front ++ w.value.chars)
      [(2, c.pos + front.length, c.pos + front.length + w.value.chars.length)] d ∧
        d.rest = back := by
  have stops (x : Char) (first : (w.value.chars ++ back).head? = some x) :
      Text.isBlank x = false := by
    simpa [first] using not_isBlank_value w.value back
  obtain ⟨c₁, before, left⟩ := exists_covers_many w.before.2
    (by simp only [List.head?_cons, Option.some.injEq, forall_eq']; decide) late rest
  obtain ⟨c₂, equals⟩ := Covers.char left
  have left := (List.cons.inj (equals.rest.symm.trans left)).2
  obtain ⟨c₃, behind, left⟩ := exists_covers_many w.behind.2 stops
    (equals.late.trans (before.late.trans late)) left
  obtain ⟨c₄, value, last⟩ := exists_covers_valueText w.value stop
    (behind.late.trans (equals.late.trans (before.late.trans late))) left
  obtain ⟨d, text, same⟩ := value.group 2
  refine ⟨w.before.1.toList ++ '=' :: w.behind.1.toList, d, ?_, same.trans last⟩
  have whole : Covers assigned c _ _ d := before.seq (equals.seq (behind.seq text))
  rw [behind.pos, equals.pos, before.pos] at whole
  simpa [Nat.add_assoc, Nat.add_comm, Nat.add_left_comm] using whole

theorem exists_of_value? {v : List Char} (found : value? cs = some (v, back)) :
    ∃ w : WrittenAssignment, w.value.chars = v ∧
      (w.value.isQuoted = true ∨ back.head?.any isBareChar = false) ∧
        cs = w.before.1.toList ++ '=' :: (w.behind.1.toList ++ (w.value.chars ++ back)) := by
  have blanks (cs : List Char) : ∃ b : Blanks, b.1.toList = cs.takeWhile Text.isBlank := by
    have all := List.all_eq_true.mp (List.all_takeWhile (p := Text.isBlank) (l := cs))
    exact ⟨⟨String.ofList (cs.takeWhile Text.isBlank), by simpa using all⟩, by simp⟩
  unfold value? at found
  split at found
  · rename_i behind equals
    split at found
    · cases found
    · rename_i x rest first
      obtain ⟨s, before⟩ := blanks cs
      obtain ⟨t, between⟩ := blanks behind
      have assemble (w : WrittenValue) (text : x :: rest = w.chars ++ back) :
          cs = s.1.toList ++ '=' :: (t.1.toList ++ (w.chars ++ back)) := by
        rw [before, between, ← text, ← first, List.takeWhile_append_dropWhile, ← equals,
          List.takeWhile_append_dropWhile]
      split at found
      · rename_i quote
        obtain ⟨⟨inside, last⟩, found, same⟩ := Option.map_eq_some_iff.mp found
        cases same
        obtain ⟨body, apart, rfl, rfl⟩ := exists_of_quotedRest? found
        let text : QuotedText := ⟨x, String.ofList body, quote, by simpa using apart⟩
        have chars : text.chars = x :: (body ++ [x]) := by simp [text, QuotedText.chars]
        exact ⟨⟨s, t, .quoted text⟩, chars, .inl rfl, assemble (.quoted text) (by
          rw [WrittenValue.chars, chars]
          simp)⟩
      · split at found
        · rename_i bare
          cases found
          have all : ∀ y ∈ x :: rest.takeWhile isBareChar, isBareChar y = true :=
            List.forall_mem_cons.mpr ⟨bare, List.all_eq_true.mp List.all_takeWhile⟩
          let w : WrittenValue := .bare (String.ofList (x :: rest.takeWhile isBareChar)) (by simp)
            (by rwa [String.toList_ofList])
          have chars : w.chars = x :: rest.takeWhile isBareChar := String.toList_ofList
          refine ⟨⟨s, t, w⟩, chars, .inr (not_any_dropWhile isBareChar rest), assemble w ?_⟩
          rw [chars, List.cons_append, List.takeWhile_append_dropWhile]
        · cases found
  · cases found

theorem exists_covers_name {x : Char} (key : isKeyChar x = true) (cs : List Char) :
    ∃ d, Covers (group 1 (many1 (one isKeyChar))) (.atStart (x :: cs) false)
      (x :: cs.takeWhile isKeyChar) [(1, 0, (x :: cs.takeWhile isKeyChar).length)] d ∧
        d.rest = cs.dropWhile isKeyChar := by
  have all : ∀ y ∈ x :: cs.takeWhile isKeyChar, isKeyChar y = true :=
    List.forall_mem_cons.mpr ⟨key, List.all_eq_true.mp List.all_takeWhile⟩
  obtain ⟨c, word, left⟩ := exists_covers_many1 (c := .atStart (x :: cs) false) all
    (stops_dropWhile isKeyChar cs) (List.cons_ne_nil x _) rfl
    (by rw [List.cons_append, List.takeWhile_append_dropWhile]; rfl)
  obtain ⟨d, name, same⟩ := word.group 1
  refine ⟨d, ?_, same.trans left⟩
  simpa [Cursor.atStart] using name

theorem matchAt?_tagAttribute_of_value {x : Char} (key : isKeyChar x = true) {v : List Char}
    (found : value? (cs.dropWhile isKeyChar) = some (v, back)) :
    ∃ m, tagAttribute.matchAt? (x :: cs) = some m ∧ 0 < m.length ∧
      m.text? (x :: cs) 1 = some (x :: cs.takeWhile isKeyChar) ∧ m.text? (x :: cs) 2 = some v ∧
        (x :: cs).drop m.length = back := by
  obtain ⟨c, name, left⟩ := exists_covers_name key cs
  obtain ⟨w, rfl, stop, rest⟩ := exists_of_value? found
  obtain ⟨front, d, value, last⟩ := exists_covers_assigned w stop name.late (left.trans rest)
  have whole : Covers tagAttribute _ _ _ d := name.seq value.maybe
  have filled := List.length_pos_iff.mpr (List.cons_ne_nil x (cs.takeWhile isKeyChar))
  generalize x :: cs.takeWhile isKeyChar = word at name whole filled ⊢
  have split : x :: cs = word ++ (front ++ (w.value.chars ++ back)) := by
    have split : x :: cs = word ++ (front ++ w.value.chars) ++ d.rest := whole.rest
    rw [split, last, List.append_assoc, List.append_assoc]
  have pos : d.pos = (word ++ (front ++ w.value.chars)).length := whole.pos.trans (Nat.zero_add _)
  have start : c.pos = word.length := name.pos.trans (Nat.zero_add _)
  refine ⟨⟨d.pos, d.groups⟩, ?_, ?_, ?_, ?_, ?_⟩
  · rw [matchAt?_eq rfl, whole.first]
    rfl
  · dsimp only
    rw [pos, List.length_append]
    omega
  · have text : (x :: cs).take word.length = word := by rw [split, List.take_left]
    simpa [Match.text?, Match.group?, whole.groups, Cursor.atStart] using text
  · have text : ((x :: cs).drop (word.length + front.length)).take w.value.chars.length =
        w.value.chars := by
      rw [split, List.drop_length_add_append, List.drop_left, List.take_left]
    simpa [Match.text?, Match.group?, whole.groups, Cursor.atStart, start] using text
  · dsimp only
    rw [pos, split, List.length_append, List.length_append, List.drop_length_add_append,
      List.drop_length_add_append, List.drop_left]

theorem matchAt?_tagAttribute_of_none {x : Char} (key : isKeyChar x = true)
    (none : value? (cs.dropWhile isKeyChar) = none) :
    tagAttribute.matchAt? (x :: cs) = some ⟨(x :: cs.takeWhile isKeyChar).length,
      [(1, 0, (x :: cs.takeWhile isKeyChar).length)]⟩ := by
  obtain ⟨c, name, left⟩ := exists_covers_name key cs
  have whole : Covers tagAttribute _ _ _ c :=
    name.seq (.maybe_not (reach_assigned (by rwa [left])))
  rw [matchAt?_eq rfl, whole.first, Option.map_some, whole.groups, whole.pos]
  simp [Cursor.atStart]

/-- The attributes with their names and values are the matches of the pattern. -/
theorem attributes_eq (cs : List Char) :
    (attributes cs).map (fun a => (some a.1, a.2)) =
      (captures tagAttribute cs).map fun group => (group 1, group 2) := by
  fun_induction attributes cs with
  | case1 =>
    rw [captures]
    rfl
  | case2 x cs key v back found ih =>
    obtain ⟨m, read, filled, name, value, behind⟩ := matchAt?_tagAttribute_of_value key found
    rw [captures_of_match read filled, List.map_cons, List.map_cons, name, value, behind, ih]
  | case3 x cs key none ih =>
    have split : x :: cs = (x :: cs.takeWhile isKeyChar) ++ cs.dropWhile isKeyChar := by
      rw [List.cons_append, List.takeWhile_append_dropWhile]
    have behind : (x :: cs).drop (x :: cs.takeWhile isKeyChar).length =
        cs.dropWhile isKeyChar := by
      rw [split, List.drop_left]
    have text : (x :: cs).take (x :: cs.takeWhile isKeyChar).length =
        x :: cs.takeWhile isKeyChar := by
      rw [split, List.take_left]
    rw [captures_of_match (matchAt?_tagAttribute_of_none key none) (Nat.succ_pos _), List.map_cons,
      List.map_cons, behind, ih]
    simpa [Match.text?, Match.group?] using text.symm
  | case4 x cs other ih =>
    rw [captures_of_none, ih]
    have other : isKeyChar x = false := by simpa using other
    have none : tagAttribute.begins x = false := by
      simp [tagAttribute, begins, many1, plus, consumes, other]
    exact matchAt?_of_not_begins none rfl cs

end

end Utility.MarkupScan
end HybridTemplate
