import HybridTemplate.Proofs.Utility.PlainMarkup
import Mathlib.Data.List.Chain

set_option autoImplicit false

namespace HybridTemplate.Utility

inductive WrittenValue where
  | quoted (text : QuotedText)
  | bare (text : String) (filled : text ≠ "")
      (bareChars : ∀ c ∈ text.toList, MarkupScan.isBareChar c = true)

namespace WrittenValue

def chars : WrittenValue → List Char
  | quoted text => text.chars
  | bare text _ _ => text.toList

def isQuoted : WrittenValue → Bool
  | quoted _ => true
  | bare .. => false

/-- The value with a slash behind it: a quoted one stays, and a bare one goes on. -/
def slashed : WrittenValue → WrittenValue
  | quoted text => quoted text
  | bare text _ bareChars => bare (text ++ "/") (by simp) (by
      have slash : MarkupScan.isBareChar '/' = true := by decide
      rw [String.toList_append]
      exact List.forall_mem_append.mpr ⟨bareChars, List.forall_mem_singleton.mpr slash⟩)

end WrittenValue

structure WrittenAssignment where
  before : Blanks
  behind : Blanks
  value : WrittenValue

structure WrittenAttribute where
  space : Blanks
  name : String
  named : name ≠ ""
  nameChars : ∀ c ∈ name.toList, MarkupScan.isKeyChar c = true
  assigned? : Option WrittenAssignment

namespace WrittenAttribute

def valueChars (a : WrittenAttribute) : List Char :=
  match a.assigned? with
  | none => []
  | some v => v.before.1.toList ++ '=' :: (v.behind.1.toList ++ v.value.chars)

def chars (a : WrittenAttribute) : List Char := a.space.1.toList ++ (a.name.toList ++ a.valueChars)

def isQuoted (a : WrittenAttribute) : Bool := a.assigned?.any fun v => v.value.isQuoted

def reading (a : WrittenAttribute) : List Char × Option (List Char) :=
  (a.name.toList, a.assigned?.map fun v => v.value.chars)

def pair (a : WrittenAttribute) : Pair :=
  (a.name, a.assigned?.map fun v => String.ofList v.value.chars)

/-- Whether an attribute can be told from the next one: there is a blank between them, unless a
quote ends the first. -/
def Apart (a b : WrittenAttribute) : Prop := a.isQuoted = true ∨ b.space.1 ≠ ""

/-- Whether attributes can be told from each other and from the name of their tag. -/
def Separate (as : List WrittenAttribute) : Prop :=
  (∀ a ∈ as.head?, a.space.1 ≠ "") ∧ as.IsChain Apart

def isBare (a : WrittenAttribute) : Bool := a.assigned?.any fun v => !v.value.isQuoted

def slashed (a : WrittenAttribute) : WrittenAttribute :=
  { a with assigned? := a.assigned?.map fun v => { v with value := v.value.slashed } }

theorem slashed_of_not_isBare {a : WrittenAttribute} (h : a.isBare = false) : a.slashed = a := by
  obtain ⟨space, name, named, nameChars, assigned?⟩ := a
  cases assigned? with
  | none => rfl
  | some v =>
    obtain ⟨before, behind, value⟩ := v
    cases value with
    | quoted text => rfl
    | bare text filled bareChars => cases h

theorem chars_slashed {a : WrittenAttribute} (h : a.isBare = true) :
    a.slashed.chars = a.chars ++ ['/'] := by
  obtain ⟨space, name, named, nameChars, assigned?⟩ := a
  cases assigned? with
  | none => cases h
  | some v =>
    obtain ⟨before, behind, value⟩ := v
    cases value with
    | quoted text => cases h
    | bare text filled bareChars =>
      simp [chars, valueChars, slashed, WrittenValue.slashed, WrittenValue.chars]

def withSlash (as : List WrittenAttribute) : List WrittenAttribute :=
  as.dropLast ++ (as.getLast?.map slashed).toList

theorem withSlash_concat (as : List WrittenAttribute) (a : WrittenAttribute) :
    withSlash (as ++ [a]) = as ++ [a.slashed] := by
  simp [withSlash]

theorem withSlash_of_getLast? {as : List WrittenAttribute}
    (h : ∀ a ∈ as.getLast?, a.isBare = false) : withSlash as = as := by
  rcases List.eq_nil_or_concat as with rfl | ⟨front, a, rfl⟩
  · rfl
  · rw [List.concat_eq_append] at h ⊢
    rw [withSlash_concat, slashed_of_not_isBare (h a (by simp))]

theorem isChain_of_spaced {as : List WrittenAttribute} (spaced : ∀ a ∈ as.tail, a.space.1 ≠ "") :
    as.IsChain Apart := by
  induction as with
  | nil => exact List.isChain_nil
  | cons a as ih =>
    cases as with
    | nil => exact List.isChain_singleton a
    | cons b as =>
      obtain ⟨next, rest⟩ := List.forall_mem_cons.mp spaced
      exact List.isChain_cons_cons.mpr ⟨.inr next, ih rest⟩

theorem isChain_slashed {as : List WrittenAttribute} {a : WrittenAttribute}
    (h : (as ++ [a]).IsChain Apart) : (as ++ [a.slashed]).IsChain Apart := by
  obtain ⟨before, -, last⟩ := List.isChain_append.mp h
  refine List.isChain_append.mpr ⟨before, List.isChain_singleton _, fun b hb c hc => ?_⟩
  cases hc
  exact last b hb a rfl

end WrittenAttribute

structure WrittenTag where
  name : String
  named : name ≠ ""
  nameChars : ∀ c ∈ name.toList, c.isAlphanum = true
  attributes : List WrittenAttribute
  separate : WrittenAttribute.Separate attributes
  space : Blanks

namespace WrittenTag

def inner (t : WrittenTag) (slash : Bool) : List Char :=
  t.attributes.flatMap WrittenAttribute.chars ++
    (t.space.1.toList ++ if slash then ['/'] else [])

def chars (t : WrittenTag) (slash : Bool) : List Char :=
  '<' :: (t.name.toList ++ (t.inner slash ++ ['>']))

def written (t : WrittenTag) (slash : Bool) : List WrittenAttribute :=
  if slash = true ∧ t.space.1 = "" then WrittenAttribute.withSlash t.attributes else t.attributes

def pairs (t : WrittenTag) (slash : Bool) : List Pair :=
  if MarkupScan.ignoredTags.contains t.name then []
  else (t.written slash).map WrittenAttribute.pair

theorem pairs_of_counts {t : WrittenTag} (counts : t.name ∉ MarkupScan.ignoredTags)
    (slash : Bool) : t.pairs slash = (t.written slash).map WrittenAttribute.pair := by
  rw [pairs, if_neg (by simpa using counts)]

theorem written_of_getLast? {t : WrittenTag} (h : ∀ a ∈ t.attributes.getLast?, a.isBare = false)
    (slash : Bool) : t.written slash = t.attributes := by
  unfold written
  split
  · exact WrittenAttribute.withSlash_of_getLast? h
  · rfl

end WrittenTag

namespace PlainAttribute

def written (a : PlainAttribute) : WrittenAttribute where
  space := a.space
  name := a.name
  named := a.named
  nameChars := a.nameChars
  assigned? := a.assigned?.map fun v => ⟨v.before, v.behind, .quoted v.value⟩

theorem isBare_written (a : PlainAttribute) : a.written.isBare = false := by
  unfold WrittenAttribute.isBare written
  cases a.assigned? <;> rfl

theorem chars_written (a : PlainAttribute) : a.written.chars = a.chars := by
  unfold WrittenAttribute.chars WrittenAttribute.valueChars chars valueChars written
  cases a.assigned? <;> rfl

theorem pair_written (a : PlainAttribute) : a.written.pair = a.pair := by
  unfold WrittenAttribute.pair pair written
  cases a.assigned? <;> rfl

theorem flatMap_written (as : List PlainAttribute) :
    (as.map written).flatMap WrittenAttribute.chars = as.flatMap chars := by
  rw [List.flatMap_map]
  simp only [chars_written]

theorem map_pair_written (as : List PlainAttribute) :
    (as.map written).map WrittenAttribute.pair = as.map pair := by
  rw [List.map_map]
  exact List.map_congr_left fun a _ => pair_written a

theorem spaced_written (as : List PlainAttribute) :
    ∀ a ∈ as.map written, a.space.1 ≠ "" := by
  intro a ha
  obtain ⟨b, -, rfl⟩ := List.mem_map.mp ha
  exact b.spaced

theorem separate_written (as : List PlainAttribute) :
    WrittenAttribute.Separate (as.map written) :=
  ⟨fun a ha => spaced_written as a (List.mem_of_head? ha),
    WrittenAttribute.isChain_of_spaced fun a ha => spaced_written as a (List.mem_of_mem_tail ha)⟩

theorem isBare_getLast? (as : List PlainAttribute) :
    ∀ a ∈ (as.map written).getLast?, a.isBare = false := by
  intro a ha
  obtain ⟨b, -, rfl⟩ := List.mem_map.mp (List.mem_of_getLast? ha)
  exact b.isBare_written

end PlainAttribute

namespace MarkupScan

theorem takeWhile_run {p : Char → Bool} {run rest : List Char} (all : ∀ c ∈ run, p c = true)
    (stop : rest.head?.any p = false) : (run ++ rest).takeWhile p = run := by
  rw [List.takeWhile_append_of_pos all]
  cases rest with
  | nil => simp
  | cons c rest =>
    have stop : p c = false := stop
    simp [stop]

theorem dropWhile_run {p : Char → Bool} {run rest : List Char} (all : ∀ c ∈ run, p c = true)
    (stop : rest.head?.any p = false) : (run ++ rest).dropWhile p = rest := by
  rw [List.dropWhile_append_of_pos all]
  cases rest with
  | nil => rfl
  | cons c rest =>
    have stop : p c = false := stop
    simp [stop]

theorem head?_run {p : Char → Bool} {run rest : List Char} (none : ∀ c ∈ run, p c = false)
    (stop : rest.head?.any p = false) : (run ++ rest).head?.any p = false := by
  cases run with
  | nil => exact stop
  | cons c run => exact none c List.mem_cons_self

theorem isKeyChar_clear {c : Char} (h : isKeyChar c = true) :
    Text.isBlank c = false ∧ isQuote c = false ∧ c ≠ '>' ∧ c ≠ '/' ∧ c ≠ '=' := by
  simpa [isKeyChar, and_assoc] using h

theorem isBareChar_clear {c : Char} (h : isBareChar c = true) :
    Text.isBlank c = false ∧ isQuote c = false ∧ c ≠ '>' := by
  have clear : Text.isBlank c = false ∧ isQuote c = false ∧ c ≠ '=' ∧ c ≠ '>' ∧ c ≠ '<' ∧
      c ≠ '\x60' := by
    simpa [isBareChar, and_assoc] using h
  exact ⟨clear.1, clear.2.1, clear.2.2.2.1⟩

theorem isBlank_clear {c : Char} (h : Text.isBlank c = true) :
    isKeyChar c = false ∧ isBareChar c = false ∧ isQuote c = false ∧ c ≠ '>' ∧ c ≠ '=' ∧
      c ≠ '<' := by
  have not {d : Char} (hd : Text.isBlank d = false) : c ≠ d := by
    rintro rfl
    rw [h] at hd
    cases hd
  refine ⟨by simp [isKeyChar, h], by simp [isBareChar, h], ?_, not (by decide), not (by decide),
    not (by decide)⟩
  simp [isQuote, not (d := '"') (by decide), not (d := '\'') (by decide)]

theorem not_isKeyChar_blanks (b : Blanks) : ∀ c ∈ b.1.toList, isKeyChar c = false :=
  fun c hc => (isBlank_clear (b.2 c hc)).1

theorem isQuote_iff {c : Char} : isQuote c = true ↔ c = '"' ∨ c = '\'' := by
  simp [isQuote]

/-- Whether the search for a closing bracket goes on behind those characters. -/
def Passes (cs : List Char) : Prop :=
  ∀ rest, upToBracket? (cs ++ rest) =
    (upToBracket? rest).map fun found => (cs ++ found.1, found.2)

theorem passes_nil : Passes [] := by
  intro rest
  simp

theorem Passes.append {cs ds : List Char} (h : Passes cs) (k : Passes ds) : Passes (cs ++ ds) := by
  intro rest
  rw [List.append_assoc, h, k, Option.map_map]
  simp [Function.comp_def]

theorem passes_singleton {c : Char} (bracket : c ≠ '>') (quote : isQuote c = false) :
    Passes [c] := by
  intro rest
  rw [List.singleton_append, upToBracket?, if_neg bracket, if_neg (by simp [quote])]
  rfl

theorem passes_of_forall {cs : List Char} (h : ∀ c ∈ cs, c ≠ '>' ∧ isQuote c = false) :
    Passes cs := by
  induction cs with
  | nil => exact passes_nil
  | cons c cs ih =>
    obtain ⟨⟨bracket, quote⟩, below⟩ := List.forall_mem_cons.mp h
    exact (passes_singleton bracket quote).append (ih below)

theorem quotedRest?_run {q : Char} {body : List Char} (apart : q ∉ body) (rest : List Char) :
    quotedRest? q (body ++ q :: rest) = some (body ++ [q], rest) := by
  have all : ∀ c ∈ body, (c != q) = true := by
    intro c hc
    exact bne_iff_ne.mpr fun eq => apart (eq ▸ hc)
  have stop : (q :: rest).head?.any (· != q) = false := by simp
  rw [quotedRest?, dropWhile_run all stop, takeWhile_run all stop]

theorem passes_quoted (t : QuotedText) : Passes t.chars := by
  intro rest
  have bracket : t.quote ≠ '>' := by
    intro eq
    have quote := t.isQuote
    rw [eq] at quote
    cases quote
  have found := quotedRest?_run t.apart rest
  rw [QuotedText.chars, List.cons_append, List.append_assoc, List.singleton_append, upToBracket?,
    if_neg bracket, if_pos t.isQuote]
  split
  · rename_i none
    rw [found] at none
    cases none
  · rename_i inside tail read
    rw [found] at read
    cases read
    rfl

theorem passes_value (v : WrittenValue) : Passes v.chars := by
  cases v with
  | quoted text => exact passes_quoted text
  | bare text _ bareChars =>
    refine passes_of_forall fun c hc => ?_
    obtain ⟨-, quote, bracket⟩ := isBareChar_clear (bareChars c hc)
    exact ⟨bracket, quote⟩

theorem passes_blanks (b : Blanks) : Passes b.1.toList := by
  refine passes_of_forall fun c hc => ?_
  obtain ⟨-, -, quote, bracket, -, -⟩ := isBlank_clear (b.2 c hc)
  exact ⟨bracket, quote⟩

theorem passes_attribute (a : WrittenAttribute) : Passes a.chars := by
  have name : Passes a.name.toList := by
    refine passes_of_forall fun c hc => ?_
    obtain ⟨-, quote, bracket, -, -⟩ := isKeyChar_clear (a.nameChars c hc)
    exact ⟨bracket, quote⟩
  have value : Passes a.valueChars := by
    unfold WrittenAttribute.valueChars
    cases a.assigned? with
    | none => exact passes_nil
    | some v =>
      have equals : Passes ['='] := passes_singleton (by decide) (by decide)
      have behind := (passes_blanks v.behind).append (passes_value v.value)
      exact (passes_blanks v.before).append (equals.append behind)
  exact (passes_blanks a.space).append (name.append value)

theorem passes_attributes (as : List WrittenAttribute) :
    Passes (as.flatMap WrittenAttribute.chars) := by
  induction as with
  | nil => exact passes_nil
  | cons a as ih => exact (passes_attribute a).append ih

theorem attributes_skip {cs : List Char} (skipped : ∀ c ∈ cs, isKeyChar c = false)
    (rest : List Char) : attributes (cs ++ rest) = attributes rest := by
  induction cs with
  | nil => rfl
  | cons c cs ih =>
    obtain ⟨other, below⟩ := List.forall_mem_cons.mp skipped
    rw [List.cons_append, attributes, if_neg (by simp [other]), ih below]

theorem attributes_of_skipped {cs : List Char} (skipped : ∀ c ∈ cs, isKeyChar c = false) :
    attributes cs = [] := by
  have none := attributes_skip skipped []
  rwa [List.append_nil, attributes] at none

theorem attributes_name {name : List Char} (named : name ≠ [])
    (nameChars : ∀ c ∈ name, isKeyChar c = true) {tail : List Char}
    (stop : tail.head?.any isKeyChar = false) :
    attributes (name ++ tail) =
      match value? tail with
      | some (value, rest) => (name, some value) :: attributes rest
      | none => (name, none) :: attributes tail := by
  obtain ⟨c, cs, rfl⟩ := List.exists_cons_of_ne_nil named
  obtain ⟨key, below⟩ := List.forall_mem_cons.mp nameChars
  rw [List.cons_append, attributes, if_pos key]
  split
  · rename_i value rest read
    rw [dropWhile_run below stop] at read
    rw [read, takeWhile_run below stop]
  · rename_i read
    rw [dropWhile_run below stop] at read
    rw [read, takeWhile_run below stop, dropWhile_run below stop]

theorem not_isBlank_value (v : WrittenValue) (rest : List Char) :
    (v.chars ++ rest).head?.any Text.isBlank = false := by
  cases v with
  | quoted text =>
    have first : Text.isBlank text.quote = false := by
      rcases isQuote_iff.mp text.isQuote with eq | eq <;> rw [eq] <;> decide
    exact first
  | bare text filled bareChars =>
    obtain ⟨x, w, chars⟩ := List.exists_cons_of_ne_nil (l := text.toList) (by simpa using filled)
    rw [chars] at bareChars
    have first := (isBareChar_clear (bareChars x List.mem_cons_self)).1
    rw [WrittenValue.chars, chars]
    exact first

theorem value?_assigned (v : WrittenAssignment) {rest : List Char}
    (stop : v.value.isQuoted = true ∨ rest.head?.any isBareChar = false) :
    value? (v.before.1.toList ++ '=' :: (v.behind.1.toList ++ (v.value.chars ++ rest))) =
      some (v.value.chars, rest) := by
  obtain ⟨before, behind, value⟩ := v
  have equals : Text.isBlank '=' = false := by decide
  have first : (before.1.toList ++ '=' :: (behind.1.toList ++ (value.chars ++ rest))).dropWhile
      Text.isBlank = '=' :: (behind.1.toList ++ (value.chars ++ rest)) :=
    dropWhile_run before.2 equals
  have second : (behind.1.toList ++ (value.chars ++ rest)).dropWhile Text.isBlank =
      value.chars ++ rest := dropWhile_run behind.2 (not_isBlank_value value rest)
  rw [value?, first]
  simp only [second]
  cases value with
  | quoted text =>
    simp only [WrittenValue.chars, QuotedText.chars, List.cons_append, List.append_assoc,
      List.nil_append, if_pos text.isQuote, quotedRest?_run text.apart rest, Option.map_some]
  | bare text filled bareChars =>
    obtain ⟨c, cs, chars⟩ := List.exists_cons_of_ne_nil (l := text.toList) (by simpa using filled)
    rw [chars] at bareChars
    obtain ⟨bare, below⟩ := List.forall_mem_cons.mp bareChars
    have quote := (isBareChar_clear bare).2.1
    have stop := stop.resolve_left Bool.false_ne_true
    simp only [WrittenValue.chars, chars, List.cons_append, quote, if_neg Bool.false_ne_true,
      if_pos bare, takeWhile_run below stop, dropWhile_run below stop]

/-- What follows blanks is no value unless it begins with an equals sign. -/
theorem value?_blanks (b : Blanks) {rest : List Char} (blank : rest.head?.any Text.isBlank = false)
    (other : rest.head? ≠ some '=') : value? (b.1.toList ++ rest) = none := by
  rw [value?, dropWhile_run b.2 blank]
  split
  · exact absurd rfl other
  · rfl

def Ends (a : WrittenAttribute) (rest : List Char) : Prop :=
  match a.assigned? with
  | none => rest.head?.any isKeyChar = false ∧ value? rest = none
  | some v => v.value.isQuoted = true ∨ rest.head?.any isBareChar = false

theorem ends_of_isQuoted {a : WrittenAttribute} (quoted : a.isQuoted = true) (rest : List Char) :
    Ends a rest := by
  unfold WrittenAttribute.isQuoted at quoted
  unfold Ends
  cases h : a.assigned? with
  | none =>
    rw [h] at quoted
    cases quoted
  | some v =>
    rw [h] at quoted
    exact .inl quoted

theorem ends_nil (a : WrittenAttribute) : Ends a [] := by
  unfold Ends
  cases a.assigned? with
  | none => exact ⟨rfl, rfl⟩
  | some v => exact .inr rfl

theorem ends_blanks (a : WrittenAttribute) {b : Blanks} (filled : b.1 ≠ "") {rest : List Char}
    (blank : rest.head?.any Text.isBlank = false) (other : rest.head? ≠ some '=') :
    Ends a (b.1.toList ++ rest) := by
  have apart := value?_blanks b blank other
  obtain ⟨c, cs, chars⟩ := List.exists_cons_of_ne_nil (l := b.1.toList) (by simpa using filled)
  obtain ⟨key, bare, -⟩ := isBlank_clear (b.2 c (by simp [chars]))
  unfold Ends
  rw [chars] at apart ⊢
  cases a.assigned? with
  | none => exact ⟨key, apart⟩
  | some v => exact .inr bare

theorem ends_space (a : WrittenAttribute) (b : Blanks) : Ends a b.1.toList := by
  by_cases none : b.1 = ""
  · rw [none]
    exact ends_nil a
  · have ends : Ends a (b.1.toList ++ []) := ends_blanks a none rfl (by simp)
    rwa [List.append_nil] at ends

theorem ends_slash {a : WrittenAttribute} (h : a.isBare = false) : Ends a ['/'] := by
  unfold WrittenAttribute.isBare at h
  unfold Ends
  cases value : a.assigned? with
  | none =>
    have none : value? ['/'] = none := value?_blanks ⟨"", by simp⟩ (by decide) (by decide)
    exact ⟨by decide, none⟩
  | some v =>
    rw [value] at h
    exact .inl (by simpa using h)

theorem attributes_attribute (a : WrittenAttribute) {rest : List Char} (ends : Ends a rest) :
    attributes (a.chars ++ rest) = a.reading :: attributes rest := by
  have named : a.name.toList ≠ [] := by simpa using a.named
  rw [WrittenAttribute.chars, List.append_assoc, List.append_assoc,
    attributes_skip (not_isKeyChar_blanks a.space), WrittenAttribute.valueChars,
    WrittenAttribute.reading]
  unfold Ends at ends
  cases value : a.assigned? with
  | none =>
    rw [value] at ends
    rw [List.nil_append, attributes_name named a.nameChars ends.1, ends.2]
    rfl
  | some v =>
    rw [value] at ends
    have tail : (v.before.1.toList ++ '=' :: (v.behind.1.toList ++ v.value.chars)) ++ rest =
        v.before.1.toList ++ '=' :: (v.behind.1.toList ++ (v.value.chars ++ rest)) := by simp
    have stop : (v.before.1.toList ++
        '=' :: (v.behind.1.toList ++ (v.value.chars ++ rest))).head?.any isKeyChar = false :=
      head?_run (not_isKeyChar_blanks v.before) (by simp [isKeyChar])
    simp only [tail]
    rw [attributes_name named a.nameChars stop, value?_assigned v ends]
    rfl

theorem ends_attribute (a : WrittenAttribute) {b : WrittenAttribute} (spaced : b.space.1 ≠ "")
    (rest : List Char) : Ends a (b.chars ++ rest) := by
  obtain ⟨c, cs, name⟩ := List.exists_cons_of_ne_nil (l := b.name.toList) (by simpa using b.named)
  obtain ⟨blank, -, -, -, other⟩ := isKeyChar_clear (b.nameChars c (by simp [name]))
  rw [WrittenAttribute.chars, List.append_assoc, name]
  exact ends_blanks a spaced blank fun equals => other (Option.some.inj equals)

theorem attributes_flatMap {as : List WrittenAttribute} (chain : as.IsChain WrittenAttribute.Apart)
    {rest : List Char} (ends : ∀ a ∈ as.getLast?, Ends a rest) :
    attributes (as.flatMap WrittenAttribute.chars ++ rest) =
      as.map WrittenAttribute.reading ++ attributes rest := by
  induction as with
  | nil => rfl
  | cons a as ih =>
    have next : Ends a (as.flatMap WrittenAttribute.chars ++ rest) := by
      cases as with
      | nil => exact ends a rfl
      | cons b bs =>
        rw [List.flatMap_cons, List.append_assoc]
        rcases (List.isChain_cons_cons.mp chain).1 with quoted | spaced
        · exact ends_of_isQuoted quoted _
        · exact ends_attribute a spaced _
    have last : ∀ b ∈ as.getLast?, Ends b rest := by
      intro b hb
      refine ends b ?_
      rw [List.getLast?_cons, Option.mem_def.mp hb]
      rfl
    rw [List.flatMap_cons, List.append_assoc, attributes_attribute a next, ih chain.of_cons last,
      List.map_cons, List.cons_append]

theorem attributes_closed {as : List WrittenAttribute} (chain : as.IsChain WrittenAttribute.Apart)
    {closing : List Char} (ends : ∀ a ∈ as.getLast?, Ends a closing)
    (skipped : ∀ c ∈ closing, isKeyChar c = false) :
    attributes (as.flatMap WrittenAttribute.chars ++ closing) =
      as.map WrittenAttribute.reading := by
  rw [attributes_flatMap chain ends, attributes_of_skipped skipped, List.append_nil]

/-- A slash right behind attributes goes to the value before it, when that has no quotes. -/
theorem attributes_slash {as : List WrittenAttribute} (chain : as.IsChain WrittenAttribute.Apart) :
    attributes (as.flatMap WrittenAttribute.chars ++ ['/']) =
      (WrittenAttribute.withSlash as).map WrittenAttribute.reading := by
  have skipped : ∀ c ∈ ['/'], isKeyChar c = false := List.forall_mem_singleton.mpr (by decide)
  rcases List.eq_nil_or_concat as with rfl | ⟨front, a, rfl⟩
  · exact attributes_of_skipped skipped
  rw [List.concat_eq_append] at chain ⊢
  rw [WrittenAttribute.withSlash_concat]
  cases bare : a.isBare with
  | true =>
    have moved : (front ++ [a]).flatMap WrittenAttribute.chars ++ ['/'] =
        (front ++ [a.slashed]).flatMap WrittenAttribute.chars ++ [] := by
      simp [WrittenAttribute.chars_slashed bare]
    rw [moved]
    have chain := WrittenAttribute.isChain_slashed chain
    exact attributes_closed chain (fun b _ => ends_nil b) (by simp)
  | false =>
    rw [WrittenAttribute.slashed_of_not_isBare bare]
    refine attributes_closed chain (fun b hb => ?_) skipped
    have last : a = b := by simpa using hb
    exact last ▸ ends_slash bare

theorem attributes_inner (t : WrittenTag) (slash : Bool) :
    attributes (t.inner slash) = (t.written slash).map WrittenAttribute.reading := by
  unfold WrittenTag.inner WrittenTag.written
  by_cases touching : slash = true ∧ t.space.1 = ""
  · obtain ⟨rfl, none⟩ := touching
    simpa [none] using attributes_slash t.separate.2
  rw [if_neg touching]
  refine attributes_closed t.separate.2 (fun a _ => ?_) (fun c hc => ?_)
  · cases slash with
    | false =>
      rw [if_neg Bool.false_ne_true, List.append_nil]
      exact ends_space a t.space
    | true => exact ends_blanks a (fun none => touching ⟨rfl, none⟩) (by decide) (by decide)
  · rcases List.mem_append.mp hc with blank | closing
    · exact not_isKeyChar_blanks t.space c blank
    · have eq : c = '/' := by
        cases slash with
        | false => cases closing
        | true => exact List.mem_singleton.mp closing
      rw [eq]
      decide

/-- The name of a tag is a stretch of letters and digits, and its attributes end at the first
closing bracket that is not quoted. -/
theorem startTags_tag {name inner : List Char} (named : name ≠ [])
    (nameChars : ∀ c ∈ name, c.isAlphanum = true)
    (stop : (inner ++ ['>']).head?.any Char.isAlphanum = false) (passes : Passes inner)
    (rest : List Char) :
    startTags ('<' :: (name ++ (inner ++ '>' :: rest))) = (name, inner) :: startTags rest := by
  have first : (name ++ (inner ++ '>' :: rest)).head?.any Char.isAlphanum = true := by
    obtain ⟨c, cs, rfl⟩ := List.exists_cons_of_ne_nil named
    exact nameChars c List.mem_cons_self
  have stop : (inner ++ '>' :: rest).head?.any Char.isAlphanum = false := by
    cases inner with
    | nil => exact stop
    | cons c inner => exact stop
  have read : upToBracket? (inner ++ '>' :: rest) = some (inner, rest) := by
    rw [passes, upToBracket?, if_pos rfl]
    simp
  rw [startTags, if_pos ⟨rfl, first⟩]
  split
  · rename_i attributes tail found
    rw [dropWhile_run nameChars stop, read] at found
    cases found
    rw [takeWhile_run nameChars stop]
  · rename_i found
    rw [dropWhile_run nameChars stop, read] at found
    cases found

theorem toNat_of_isAlphanum {c : Char} (h : c.isAlphanum = true) :
    48 ≤ c.toNat ∧ c.toNat ≤ 122 := by
  have codes : 'A'.toNat = 65 ∧ 'Z'.toNat = 90 ∧ 'a'.toNat = 97 ∧ 'z'.toNat = 122 ∧
    '0'.toNat = 48 ∧ '9'.toNat = 57 := by decide
  have between {a b : Char} (low : a.val ≤ c.val) (high : c.val ≤ b.val) :
      a.toNat ≤ c.toNat ∧ c.toNat ≤ b.toNat :=
    ⟨UInt32.le_iff_toNat_le.mp low, UInt32.le_iff_toNat_le.mp high⟩
  rcases Bool.or_eq_true_iff.mp h with letter | digit
  · rcases Bool.or_eq_true_iff.mp letter with upper | lower
    · have letters : 'A'.val ≤ c.val ∧ c.val ≤ 'Z'.val := of_decide_eq_true upper
      have range := between letters.1 letters.2
      omega
    · obtain ⟨low, high⟩ := Bool.and_eq_true_iff.mp lower
      have range := between (of_decide_eq_true low) (of_decide_eq_true high)
      omega
  · obtain ⟨low, high⟩ := Bool.and_eq_true_iff.mp digit
    have range := between (of_decide_eq_true low) (of_decide_eq_true high)
    omega

theorem isAlphanum_of_isBlank {c : Char} (h : Text.isBlank c = true) : c.isAlphanum = false := by
  rw [Text.isBlank, Text.inRanges_iff] at h
  obtain ⟨r, hr, low, high⟩ := h
  have apart : ∀ r ∈ Text.blankRanges, r.2 < 48 ∨ 122 < r.1 := by decide
  have beside := apart r hr
  refine Bool.eq_false_iff.mpr fun alphanumeric => ?_
  have range := toNat_of_isAlphanum alphanumeric
  omega

theorem head?_blanks (b : Blanks) {rest : List Char}
    (stop : rest.head?.any Char.isAlphanum = false) :
    (b.1.toList ++ rest).head?.any Char.isAlphanum = false :=
  head?_run (fun c hc => isAlphanum_of_isBlank (b.2 c hc)) stop

theorem head?_flatMap {as : List WrittenAttribute} (spaced : ∀ a ∈ as.head?, a.space.1 ≠ "")
    {rest : List Char} (stop : rest.head?.any Char.isAlphanum = false) :
    (as.flatMap WrittenAttribute.chars ++ rest).head?.any Char.isAlphanum = false := by
  cases as with
  | nil => exact stop
  | cons a as =>
    obtain ⟨c, cs, space⟩ := List.exists_cons_of_ne_nil (l := a.space.1.toList)
      (by simpa using spaced a rfl)
    rw [List.flatMap_cons, WrittenAttribute.chars, space]
    exact isAlphanum_of_isBlank (a.space.2 c (by simp [space]))

theorem head?_inner (t : WrittenTag) (slash : Bool) :
    (t.inner slash ++ ['>']).head?.any Char.isAlphanum = false := by
  have closing : ((if slash then ['/'] else []) ++ ['>']).head?.any Char.isAlphanum = false := by
    cases slash <;> decide
  rw [WrittenTag.inner, List.append_assoc, List.append_assoc]
  apply head?_flatMap t.separate.1
  apply head?_blanks
  exact closing

theorem passes_inner (t : WrittenTag) (slash : Bool) : Passes (t.inner slash) := by
  have closing : Passes (if slash then ['/'] else []) := by
    cases slash with
    | false => exact passes_nil
    | true => exact passes_singleton (by decide) (by decide)
  exact (passes_attributes t.attributes).append ((passes_blanks t.space).append closing)

theorem startTags_written (t : WrittenTag) (slash : Bool) (rest : List Char) :
    startTags (t.chars slash ++ rest) = (t.name.toList, t.inner slash) :: startTags rest := by
  have split : t.chars slash ++ rest =
      '<' :: (t.name.toList ++ (t.inner slash ++ '>' :: rest)) := by
    simp [WrittenTag.chars]
  have named : t.name.toList ≠ [] := by simpa using t.named
  rw [split]
  exact startTags_tag named t.nameChars (head?_inner t slash) (passes_inner t slash) rest

/-- A tag that counts gives the pairs of the attributes that are found in it. -/
theorem tagPairs_of_attributes {name inner : List Char} {as : List WrittenAttribute}
    (found : attributes inner = as.map WrittenAttribute.reading) :
    tagPairs (name, inner) =
      if ignoredTags.contains (String.ofList name) then [] else as.map WrittenAttribute.pair := by
  rw [tagPairs, found, List.map_map]
  congr 1
  refine List.map_congr_left fun a _ => ?_
  simp [WrittenAttribute.pair, WrittenAttribute.reading, Function.comp_def]

theorem tagPairs_written (t : WrittenTag) (slash : Bool) :
    tagPairs (t.name.toList, t.inner slash) = t.pairs slash := by
  rw [tagPairs_of_attributes (attributes_inner t slash), String.ofList_toList, WrittenTag.pairs]

theorem pairs_written (t : WrittenTag) (slash : Bool) (rest : List Char) :
    pairs (t.chars slash ++ rest) = t.pairs slash ++ pairs rest := by
  rw [pairs, startTags_written, List.flatMap_cons, tagPairs_written, pairs]

theorem pairs_nil : pairs [] = [] := by
  rw [pairs, startTags, List.flatMap_nil]

theorem pairs_tag (t : WrittenTag) (slash : Bool) : pairs (t.chars slash) = t.pairs slash := by
  have alone := pairs_written t slash []
  rwa [pairs_nil, List.append_nil, List.append_nil] at alone

theorem collect_tag (t : WrittenTag) (slash : Bool) (set : AttributeSet) :
    collect set (String.ofList (t.chars slash)) = set.addPairs (t.pairs slash) := by
  rw [collect_eq, String.toList_ofList, pairs_tag]

end MarkupScan

end HybridTemplate.Utility
