import HybridTemplate.Proofs.Utility.Reading
import HybridTemplate.Proofs.Utility.StartTags

set_option autoImplicit false

namespace HybridTemplate.Utility

open AttributeSet (wordsOf)

/-- A start tag by a name that the scan has to read. -/
structure NamedTag where
  name : String
  letter : name.toList.head?.any Char.isAlpha = true
  nameChars : ∀ c ∈ name.toList, c.isAlphanum = true ∨ c = '-'
  counts : name ∉ MarkupScan.ignoredTags
  attributes : List PlainAttribute
  space : Blanks

namespace NamedTag

def text (t : NamedTag) : String :=
  String.ofList ('<' :: (t.name.toList ++
    (t.attributes.flatMap PlainAttribute.chars ++ (t.space.1.toList ++ ['>']))))

def head (t : NamedTag) : String := String.ofList (t.name.toList.takeWhile Char.isAlphanum)

def tail (t : NamedTag) : String := String.ofList (t.name.toList.dropWhile Char.isAlphanum)

def pairs (t : NamedTag) : List Pair :=
  if t.head ∈ MarkupScan.ignoredTags then []
  else if '-' ∈ t.name.toList then (t.tail, none) :: t.attributes.map PlainAttribute.pair
  else t.attributes.map PlainAttribute.pair

end NamedTag

theorem QuotedText.unquote_chars (t : QuotedText) :
    Text.unquote (String.ofList t.chars) = t.body := by
  have quote : (t.quote == '"' || t.quote == '\'') = true := t.isQuote
  obtain ⟨c, cs, split⟩ := List.exists_cons_of_ne_nil (l := t.body.toList ++ [t.quote]) (by simp)
  have last : (c :: cs).getLast? = some t.quote := by rw [← split, List.getLast?_concat]
  have body : (c :: cs).dropLast = t.body.toList := by rw [← split, List.dropLast_concat]
  rw [Text.unquote, String.toList_ofList, chars, split]
  simp only [quote, last, body, beq_self_eq_true, Bool.and_true, if_true, String.ofList_toList]

def PlainAttribute.words (a : PlainAttribute) : List String :=
  (a.assigned?.map fun v => Text.words v.value.body).getD []

theorem wordsOf_none (key : String) : wordsOf (key, none) = [] := by
  simp [wordsOf, Text.words, Text.unquote, Text.splitBy]

theorem PlainAttribute.wordsOf_pair (a : PlainAttribute) : wordsOf a.pair = a.words := by
  unfold pair words
  cases a.assigned? with
  | none => exact wordsOf_none a.name
  | some v => exact congrArg Text.words v.value.unquote_chars

theorem PlainAttribute.classes_pair (a : PlainAttribute) :
    AttributeSet.Classes a.pair ↔ a.name ∈ classKeys :=
  AttributeSet.classes_iff a.named

namespace AttributeSet

structure Records (set : AttributeSet) (as : List PlainAttribute) : Prop where
  keys : ∀ key, (set.values? key).isSome = true ↔ key ∉ classKeys ∧ ∃ a ∈ as, a.name = key
  values : ∀ key word, word ∈ (set.values? key).getD [] ↔
    key ∉ classKeys ∧ ∃ a ∈ as, a.name = key ∧ word ∈ a.words
  classes : ∀ word, word ∈ set.classes ↔ ∃ a ∈ as, a.name ∈ classKeys ∧ word ∈ a.words

theorem isSome_values?_recorded (ps : List Pair) (key : String) :
    ((empty.addPairs ps).values? key).isSome = true ↔ ∃ p ∈ ps, ¬ Classes p ∧ p.1 = key := by
  have step (set : AttributeSet) (h : Sound set) (p : Pair) := isSome_values?_addPair h p key
  have nothing : ¬ (empty.values? key).isSome = true := Bool.false_ne_true
  exact (addPairs_iff (P := fun set => (set.values? key).isSome = true) step sound_empty ps).trans
    (or_iff_right nothing)

theorem mem_values?_recorded (ps : List Pair) (key w : String) :
    w ∈ ((empty.addPairs ps).values? key).getD [] ↔
      ∃ p ∈ ps, ¬ Classes p ∧ p.1 = key ∧ w ∈ wordsOf p := by
  have step (set : AttributeSet) (h : Sound set) (p : Pair) := mem_values?_addPair h p key w
  have nothing : w ∉ (empty.values? key).getD [] := List.not_mem_nil
  exact (addPairs_iff (P := fun set => w ∈ (set.values? key).getD []) step sound_empty ps).trans
    (or_iff_right nothing)

theorem mem_classes_recorded (ps : List Pair) (w : String) :
    w ∈ (empty.addPairs ps).classes ↔ ∃ p ∈ ps, Classes p ∧ w ∈ wordsOf p := by
  have step (set : AttributeSet) (_ : Sound set) (p : Pair) := mem_classes_addPair set p w
  have nothing : w ∉ empty.classes := List.not_mem_nil
  exact (addPairs_iff (P := fun set => w ∈ set.classes) step sound_empty ps).trans
    (or_iff_right nothing)

theorem records_written (as : List PlainAttribute) :
    (empty.addPairs (as.map PlainAttribute.pair)).Records as where
  keys key := by
    rw [isSome_values?_recorded]
    simp only [List.mem_map, exists_exists_and_eq_and, PlainAttribute.classes_pair]
    constructor
    · rintro ⟨a, ha, keyed, rfl⟩
      exact ⟨keyed, a, ha, rfl⟩
    · rintro ⟨keyed, a, ha, rfl⟩
      exact ⟨a, ha, keyed, rfl⟩
  values key word := by
    rw [mem_values?_recorded]
    simp only [List.mem_map, exists_exists_and_eq_and, PlainAttribute.classes_pair,
      PlainAttribute.wordsOf_pair]
    constructor
    · rintro ⟨a, ha, keyed, rfl, hw⟩
      exact ⟨keyed, a, ha, rfl, hw⟩
    · rintro ⟨keyed, a, ha, rfl, hw⟩
      exact ⟨a, ha, keyed, rfl, hw⟩
  classes word := by
    rw [mem_classes_recorded]
    simp only [List.mem_map, exists_exists_and_eq_and, PlainAttribute.classes_pair,
      PlainAttribute.wordsOf_pair]

/-- A key without a value changes what is said unless an attribute has its name. -/
theorem records_cons_iff {key : String} (keyed : ¬ Classes (key, none)) {ps : List Pair}
    {as : List PlainAttribute} (h : (empty.addPairs ps).Records as) :
    (empty.addPairs ((key, none) :: ps)).Records as ↔ ∃ a ∈ as, a.name = key := by
  constructor
  · intro records
    have found : ∃ p ∈ (key, none) :: ps, ¬ Classes p ∧ p.1 = key :=
      ⟨(key, none), List.mem_cons_self, keyed, rfl⟩
    exact ((records.keys key).mp ((isSome_values?_recorded _ key).mpr found)).2
  · rintro ⟨a, ha, rfl⟩
    have known : a.name ∉ classKeys ∧ ∃ b ∈ as, b.name = a.name :=
      ⟨fun known => keyed (a.classes_pair.mpr known), a, ha, rfl⟩
    refine ⟨fun other => ?_, fun other word => ?_, fun word => ?_⟩
    · rw [isSome_values?_recorded, List.exists_mem_cons_iff, ← isSome_values?_recorded, h.keys]
      refine or_iff_right_of_imp ?_
      rintro ⟨-, rfl⟩
      exact known
    · rw [mem_values?_recorded, List.exists_mem_cons_iff, ← mem_values?_recorded, h.values]
      refine or_iff_right ?_
      rintro ⟨-, -, hw⟩
      rw [wordsOf_none] at hw
      cases hw
    · rw [mem_classes_recorded, List.exists_mem_cons_iff, ← mem_classes_recorded, h.classes]
      exact or_iff_right fun classes => keyed classes.1

theorem records_empty_iff {as : List PlainAttribute} :
    empty.Records as ↔ ∀ a ∈ as, a.name ∈ classKeys ∧ a.words = [] := by
  constructor
  · intro records a ha
    have classes : a.name ∈ classKeys := by
      by_contra keyed
      exact Bool.false_ne_true ((records.keys a.name).mpr ⟨keyed, a, ha, rfl⟩)
    refine ⟨classes, List.eq_nil_iff_forall_not_mem.mpr fun w hw => ?_⟩
    exact List.not_mem_nil ((records.classes w).mpr ⟨a, ha, classes, hw⟩)
  · intro nothing
    refine ⟨fun key => ?_, fun key w => ?_, fun w => ?_⟩
    · refine iff_of_false Bool.false_ne_true ?_
      rintro ⟨keyed, a, ha, rfl⟩
      exact keyed (nothing a ha).1
    · refine iff_of_false List.not_mem_nil ?_
      rintro ⟨keyed, a, ha, rfl, -⟩
      exact keyed (nothing a ha).1
    · refine iff_of_false List.not_mem_nil ?_
      rintro ⟨a, ha, -, hw⟩
      rw [(nothing a ha).2] at hw
      cases hw

end AttributeSet

theorem MarkupScan.isKeyChar_of_isAlphanum {c : Char} (h : c.isAlphanum = true) :
    isKeyChar c = true := by
  have blank : Text.isBlank c = false := by
    refine Bool.eq_false_iff.mpr fun blank => ?_
    rw [isAlphanum_of_isBlank blank] at h
    cases h
  have other {d : Char} (hd : d.isAlphanum = false) : c ≠ d := by
    rintro rfl
    rw [hd] at h
    cases h
  simp [isKeyChar, isQuote, blank, other (d := '"') (by decide), other (d := '\'') (by decide),
    other (d := '>') (by decide), other (d := '/') (by decide), other (d := '=') (by decide)]

namespace NamedTag

theorem not_isAlphanum_hyphen : Char.isAlphanum '-' = false := by decide

theorem tail_of_free {t : NamedTag} (free : '-' ∉ t.name.toList) :
    t.name.toList.dropWhile Char.isAlphanum = [] := by
  refine List.dropWhile_eq_nil_iff.mpr fun c hc => ?_
  exact (t.nameChars c hc).resolve_right fun eq => free (eq ▸ hc)

theorem head_of_free {t : NamedTag} (free : '-' ∉ t.name.toList) : t.head = t.name := by
  have whole := List.takeWhile_append_dropWhile (p := Char.isAlphanum) (l := t.name.toList)
  rw [tail_of_free free, List.append_nil] at whole
  rw [head, whole, String.ofList_toList]

theorem exists_tail {t : NamedTag} (hyphen : '-' ∈ t.name.toList) :
    ∃ cs, t.name.toList.dropWhile Char.isAlphanum = '-' :: cs := by
  cases tail : t.name.toList.dropWhile Char.isAlphanum with
  | nil =>
    have alphanumeric := List.dropWhile_eq_nil_iff.mp tail '-' hyphen
    cases alphanumeric
  | cons c cs =>
    have stop := List.head?_dropWhile_not Char.isAlphanum t.name.toList
    have known : c ∈ t.name.toList :=
      (List.dropWhile_sublist Char.isAlphanum).mem (tail ▸ List.mem_cons_self)
    rw [tail] at stop
    have stop : c.isAlphanum = false := by simpa using stop
    have eq : c = '-' := (t.nameChars c known).resolve_left (by simp [stop])
    exact ⟨cs, by rw [eq]⟩

theorem not_classes_tail {t : NamedTag} (hyphen : '-' ∈ t.name.toList) :
    ¬ AttributeSet.Classes (t.tail, none) := by
  obtain ⟨cs, split⟩ := exists_tail hyphen
  have other {key : String} (h : key.toList.head? ≠ some '-') : t.tail ≠ key := by
    rintro rfl
    rw [tail, String.toList_ofList, split] at h
    exact h rfl
  have named : t.tail ≠ "" := other (by decide)
  have plain : t.tail ≠ "class" := other (by decide)
  have short : t.tail ≠ "$class" := other (by decide)
  simp [AttributeSet.Classes, isClassKey, classKeys, named, plain, short]

theorem isKeyChar_tail (t : NamedTag) : ∀ c ∈ t.tail.toList, MarkupScan.isKeyChar c = true := by
  intro c hc
  rw [tail, String.toList_ofList] at hc
  rcases t.nameChars c ((List.dropWhile_sublist Char.isAlphanum).mem hc) with alphanumeric | hyphen
  · exact MarkupScan.isKeyChar_of_isAlphanum alphanumeric
  · rw [hyphen]
    decide

/-- The rest of a name, as the attribute that it is to the scan. -/
def leading (t : NamedTag) : List WrittenAttribute :=
  if void : t.tail = "" then []
  else [⟨⟨"", by simp⟩, t.tail, void, t.isKeyChar_tail, none⟩]

def inner (t : NamedTag) : List Char :=
  (t.leading ++ t.attributes.map PlainAttribute.written).flatMap WrittenAttribute.chars ++
    t.space.1.toList

theorem flatMap_leading (t : NamedTag) :
    t.leading.flatMap WrittenAttribute.chars = t.name.toList.dropWhile Char.isAlphanum := by
  have chars : t.tail.toList = t.name.toList.dropWhile Char.isAlphanum := String.toList_ofList
  rw [← chars]
  unfold leading
  split
  · rename_i void
    rw [void]
    rfl
  · simp [WrittenAttribute.chars, WrittenAttribute.valueChars]

theorem inner_eq (t : NamedTag) :
    t.inner = t.name.toList.dropWhile Char.isAlphanum ++
      (t.attributes.flatMap PlainAttribute.chars ++ t.space.1.toList) := by
  rw [inner, List.flatMap_append, flatMap_leading, PlainAttribute.flatMap_written,
    List.append_assoc]

theorem attributes_inner (t : NamedTag) :
    MarkupScan.attributes t.inner =
      (t.leading ++ t.attributes.map PlainAttribute.written).map WrittenAttribute.reading := by
  have spaced := PlainAttribute.spaced_written t.attributes
  refine MarkupScan.attributes_closed (WrittenAttribute.isChain_of_spaced ?_)
    (fun a _ => MarkupScan.ends_space a t.space) (MarkupScan.not_isKeyChar_blanks t.space)
  unfold leading
  split
  · exact fun a ha => spaced a (List.mem_of_mem_tail ha)
  · exact spaced

theorem text_eq (t : NamedTag) :
    t.text.toList = '<' :: (t.head.toList ++ (t.inner ++ ['>'])) := by
  have name : t.name.toList = t.head.toList ++ t.name.toList.dropWhile Char.isAlphanum := by
    rw [head, String.toList_ofList, List.takeWhile_append_dropWhile]
  rw [text, String.toList_ofList, inner_eq]
  nth_rewrite 1 [name]
  simp

theorem head_ne_nil (t : NamedTag) : t.head.toList ≠ [] := by
  rw [head, String.toList_ofList]
  have letter := t.letter
  cases name : t.name.toList with
  | nil =>
    rw [name] at letter
    cases letter
  | cons c cs =>
    rw [name] at letter
    have alphanumeric : c.isAlphanum = true := Bool.or_eq_true_iff.mpr (.inl letter)
    simp [alphanumeric]

theorem head?_inner (t : NamedTag) : (t.inner ++ ['>']).head?.any Char.isAlphanum = false := by
  have blanks : (t.space.1.toList ++ ['>']).head?.any Char.isAlphanum = false :=
    MarkupScan.head?_blanks t.space (by decide)
  have written := MarkupScan.head?_flatMap
    (PlainAttribute.separate_written t.attributes).1 blanks
  rw [PlainAttribute.flatMap_written] at written
  rw [inner_eq, List.append_assoc, List.append_assoc]
  by_cases hyphen : '-' ∈ t.name.toList
  · obtain ⟨cs, split⟩ := exists_tail hyphen
    rw [split]
    exact not_isAlphanum_hyphen
  · rw [tail_of_free hyphen]
    exact written

theorem startTags_text (t : NamedTag) :
    MarkupScan.startTags t.text.toList = [(t.head.toList, t.inner)] := by
  have alphanumeric : ∀ c ∈ t.head.toList, c.isAlphanum = true := by
    rw [head, String.toList_ofList]
    exact fun c hc => List.mem_takeWhile_imp hc
  have passes : MarkupScan.Passes t.inner :=
    (MarkupScan.passes_attributes _).append (MarkupScan.passes_blanks t.space)
  rw [text_eq, MarkupScan.startTags_tag t.head_ne_nil alphanumeric t.head?_inner passes,
    MarkupScan.startTags]

theorem map_pair_leading (t : NamedTag) :
    t.leading.map WrittenAttribute.pair =
      if '-' ∈ t.name.toList then [(t.tail, none)] else [] := by
  have void : t.tail = "" ↔ '-' ∉ t.name.toList := by
    refine ⟨fun void hyphen => ?_, fun free => ?_⟩
    · exact not_classes_tail hyphen (by simp [AttributeSet.Classes, void])
    · rw [tail, tail_of_free free, String.ofList_nil]
  unfold leading
  split
  · rename_i none
    rw [if_neg (void.mp none)]
    rfl
  · rename_i named
    rw [if_pos (not_not.mp fun free => named (void.mpr free))]
    rfl

theorem pairs_text (t : NamedTag) : MarkupScan.pairs t.text.toList = t.pairs := by
  rw [MarkupScan.pairs, startTags_text, List.flatMap_singleton,
    MarkupScan.tagPairs_of_attributes t.attributes_inner, String.ofList_toList, List.map_append,
    map_pair_leading, PlainAttribute.map_pair_written, pairs]
  simp only [List.contains_iff_mem]
  split
  · rfl
  · split <;> rfl

end NamedTag

/-- The scan of a tag records what its attributes say, and nothing else, when the name has no hyphen
in it. Otherwise it depends on whether the first part of the name is one to pass over, and then on
whether there is nothing to say, or else on whether an attribute is called what the rest of the name
is. -/
theorem tag_name_read_whole_iff (t : NamedTag) :
    (∀ set, MarkupScan.collect set t.text = set.addPairs t.pairs) ∧
    ((MarkupScan.collect .empty t.text).Records t.attributes ↔
      '-' ∉ t.name.toList ∨
      t.head ∈ MarkupScan.ignoredTags ∧ (∀ a ∈ t.attributes, a.name ∈ classKeys ∧ a.words = []) ∨
      t.head ∉ MarkupScan.ignoredTags ∧ ∃ a ∈ t.attributes, a.name = t.tail) := by
  have collected (set : AttributeSet) : MarkupScan.collect set t.text = set.addPairs t.pairs := by
    rw [MarkupScan.collect_eq, t.pairs_text]
  have written := AttributeSet.records_written t.attributes
  refine ⟨collected, ?_⟩
  rw [collected, NamedTag.pairs]
  by_cases hyphen : '-' ∈ t.name.toList
  · by_cases ignored : t.head ∈ MarkupScan.ignoredTags
    · have nothing : AttributeSet.empty.addPairs [] = .empty := rfl
      rw [if_pos ignored, nothing, AttributeSet.records_empty_iff]
      simp [hyphen, ignored]
    · have keyed := NamedTag.not_classes_tail hyphen
      rw [if_neg ignored, if_pos hyphen, AttributeSet.records_cons_iff keyed written]
      simp [hyphen, ignored]
  · have counts : t.head ∉ MarkupScan.ignoredTags := by
      rw [NamedTag.head_of_free hyphen]
      exact t.counts
    rw [if_neg counts, if_neg hyphen]
    exact iff_of_true written (.inl hyphen)

/-- What follows the hyphen in a name is taken for an attribute, and a name that only begins like
one to be passed over is passed over. -/
theorem hyphenated_names_are_cut :
    (MarkupScan.collect .empty "<my-card bg='red'>").pairs = [("-card", ""), ("bg", "red")] ∧
      (MarkupScan.collect .empty "<link-card bg='red'>").pairs = [] := by
  decide +kernel

end HybridTemplate.Utility
