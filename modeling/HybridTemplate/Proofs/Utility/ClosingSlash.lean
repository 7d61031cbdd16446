import HybridTemplate.Proofs.Utility.Reading
import HybridTemplate.Proofs.Utility.StartTags

set_option autoImplicit false

namespace HybridTemplate.Utility

open AttributeSet (wordsOf)

theorem wordsOf_bare (key : String) {text : String} (filled : text ≠ "")
    (bareChars : ∀ c ∈ text.toList, MarkupScan.isBareChar c = true) :
    wordsOf (key, some text) = [text] := by
  have clear (c : Char) (hc : c ∈ text.toList) := MarkupScan.isBareChar_clear (bareChars c hc)
  have unquoted : Text.unquote text = text := by
    unfold Text.unquote
    split
    · rename_i q c cs chars
      have quote : (q == '"' || q == '\'') = false := (clear q (by simp [chars])).2.1
      rw [if_neg (by simp [quote])]
    · rfl
  rw [wordsOf, Option.getD_some, unquoted]
  exact Text.words_of_isWord ⟨filled, fun c hc => (clear c hc).1⟩

theorem WrittenAttribute.pair_slashed {a : WrittenAttribute} (h : a.isBare = true) :
    ∃ value, a.pair = (a.name, some value) ∧ a.slashed.pair = (a.name, some (value ++ "/")) ∧
      wordsOf a.pair = [value] ∧ wordsOf a.slashed.pair = [value ++ "/"] := by
  obtain ⟨space, name, named, nameChars, assigned?⟩ := a
  cases assigned? with
  | none => cases h
  | some v =>
    obtain ⟨before, behind, value⟩ := v
    cases value with
    | quoted text => cases h
    | bare text filled bareChars =>
      have longer : ∀ c ∈ (text ++ "/").toList, MarkupScan.isBareChar c = true := by
        rw [String.toList_append]
        exact List.forall_mem_append.mpr ⟨bareChars, List.forall_mem_singleton.mpr (by decide)⟩
      simp only [pair, slashed, WrittenValue.slashed, WrittenValue.chars, Option.map_some,
        String.ofList_toList]
      exact ⟨text, rfl, rfl, wordsOf_bare name filled bareChars,
        wordsOf_bare name (by simp) longer⟩

namespace WrittenTag

def EndsBare (t : WrittenTag) : Prop :=
  t.space.1 = "" ∧ ∃ a ∈ t.attributes.getLast?, a.isBare = true

theorem pairs_of_not_endsBare {t : WrittenTag} (quoted : ¬ t.EndsBare) :
    t.pairs true = t.pairs false := by
  have same : t.written true = t.written false := by
    by_cases touching : t.space.1 = ""
    · have last : ∀ a ∈ t.attributes.getLast?, a.isBare = false := fun a ha =>
        Bool.eq_false_iff.mpr fun bare => quoted ⟨touching, a, ha, bare⟩
      rw [written_of_getLast? last, written_of_getLast? last]
    · rw [written, written, if_neg (fun h => touching h.2), if_neg (fun h => touching h.2)]
  rw [pairs, pairs, same]

/-- The slash is the end of the value that it touches. -/
theorem exists_pairs {t : WrittenTag} (counts : t.name ∉ MarkupScan.ignoredTags)
    (h : t.EndsBare) :
    ∃ a ∈ t.attributes.getLast?, a.isBare = true ∧
      t.pairs false = t.attributes.dropLast.map WrittenAttribute.pair ++ [a.pair] ∧
      t.pairs true = t.attributes.dropLast.map WrittenAttribute.pair ++ [a.slashed.pair] := by
  obtain ⟨touching, a, last, bare⟩ := h
  obtain ⟨front, split⟩ := List.getLast?_eq_some_iff.mp last
  refine ⟨a, last, bare, ?_, ?_⟩
  · rw [pairs_of_counts counts, written, if_neg (fun h => Bool.false_ne_true h.1), split,
      List.dropLast_concat, List.map_append, List.map_singleton]
  · rw [pairs_of_counts counts, written, if_pos ⟨rfl, touching⟩, split, List.dropLast_concat,
      WrittenAttribute.withSlash_concat, List.map_append, List.map_singleton]

theorem pairs_of_ignored {t : WrittenTag} (ignored : t.name ∈ MarkupScan.ignoredTags)
    (slash : Bool) : t.pairs slash = [] := by
  rw [pairs, if_pos (by simpa using ignored)]

/-- Whether a tag has the last of its values, with a slash and without, under the same key in the
attributes before. -/
def Repeats (t : WrittenTag) : Prop :=
  let before := AttributeSet.empty.addPairs (t.attributes.dropLast.map WrittenAttribute.pair)
  ∃ a ∈ t.attributes.getLast?, ∃ value, a.pair = (a.name, some value) ∧
    before.Has a.name value ∧ before.Has a.name (value ++ "/")

end WrittenTag

def EndInSlash (plain slashed : List Pair) : Prop :=
  ∃ front key value, plain = front ++ [(key, some value)] ∧
    slashed = front ++ [(key, some (value ++ "/"))]

theorem EndInSlash.ne {plain slashed : List Pair} (h : EndInSlash plain slashed) :
    slashed ≠ plain := by
  obtain ⟨front, key, value, rfl, rfl⟩ := h
  simp

namespace WrittenTag

theorem endInSlash {t : WrittenTag} (counts : t.name ∉ MarkupScan.ignoredTags) (h : t.EndsBare) :
    EndInSlash (t.pairs false) (t.pairs true) := by
  obtain ⟨a, -, bare, without, behind⟩ := exists_pairs counts h
  obtain ⟨value, plain, slashed, -, -⟩ := WrittenAttribute.pair_slashed bare
  exact ⟨_, a.name, value, by rw [without, plain], by rw [behind, slashed]⟩

theorem addPairs_eq_iff {t : WrittenTag} (counts : t.name ∉ MarkupScan.ignoredTags)
    (h : t.EndsBare) :
    AttributeSet.empty.addPairs (t.pairs true) = AttributeSet.empty.addPairs (t.pairs false) ↔
      t.Repeats := by
  obtain ⟨a, last, bare, without, behind⟩ := exists_pairs counts h
  obtain ⟨value, plain, slashed, word, longer⟩ := WrittenAttribute.pair_slashed bare
  let before := AttributeSet.empty.addPairs (t.attributes.dropLast.map WrittenAttribute.pair)
  have sound : before.Sound := AttributeSet.sound_empty.addPairs _
  have named : a.pair.1 ≠ "" := a.named
  have key : a.slashed.pair.1 = a.pair.1 := rfl
  have other : value ≠ value ++ "/" := Ne.symm (by simp)
  have repeats : t.Repeats ↔ before.Has a.name value ∧ before.Has a.name (value ++ "/") := by
    constructor
    · rintro ⟨b, hb, text, same, has⟩
      obtain rfl := Option.mem_unique last hb
      have eq : value = text := by simpa [plain] using same
      exact eq ▸ has
    · exact fun has => ⟨a, last, value, plain, has⟩
  rw [without, behind, AttributeSet.addPairs_append, AttributeSet.addPairs_append, repeats, eq_comm]
  exact AttributeSet.addPair_eq_iff sound named key word longer other

end WrittenTag

/-- The scan finds the same in a tag with a slash before its bracket and without, unless the tag
counts and ends in a value without quotes. Then the slash is the end of that value, and to the set
it makes no difference only where the attributes before have both values. -/
theorem closing_slash_is_data_iff (t : WrittenTag) :
    let plain := MarkupScan.pairs (t.chars false)
    let slashed := MarkupScan.pairs (t.chars true)
    let collected := fun slash => MarkupScan.collect .empty (String.ofList (t.chars slash))
    (∀ set, MarkupScan.collect set (String.ofList (t.chars false)) = set.addPairs plain ∧
      MarkupScan.collect set (String.ofList (t.chars true)) = set.addPairs slashed) ∧
    plain = t.pairs false ∧
    (slashed = plain ↔ t.name ∈ MarkupScan.ignoredTags ∨ ¬ t.EndsBare) ∧
    (slashed ≠ plain ↔ EndInSlash plain slashed) ∧
    (collected true = collected false ↔
      t.name ∈ MarkupScan.ignoredTags ∨ ¬ t.EndsBare ∨ t.Repeats) := by
  intro plain slashed collected
  have without : plain = t.pairs false := MarkupScan.pairs_tag t false
  have behind : slashed = t.pairs true := MarkupScan.pairs_tag t true
  have same (h : t.name ∈ MarkupScan.ignoredTags ∨ ¬ t.EndsBare) : slashed = plain := by
    rw [without, behind]
    rcases h with ignored | quoted
    · rw [WrittenTag.pairs_of_ignored ignored, WrittenTag.pairs_of_ignored ignored]
    · exact WrittenTag.pairs_of_not_endsBare quoted
  have joined (h : ¬ (t.name ∈ MarkupScan.ignoredTags ∨ ¬ t.EndsBare)) :
      EndInSlash plain slashed := by
    rw [without, behind]
    rw [not_or, not_not] at h
    exact WrittenTag.endInSlash h.1 h.2
  refine ⟨fun set => ?_, without, ⟨fun h => ?_, same⟩, ⟨fun h => ?_, EndInSlash.ne⟩, ?_⟩
  · rw [without, behind]
    exact ⟨MarkupScan.collect_tag t false set, MarkupScan.collect_tag t true set⟩
  · exact by_contra fun other => (joined other).ne h
  · exact joined fun other => h (same other)
  · have sets (slash : Bool) : collected slash = AttributeSet.empty.addPairs (t.pairs slash) :=
      MarkupScan.collect_tag t slash .empty
    rw [sets, sets, ← or_assoc]
    by_cases h : t.name ∈ MarkupScan.ignoredTags ∨ ¬ t.EndsBare
    · rw [← without, ← behind, same h]
      exact iff_of_true rfl (.inl h)
    · have counts := h
      rw [not_or, not_not] at counts
      rw [or_iff_right h]
      exact WrittenTag.addPairs_eq_iff counts.1 counts.2

/-- A slash that touches a value without quotes becomes a part of it. -/
theorem closing_slash_joins_bare_value :
    (MarkupScan.collect .empty "<p bg=red>").pairs = [("bg", "red")] ∧
      (MarkupScan.collect .empty "<p bg=red/>").pairs = [("bg", "red/")] := by
  decide +kernel

end HybridTemplate.Utility
