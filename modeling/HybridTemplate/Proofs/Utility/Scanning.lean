import HybridTemplate.Proofs.Utility.StartTags
import HybridTemplate.Proofs.Utility.Walking

set_option autoImplicit false

namespace HybridTemplate.Utility

def PlainTag.written (t : PlainTag) : WrittenTag where
  name := t.name
  named := by
    intro none
    have lower := t.lowercase
    rw [none] at lower
    cases lower
  nameChars := t.nameChars
  attributes := t.attributes.map PlainAttribute.written
  separate := PlainAttribute.separate_written t.attributes
  space := t.space

theorem PlainTag.chars_written (t : PlainTag) : t.written.chars t.slash = t.chars := by
  rw [WrittenTag.chars, WrittenTag.inner, chars, inner, written, PlainAttribute.flatMap_written]

theorem PlainTag.pairs_written (t : PlainTag) : t.written.pairs t.slash = t.pairs := by
  have last : ∀ a ∈ t.written.attributes.getLast?, a.isBare = false :=
    PlainAttribute.isBare_getLast? t.attributes
  rw [WrittenTag.pairs_of_counts t.counts, WrittenTag.written_of_getLast? last]
  exact PlainAttribute.map_pair_written t.attributes

namespace MarkupScan

theorem startTags_free {cs : List Char} (free : '<' ∉ cs) (rest : List Char) :
    startTags (cs ++ rest) = startTags rest := by
  induction cs with
  | nil => rfl
  | cons c cs ih =>
    rw [List.mem_cons, not_or] at free
    have other : ¬ (c = '<' ∧ (cs ++ rest).head?.any Char.isAlphanum = true) :=
      fun h => free.1 h.1.symm
    rw [List.cons_append, startTags, if_neg other, ih free.2]

/-- An opening bracket before other than a letter or a digit opens no tag. -/
theorem startTags_bracket {c : Char} (other : c.isAlphanum = false) (rest : List Char) :
    startTags ('<' :: c :: rest) = startTags (c :: rest) := by
  rw [startTags, if_neg]
  rintro ⟨-, alphanumeric⟩
  have alphanumeric : c.isAlphanum = true := alphanumeric
  rw [other] at alphanumeric
  cases alphanumeric

theorem pairs_plainTag (t : PlainTag) (rest : List Char) :
    pairs (t.chars ++ rest) = t.pairs ++ pairs rest := by
  rw [← t.chars_written, ← t.pairs_written, pairs_written]

theorem pairs_free {cs : List Char} (free : '<' ∉ cs) (rest : List Char) :
    pairs (cs ++ rest) = pairs rest := by
  rw [pairs, startTags_free free, pairs]

theorem pairs_bracket (c : Char) (cs : List Char) (other : c.isAlphanum = false)
    (free : '<' ∉ c :: cs) (rest : List Char) :
    pairs ('<' :: c :: cs ++ rest) = pairs rest := by
  rw [pairs, List.cons_append, List.cons_append, startTags_bracket other, ← List.cons_append,
    startTags_free free, pairs]

theorem pairs_endTag (t : PlainTag) (space : Blanks) (rest : List Char) :
    pairs ('<' :: '/' :: (t.name.toList ++ (space.1.toList ++ ['>'])) ++ rest) = pairs rest := by
  refine pairs_bracket '/' _ (by decide) ?_ rest
  simp only [List.mem_cons, List.mem_append, List.not_mem_nil, or_false, not_or]
  refine ⟨by decide, fun name => ?_, fun blank => ?_, by decide⟩
  · have alphanumeric := t.nameChars '<' name
    cases alphanumeric
  · exact (isBlank_clear (space.2 '<' blank)).2.2.2.2.2 rfl

open PlainMarkup in
mutual

/-- Markup before other characters adds its own pairs. -/
theorem pairs_markup (m : PlainMarkup) (rest : List Char) :
    MarkupScan.pairs (m.chars ++ rest) = m.pairs ++ MarkupScan.pairs rest := by
  match m with
  | .text _ _ s free => exact pairs_free free rest
  | .fragment items =>
    have opening (more : List Char) := pairs_bracket '>' [] (by decide) (by decide) more
    have closing := pairs_bracket '/' ['>'] (by decide) (by decide) rest
    calc MarkupScan.pairs ((PlainMarkup.fragment items).chars ++ rest)
        = MarkupScan.pairs (['<', '>'] ++ (allChars items ++ (['<', '/', '>'] ++ rest))) := by
          simp [chars]
      _ = MarkupScan.pairs (allChars items ++ (['<', '/', '>'] ++ rest)) := opening _
      _ = allPairs items ++ MarkupScan.pairs (['<', '/', '>'] ++ rest) := pairs_allMarkup items _
      _ = allPairs items ++ MarkupScan.pairs rest := by rw [closing]
  | .paired tag items space =>
    let ending : List Char := '<' :: '/' :: (tag.name.toList ++ (space.1.toList ++ ['>']))
    calc MarkupScan.pairs ((PlainMarkup.paired tag items space).chars ++ rest)
        = MarkupScan.pairs (tag.chars ++ (allChars items ++ (ending ++ rest))) := by
          simp [chars, ending]
      _ = tag.pairs ++ MarkupScan.pairs (allChars items ++ (ending ++ rest)) :=
          pairs_plainTag tag _
      _ = tag.pairs ++ (allPairs items ++ MarkupScan.pairs (ending ++ rest)) := by
          rw [pairs_allMarkup items]
      _ = tag.pairs ++ allPairs items ++ MarkupScan.pairs rest := by
          rw [pairs_endTag, List.append_assoc]
  | .alone tag => exact pairs_plainTag tag rest

theorem pairs_allMarkup (ms : List PlainMarkup) (rest : List Char) :
    MarkupScan.pairs (allChars ms ++ rest) = allPairs ms ++ MarkupScan.pairs rest := by
  match ms with
  | [] => rfl
  | m :: ms =>
    rw [allChars, List.append_assoc, pairs_markup m, pairs_allMarkup ms, allPairs,
      List.append_assoc]

end

theorem collect_document (ms : List PlainMarkup) (set : AttributeSet) :
    collect set (PlainMarkup.document ms).text = set.addPairs (PlainMarkup.allPairs ms) := by
  have scanned : pairs (PlainMarkup.allChars ms) = PlainMarkup.allPairs ms := by
    have whole := pairs_allMarkup ms []
    rwa [pairs_nil, List.append_nil, List.append_nil] at whole
  rw [collect_eq, PlainMarkup.document, Node.branch_text, PlainMarkup.toList_nodes, scanned]

end MarkupScan

/-- On plain markup the scan of the text and the walk over the tree collect the same. -/
theorem scan_eq_walk (ms : List PlainMarkup) (set : AttributeSet) :
    MarkupScan.collect set (PlainMarkup.document ms).text =
      TreeWalk.collectTree TreeWalk.noHtml set (PlainMarkup.document ms) := by
  rw [MarkupScan.collect_document, TreeWalk.collectTree_document]

end HybridTemplate.Utility
