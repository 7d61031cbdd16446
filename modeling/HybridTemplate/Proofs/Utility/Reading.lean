import HybridTemplate.Proofs.Utility.Orderless
import Mathlib.Data.List.Sort
import Mathlib.Data.List.TakeWhile

set_option autoImplicit false

/-! A set is read as a list of pairs. A class stands under the empty key, and a key without values
gives a pair with the empty value. These two spellings cannot be mistaken, because no recorded
word and no recorded key is empty. Whatever was recorded, the pairs are in order, and they tell
the whole set. -/
namespace HybridTemplate

def Text.IsWord (s : String) : Prop := s ≠ "" ∧ ∀ c ∈ s.toList, isBlank c = false

theorem Text.not_of_mem_splitBy {p : Char → Bool} {cs w : List Char} (h : w ∈ splitBy p cs) :
    ∀ c ∈ w, p c = false := by
  fun_induction splitBy p cs with
  | case1 => cases h
  | case2 c cs hc ih => exact ih h
  | case3 c cs hc ih =>
    rcases List.mem_cons.mp h with rfl | h
    · refine List.forall_mem_cons.mpr ⟨Bool.eq_false_of_not_eq_true hc, fun d hd => ?_⟩
      simpa using List.mem_takeWhile_imp hd
    · exact ih h

theorem Text.isWord_of_mem_words {s w : String} (h : w ∈ words s) : IsWord w := by
  obtain ⟨cs, piece, rfl⟩ := List.mem_map.mp h
  have filled := ne_nil_of_mem_splitBy piece
  refine ⟨fun void => filled ?_, ?_⟩
  · rw [← String.toList_ofList (l := cs), void]
    rfl
  · rw [String.toList_ofList]
    exact not_of_mem_splitBy piece

theorem Text.words_of_isWord {s : String} (h : IsWord s) : words s = [s] := by
  obtain ⟨filled, clear⟩ := h
  obtain ⟨c, cs, chars⟩ := List.exists_cons_of_ne_nil (l := s.toList) (by simpa using filled)
  rw [chars] at clear
  obtain ⟨first, rest⟩ := List.forall_mem_cons.mp clear
  have all : ∀ d ∈ cs, (!isBlank d) = true := fun d hd => by simp [rest d hd]
  have none : cs.dropWhile (fun d => !isBlank d) = [] := List.dropWhile_eq_nil_iff.mpr all
  have whole : cs.takeWhile (fun d => !isBlank d) = cs := List.takeWhile_eq_self_iff.mpr all
  rw [words, chars, splitBy, if_neg (by simp [first]), none, whole, splitBy, List.map_singleton,
    ← chars, String.ofList_toList]

namespace Utility

open Text (IsWord)

theorem SortedSet.pairwise_insert (s : String) {set : List String} (h : set.Pairwise (· < ·)) :
    (insert s set).Pairwise (· < ·) := by
  induction set with
  | nil => exact List.pairwise_singleton _ s
  | cons t ts ih =>
    obtain ⟨first, rest⟩ := List.pairwise_cons.mp h
    rw [insert]
    split
    · rename_i before
      have all : ∀ u ∈ t :: ts, s < u :=
        List.forall_mem_cons.mpr ⟨before, fun u hu => before.trans (first u hu)⟩
      exact List.pairwise_cons.mpr ⟨all, h⟩
    · rename_i notBefore
      split
      · exact h
      · rename_i other
        have behind : t < s := lt_of_le_of_ne (not_lt.mp notBefore) (Ne.symm other)
        refine List.pairwise_cons.mpr ⟨fun u hu => ?_, ih rest⟩
        rcases mem_insert.mp hu with rfl | hu
        · exact behind
        · exact first u hu

theorem SortedSet.pairwise_insertAll (ss : List String) {set : List String}
    (h : set.Pairwise (· < ·)) : (insertAll ss set).Pairwise (· < ·) := by
  induction ss generalizing set with
  | nil => exact h
  | cons s ss ih => exact ih (pairwise_insert s h)

theorem SortedSet.insert_of_mem {s : String} {set : List String} (h : set.Pairwise (· < ·))
    (hs : s ∈ set) : insert s set = set := by
  induction set with
  | nil => cases hs
  | cons t ts ih =>
    obtain ⟨first, rest⟩ := List.pairwise_cons.mp h
    rw [insert]
    split
    · rename_i before
      rcases List.mem_cons.mp hs with rfl | hs
      · exact absurd before (lt_irrefl s)
      · exact absurd (before.trans (first s hs)) (lt_irrefl s)
    · split
      · rfl
      · rename_i other
        rw [ih rest ((List.mem_cons.mp hs).resolve_left other)]

namespace AttributeSet

/-- A key that does not stand for the classes, with different words in order. -/
structure SoundEntry (e : String × List String) : Prop where
  filled : e.1 ≠ ""
  unclassed : e.1 ∉ classKeys
  words : ∀ v ∈ e.2, IsWord v
  sorted : e.2.Pairwise (· < ·)

structure Sound (set : AttributeSet) : Prop where
  words : ∀ c ∈ set.classes, IsWord c
  sorted : set.classes.Pairwise (· < ·)
  entries : ∀ e ∈ set.keyed, SoundEntry e
  keys : set.keyed.Pairwise fun d e => d.1 < e.1

theorem sound_empty : Sound empty :=
  ⟨fun _ => nofun, .nil, fun _ => nofun, .nil⟩

theorem forall_mem_insertAll {ss set : List String} (new : ∀ s ∈ ss, IsWord s)
    (old : ∀ s ∈ set, IsWord s) : ∀ s ∈ SortedSet.insertAll ss set, IsWord s :=
  fun s hs => (SortedSet.mem_insertAll.mp hs).elim (new s) (old s)

theorem mem_addValues {key : String} {vs : List String} {entries : List (String × List String)}
    {e : String × List String} (h : e ∈ addValues key vs entries) :
    e ∈ entries ∨
      ∃ old, (old = [] ∨ (key, old) ∈ entries) ∧ e = (key, SortedSet.insertAll vs old) := by
  induction entries with
  | nil => exact .inr ⟨[], .inl rfl, List.mem_singleton.mp h⟩
  | cons d entries ih =>
    rw [addValues] at h
    split at h
    · rcases List.mem_cons.mp h with rfl | h
      · exact .inr ⟨[], .inl rfl, rfl⟩
      · exact .inl h
    · split at h
      · rename_i same
        rcases List.mem_cons.mp h with rfl | h
        · exact .inr ⟨d.2, .inr (by rw [same]; exact List.mem_cons_self), by rw [same]⟩
        · exact .inl (List.mem_cons_of_mem d h)
      · rcases List.mem_cons.mp h with rfl | h
        · exact .inl List.mem_cons_self
        · rcases ih h with h | ⟨old, known, same⟩
          · exact .inl (List.mem_cons_of_mem d h)
          · exact .inr ⟨old, known.imp_right (List.mem_cons_of_mem d), same⟩

theorem pairwise_addValues (key : String) (vs : List String)
    {entries : List (String × List String)} (h : entries.Pairwise fun d e => d.1 < e.1) :
    (addValues key vs entries).Pairwise fun d e => d.1 < e.1 := by
  induction entries with
  | nil => exact List.pairwise_singleton _ _
  | cons d entries ih =>
    obtain ⟨first, rest⟩ := List.pairwise_cons.mp h
    rw [addValues]
    split
    · rename_i before
      have all : ∀ e ∈ d :: entries, key < e.1 :=
        List.forall_mem_cons.mpr ⟨before, fun e he => before.trans (first e he)⟩
      exact List.pairwise_cons.mpr ⟨all, h⟩
    · rename_i notBefore
      split
      · exact List.pairwise_cons.mpr ⟨first, rest⟩
      · rename_i other
        have behind : d.1 < key := lt_of_le_of_ne (not_lt.mp notBefore) (Ne.symm other)
        refine List.pairwise_cons.mpr ⟨fun e he => ?_, ih rest⟩
        rcases mem_addValues he with he | ⟨old, -, rfl⟩
        · exact first e he
        · exact behind

theorem Sound.addPair {set : AttributeSet} (h : Sound set) (p : Pair) : Sound (set.addPair p) := by
  have new : ∀ w ∈ wordsOf p, IsWord w := fun w hw => Text.isWord_of_mem_words hw
  by_cases classes : Classes p
  · rw [addPair_classes classes]
    exact ⟨forall_mem_insertAll new h.words, SortedSet.pairwise_insertAll _ h.sorted, h.entries,
      h.keys⟩
  · rw [addPair_keyed classes]
    refine ⟨h.words, h.sorted, fun e he => ?_, pairwise_addValues _ _ h.keys⟩
    rcases mem_addValues he with he | ⟨old, known, rfl⟩
    · exact h.entries e he
    · have key : p.1 ≠ "" ∧ p.1 ∉ classKeys := by
        simpa [Classes, isClassKey] using classes
      have before : (∀ v ∈ old, IsWord v) ∧ old.Pairwise (· < ·) := by
        rcases known with rfl | known
        · exact ⟨fun _ => nofun, .nil⟩
        · exact ⟨(h.entries _ known).words, (h.entries _ known).sorted⟩
      exact ⟨key.1, key.2, forall_mem_insertAll new before.1,
        SortedSet.pairwise_insertAll _ before.2⟩

theorem Sound.addPairs {set : AttributeSet} (h : Sound set) (ps : List Pair) :
    Sound (set.addPairs ps) := by
  induction ps generalizing set with
  | nil => exact h
  | cons p ps ih => exact ih (h.addPair p)

def recorded (calls : List Call) : AttributeSet := calls.foldl apply empty

theorem sound_recorded (calls : List Call) : Sound (recorded calls) := by
  have kept (set : AttributeSet) (h : Sound set) : Sound (calls.foldl apply set) := by
    induction calls generalizing set with
    | nil => exact h
    | cons c calls ih => exact ih (set.apply c) (apply_eq set c ▸ h.addPairs c.pairs)
  exact kept empty sound_empty

theorem lookup_cons (e : String × List String) (entries : List (String × List String))
    (k : String) :
    (e :: entries).lookup k = if k = e.1 then some e.2 else entries.lookup k := by
  rw [List.lookup_cons]
  by_cases same : k = e.1
  · rw [if_pos same, beq_iff_eq.mpr same]
  · rw [if_neg same, beq_eq_false_iff_ne.mpr same]

theorem lookup_addValues (key : String) (vs : List String) {entries : List (String × List String)}
    (sorted : entries.Pairwise fun d e => d.1 < e.1) (k : String) :
    (addValues key vs entries).lookup k =
      if k = key then some (SortedSet.insertAll vs ((entries.lookup key).getD []))
      else entries.lookup k := by
  induction entries with
  | nil => simp only [addValues, lookup_cons, List.lookup_nil, Option.getD_none]
  | cons e entries ih =>
    obtain ⟨first, rest⟩ := List.pairwise_cons.mp sorted
    rw [addValues]
    split
    · rename_i before
      have fresh : (e :: entries).lookup key = none := by
        refine List.lookup_eq_none_iff.mpr (List.forall_mem_cons.mpr ⟨?_, fun d hd => ?_⟩)
        · exact bne_iff_ne.mpr before.ne
        · exact bne_iff_ne.mpr (before.trans (first d hd)).ne
      rw [fresh, lookup_cons, Option.getD_none]
    · split
      · rename_i same
        subst same
        simp only [lookup_cons, if_true, Option.getD_some]
        split <;> rfl
      · rename_i other
        simp only [lookup_cons, ih rest, if_neg other]
        by_cases here : k = e.1
        · rw [if_pos here, if_neg (here ▸ Ne.symm other), if_pos here]
        · rw [if_neg here, if_neg here]

theorem isSome_values?_addPair {set : AttributeSet} (h : Sound set) (p : Pair) (key : String) :
    ((set.addPair p).values? key).isSome = true ↔
      (set.values? key).isSome = true ∨ ¬ Classes p ∧ p.1 = key := by
  by_cases classes : Classes p
  · simp [addPair_classes classes, classes, values?]
  · rw [addPair_keyed classes, values?, lookup_addValues _ _ h.keys, values?]
    by_cases same : key = p.1
    · simp [same, classes]
    · simp [same, Ne.symm same]

theorem mem_values?_addPair {set : AttributeSet} (h : Sound set) (p : Pair) (key w : String) :
    w ∈ ((set.addPair p).values? key).getD [] ↔
      w ∈ (set.values? key).getD [] ∨ ¬ Classes p ∧ p.1 = key ∧ w ∈ wordsOf p := by
  by_cases classes : Classes p
  · simp [addPair_classes classes, classes, values?]
  · rw [addPair_keyed classes, values?, lookup_addValues _ _ h.keys, values?]
    by_cases same : key = p.1
    · simp [same, classes, SortedSet.mem_insertAll, or_comm]
    · simp [same, Ne.symm same]

theorem mem_classes_addPair (set : AttributeSet) (p : Pair) (w : String) :
    w ∈ (set.addPair p).classes ↔ w ∈ set.classes ∨ Classes p ∧ w ∈ wordsOf p := by
  by_cases classes : Classes p
  · simp [addPair_classes classes, classes, SortedSet.mem_insertAll, or_comm]
  · simp [addPair_keyed classes, classes]

theorem addPairs_iff {P : AttributeSet → Prop} {Q : Pair → Prop}
    (step : ∀ set, Sound set → ∀ p, P (set.addPair p) ↔ P set ∨ Q p) {set : AttributeSet}
    (h : Sound set) (ps : List Pair) : P (set.addPairs ps) ↔ P set ∨ ∃ p ∈ ps, Q p := by
  induction ps generalizing set with
  | nil => simp [addPairs]
  | cons p ps ih =>
    have rest := ih (h.addPair p)
    rw [step set h p] at rest
    rw [List.exists_mem_cons_iff, ← or_assoc]
    exact rest
def Has (set : AttributeSet) (key w : String) : Prop :=
  if key ∈ classKeys then w ∈ set.classes else w ∈ (set.values? key).getD []

theorem classes_iff {p : Pair} (named : p.1 ≠ "") : Classes p ↔ p.1 ∈ classKeys := by
  simp [Classes, isClassKey, named]

theorem has_addPair {set : AttributeSet} (h : Sound set) {p : Pair} (named : p.1 ≠ "")
    (w : String) : (set.addPair p).Has p.1 w ↔ set.Has p.1 w ∨ w ∈ wordsOf p := by
  unfold Has
  by_cases key : p.1 ∈ classKeys
  · simp [key, mem_classes_addPair, classes_iff named]
  · simp [key, mem_values?_addPair h, classes_iff named]

theorem addValues_of_mem {key v : String} {vs : List String}
    {entries : List (String × List String)} (found : entries.lookup key = some vs) (hv : v ∈ vs)
    (sorted : ∀ e ∈ entries, e.2.Pairwise (· < ·))
    (keys : entries.Pairwise fun d e => d.1 < e.1) : addValues key [v] entries = entries := by
  induction entries with
  | nil => cases found
  | cons e entries ih =>
    obtain ⟨inner, below⟩ := List.forall_mem_cons.mp sorted
    obtain ⟨first, rest⟩ := List.pairwise_cons.mp keys
    rw [lookup_cons] at found
    rw [addValues]
    by_cases here : key = e.1
    · rw [if_pos here] at found
      have values : e.2 = vs := Option.some.inj found
      have kept : SortedSet.insertAll [v] e.2 = e.2 :=
        SortedSet.insert_of_mem inner (values ▸ hv)
      rw [if_neg (by rw [here]; exact lt_irrefl _), if_pos here, kept]
    · rw [if_neg here] at found
      have behind : e.1 < key := by
        obtain ⟨before, after, split, -⟩ := List.lookup_eq_some_iff.mp found
        exact first (key, vs) (by simp [split])
      rw [if_neg (lt_asymm behind), if_neg here, ih found below rest]

theorem addPair_of_has {set : AttributeSet} (h : Sound set) {p : Pair} (named : p.1 ≠ "")
    {w : String} (words : wordsOf p = [w]) (has : set.Has p.1 w) : set.addPair p = set := by
  unfold Has at has
  by_cases key : p.1 ∈ classKeys
  · rw [if_pos key] at has
    have kept : SortedSet.insertAll [w] set.classes = set.classes :=
      SortedSet.insert_of_mem h.sorted has
    rw [addPair_classes ((classes_iff named).mpr key), words, kept]
  · rw [if_neg key] at has
    have sorted : ∀ e ∈ set.keyed, e.2.Pairwise (· < ·) := fun e he => (h.entries e he).sorted
    have keyed : ¬ Classes p := fun classes => key ((classes_iff named).mp classes)
    rw [addPair_keyed keyed, words]
    cases found : set.values? p.1 with
    | none =>
      rw [found] at has
      cases has
    | some vs =>
      rw [found] at has
      rw [addValues_of_mem found has sorted h.keys]

/-- Two words of a key leave the same only where both are there already. -/
theorem addPair_eq_iff {set : AttributeSet} (h : Sound set) {p q : Pair} (named : p.1 ≠ "")
    (key : q.1 = p.1) {v w : String} (first : wordsOf p = [v]) (second : wordsOf q = [w])
    (other : v ≠ w) : set.addPair p = set.addPair q ↔ set.Has p.1 v ∧ set.Has p.1 w := by
  have afterFirst (u : String) := has_addPair h named u
  have afterSecond (u : String) := has_addPair h (p := q) (key ▸ named) u
  rw [first] at afterFirst
  rw [key, second] at afterSecond
  simp only [List.mem_singleton] at afterFirst afterSecond
  constructor
  · intro same
    have left : (set.addPair q).Has p.1 v := same ▸ (afterFirst v).mpr (.inr rfl)
    have right : (set.addPair p).Has p.1 w := same ▸ (afterSecond w).mpr (.inr rfl)
    exact ⟨((afterSecond v).mp left).resolve_right other,
      ((afterFirst w).mp right).resolve_right other.symm⟩
  · rintro ⟨hv, hw⟩
    rw [addPair_of_has h named first hv, addPair_of_has h (key ▸ named) second (key ▸ hw)]

theorem mem_keyPairs {key : String} {values : List String} {p : String × String} :
    p ∈ keyPairs key values ↔ p.1 = key ∧ (p.2 ∈ values ∨ p.2 = "" ∧ values = []) := by
  cases values <;> grind [keyPairs]

theorem mem_pairs {set : AttributeSet} {p : String × String} :
    p ∈ set.pairs ↔ p.1 = "" ∧ p.2 ∈ set.classes ∨
      ∃ values, (p.1, values) ∈ set.keyed ∧ (p.2 ∈ values ∨ p.2 = "" ∧ values = []) := by
  rw [pairs, List.mem_append, List.mem_map, List.mem_flatMap]
  refine or_congr ⟨?_, ?_⟩ ⟨?_, ?_⟩
  · rintro ⟨c, hc, rfl⟩
    exact ⟨rfl, hc⟩
  · rintro ⟨key, hc⟩
    exact ⟨p.2, hc, by rw [← key]⟩
  · rintro ⟨⟨key, values⟩, he, hp⟩
    obtain ⟨rfl, known⟩ := mem_keyPairs.mp hp
    exact ⟨values, he, known⟩
  · rintro ⟨values, he, known⟩
    exact ⟨(p.1, values), he, mem_keyPairs.mpr ⟨rfl, known⟩⟩

/-- The code point order of pairs, by the key and then by the value. -/
def Precedes (p q : String × String) : Prop := p.1 < q.1 ∨ p.1 = q.1 ∧ p.2 < q.2

theorem pairwise_keyPairs (key : String) {values : List String} (h : values.Pairwise (· < ·)) :
    (keyPairs key values).Pairwise Precedes := by
  rw [keyPairs]
  split
  · exact List.pairwise_singleton _ _
  · exact List.pairwise_map.mpr (h.imp fun before => .inr ⟨rfl, before⟩)

theorem empty_lt {s : String} (filled : s ≠ "") : "" < s := by
  have chars : s.toList ≠ [] := fun none => filled (String.toList_injective none)
  obtain ⟨c, cs, cons⟩ := List.exists_cons_of_ne_nil chars
  rw [String.lt_iff, cons]
  exact .nil

namespace Sound

variable {set : AttributeSet} (h : Sound set)

include h

theorem pairwise_pairs : set.pairs.Pairwise Precedes := by
  rw [pairs, List.pairwise_append, List.pairwise_map, List.pairwise_flatMap]
  refine ⟨h.sorted.imp fun before => .inr ⟨rfl, before⟩,
    ⟨fun e he => pairwise_keyPairs e.1 (h.entries e he).sorted, ?_⟩, ?_⟩
  · refine h.keys.imp fun before p hp q hq => ?_
    rw [Precedes, (mem_keyPairs.mp hp).1, (mem_keyPairs.mp hq).1]
    exact .inl before
  · intro p hp q hq
    obtain ⟨c, -, rfl⟩ := List.mem_map.mp hp
    obtain ⟨e, he, hq⟩ := List.mem_flatMap.mp hq
    rw [Precedes, (mem_keyPairs.mp hq).1]
    exact .inl (empty_lt (h.entries e he).filled)

theorem values?_eq_some {key : String} {values : List String} :
    set.values? key = some values ↔ (key, values) ∈ set.keyed := by
  rw [values?, List.lookup_eq_some_iff]
  constructor
  · rintro ⟨before, after, split, -⟩
    rw [split]
    exact List.mem_append_right before List.mem_cons_self
  · intro he
    obtain ⟨before, after, split⟩ := List.append_of_mem he
    refine ⟨before, after, split, fun e hb => ?_⟩
    have keys := h.keys
    rw [split, List.pairwise_append] at keys
    simpa using (keys.2.2 e hb _ List.mem_cons_self).ne'

theorem mem_classes {c : String} : c ∈ set.classes ↔ ("", c) ∈ set.pairs := by
  rw [mem_pairs]
  refine ⟨fun hc => .inl ⟨rfl, hc⟩, ?_⟩
  rintro (⟨-, hc⟩ | ⟨values, he, -⟩)
  · exact hc
  · exact absurd rfl (h.entries _ he).filled

/-- The values of a key are known from the pairs, and so is that it has none. -/
theorem mem_keyed {key : String} {values : List String} :
    (key, values) ∈ set.keyed ↔ key ≠ "" ∧ (∃ v, (key, v) ∈ set.pairs) ∧
      values.Pairwise (· < ·) ∧ ∀ v, v ∈ values ↔ (key, v) ∈ set.pairs ∧ v ≠ "" := by
  have known {vs : List String} (he : (key, vs) ∈ set.keyed) (v : String) :
      v ∈ vs ↔ (key, v) ∈ set.pairs ∧ v ≠ "" := by
    have entry := h.entries _ he
    refine ⟨fun hv => ⟨mem_pairs.mpr (.inr ⟨vs, he, .inl hv⟩), (entry.words v hv).1⟩, ?_⟩
    rintro ⟨hp, filled⟩
    rcases mem_pairs.mp hp with ⟨void, -⟩ | ⟨us, hu, hv⟩
    · exact absurd void entry.filled
    · have same := (h.values?_eq_some.mpr hu).symm.trans (h.values?_eq_some.mpr he)
      obtain rfl := Option.some.inj same
      exact hv.resolve_right fun void => filled void.1
  constructor
  · intro he
    have some_pair : ∃ v, (key, v) ∈ set.pairs := by
      cases values with
      | nil => exact ⟨"", mem_pairs.mpr (.inr ⟨[], he, .inr ⟨rfl, rfl⟩⟩)⟩
      | cons v vs => exact ⟨v, mem_pairs.mpr (.inr ⟨_, he, .inl List.mem_cons_self⟩)⟩
    exact ⟨(h.entries _ he).filled, some_pair, (h.entries _ he).sorted, known he⟩
  · rintro ⟨filled, ⟨v, hp⟩, sorted, members⟩
    rcases mem_pairs.mp hp with ⟨void, -⟩ | ⟨vs, he, -⟩
    · exact absurd void filled
    · have same : vs = values := List.Pairwise.eq_of_mem_iff (h.entries _ he).sorted sorted
        fun w => (known he w).trans (members w).symm
      exact same ▸ he

theorem mem_pairs_empty {key : String} : (key, "") ∈ set.pairs ↔ set.values? key = some [] := by
  rw [mem_pairs, h.values?_eq_some]
  constructor
  · rintro (⟨-, hc⟩ | ⟨values, he, hv | ⟨-, rfl⟩⟩)
    · exact absurd rfl (h.words _ hc).1
    · exact absurd rfl ((h.entries _ he).words _ hv).1
    · exact he
  · exact fun he => .inr ⟨[], he, .inr ⟨rfl, rfl⟩⟩

/-- The pairs tell the set. -/
theorem eq_of_pairs {other : AttributeSet} (h' : Sound other) (same : set.pairs = other.pairs) :
    set = other := by
  have classes : set.classes = other.classes :=
    List.Pairwise.eq_of_mem_iff h.sorted h'.sorted fun c => by
      rw [h.mem_classes, h'.mem_classes, same]
  have keyed : set.keyed = other.keyed := by
    have members : ∀ e, e ∈ set.keyed ↔ e ∈ other.keyed := fun e => by
      rw [h.mem_keyed, h'.mem_keyed, same]
    have different {entries : List (String × List String)}
        (sorted : entries.Pairwise fun d e => d.1 < e.1) : entries.Nodup :=
      sorted.imp fun before equal => absurd (equal ▸ before) (lt_irrefl _)
    refine ((List.perm_ext_iff_of_nodup (different h.keys) (different h'.keys)).mpr
      members).eq_of_pairwise (fun d e _ _ before behind => ?_) h.keys h'.keys
    exact absurd (before.trans behind) (lt_irrefl _)
  cases set
  cases other
  simp_all

end Sound

/-- Whatever is recorded, the words and the keys are not empty, the pairs are in order with the
classes first, a key without values shows by the empty value, and the pairs tell the set. -/
theorem recorded_reading (calls : List Call) :
    let set := recorded calls
    (∀ c ∈ set.classes, IsWord c) ∧
      (∀ e ∈ set.keyed, e.1 ≠ "" ∧ e.1 ≠ "class" ∧ e.1 ≠ "$class" ∧ (∀ v ∈ e.2, IsWord v) ∧
        ∃ v, (e.1, v) ∈ set.pairs) ∧
      set.pairs.Pairwise Precedes ∧
      (∃ keyed, set.pairs = set.classes.map (fun c => ("", c)) ++ keyed ∧ ∀ p ∈ keyed, p.1 ≠ "") ∧
      (∀ key, (key, "") ∈ set.pairs ↔ set.values? key = some []) ∧
      (∀ key v, v ≠ "" → ((key, v) ∈ set.pairs ↔
        key = "" ∧ v ∈ set.classes ∨ ∃ values, set.values? key = some values ∧ v ∈ values)) ∧
      ∀ others, (recorded others).pairs = set.pairs ↔ recorded others = set := by
  intro set
  have sound : Sound set := sound_recorded calls
  refine ⟨sound.words, fun e he => ?_, sound.pairwise_pairs, ⟨_, rfl, fun p hp => ?_⟩,
    fun key => sound.mem_pairs_empty, fun key v filled => ?_, fun others => ?_⟩
  · have entry := sound.entries e he
    have key : e.1 ≠ "class" ∧ e.1 ≠ "$class" := by simpa [classKeys] using entry.unclassed
    exact ⟨entry.filled, key.1, key.2, entry.words, (sound.mem_keyed.mp he).2.1⟩
  · obtain ⟨e, he, hp⟩ := List.mem_flatMap.mp hp
    rw [(mem_keyPairs.mp hp).1]
    exact (sound.entries e he).filled
  · simp only [mem_pairs, sound.values?_eq_some, filled, false_and, or_false]
  · exact ⟨(sound_recorded others).eq_of_pairs sound, fun same => by rw [same]⟩

/-- A key of classes may be empty, in short or written out, and a value may be missing. -/
theorem recorded_reading_in_order :
    let calls : List Call := [.pair "$class" (some "'b  a'"), .literal "flex =c bg=red"]
    let others : List Call := [.literal "bg=red flex=", .pair "class" (some "c a b")]
    let set := recorded calls
    (("bg", ["red"]) ∈ set.keyed ∧ "b" ∈ set.classes ∧ "red" ≠ "") ∧
      set.pairs = [("", "a"), ("", "b"), ("", "c"), ("bg", "red"), ("flex", "")] ∧
      IsWord "b" ∧ "bg" ≠ "$class" ∧ ("bg", "red") ∈ set.pairs ∧ set.values? "flex" = some [] ∧
      recorded others = set := by
  intro calls others set
  have known : ("bg", ["red"]) ∈ set.keyed ∧ "b" ∈ set.classes := by decide +kernel
  have pairs : set.pairs = [("", "a"), ("", "b"), ("", "c"), ("bg", "red"), ("flex", "")] := by
    decide +kernel
  have same : (recorded others).pairs = set.pairs := by decide +kernel
  obtain ⟨words, entries, -, -, lone, members, tell⟩ := recorded_reading calls
  refine ⟨⟨known.1, known.2, by decide⟩, pairs, words _ known.2, (entries _ known.1).2.2.1, ?_, ?_,
    (tell others).mp same⟩
  · exact (members "bg" "red" (by decide)).mpr (.inr ⟨["red"], by decide +kernel, by decide⟩)
  · exact (lone "flex").mp (by rw [show (recorded calls).pairs = _ from pairs]; decide)

end AttributeSet
end Utility
end HybridTemplate
