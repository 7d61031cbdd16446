import HybridTemplate.Text.Blank
import HybridTemplate.Text.CaseVariants
import HybridTemplate.Text.WordChar

set_option autoImplicit false

/-! A set of characters is kept as ranges of code points in increasing order, any two of them with
a gap between. A set has one such form only, so equal sets are equal values. -/
namespace HybridTemplate.Text

def covered (rs : List (Nat × Nat)) (n : Nat) : Bool := rs.any fun r => r.1 ≤ n && n ≤ r.2

structure InOrder (rs : List (Nat × Nat)) : Prop where
  bounds : ∀ r ∈ rs, r.1 ≤ r.2
  sorted : rs.Pairwise fun r s => r.1 ≤ s.1

/-- Ranges in order, with a gap between any two of them. -/
structure Apart (rs : List (Nat × Nat)) : Prop where
  bounds : ∀ r ∈ rs, r.1 ≤ r.2
  gaps : rs.Pairwise fun r s => r.2 + 1 < s.1

namespace CharSet

def lastCode : Nat := 0x10FFFF

/-- The range and those behind it, with ranges that overlap or touch made one. -/
def joined (r : Nat × Nat) : List (Nat × Nat) → List (Nat × Nat)
  | [] => [r]
  | s :: rs =>
    if s.1 ≤ r.2 + 1 then joined (r.1, max r.2 s.2) rs else r :: joined s rs

theorem joined_spec {r : Nat × Nat} {rs : List (Nat × Nat)} (h : InOrder (r :: rs)) :
    Apart (joined r rs) ∧ (∀ s ∈ joined r rs, r.1 ≤ s.1) ∧
      ∀ n, covered (joined r rs) n = covered (r :: rs) n := by
  induction rs generalizing r with
  | nil => exact ⟨⟨h.bounds, List.pairwise_singleton _ _⟩, by simp [joined], fun _ => rfl⟩
  | cons s rs ih =>
    obtain ⟨⟨hr, bounds⟩, first, sorted⟩ :=
      And.intro (List.forall_mem_cons.mp h.bounds) (List.pairwise_cons.mp h.sorted)
    have hs := bounds s List.mem_cons_self
    have rs_le := first s List.mem_cons_self
    rw [joined]
    split
    · rename_i touches
      have one : InOrder ((r.1, max r.2 s.2) :: rs) := by
        refine ⟨List.forall_mem_cons.mpr ⟨?_, fun t ht => bounds t (List.mem_cons_of_mem s ht)⟩,
          List.pairwise_cons.mpr ⟨fun t ht => first t (List.mem_cons_of_mem s ht), sorted.tail⟩⟩
        dsimp only
        omega
      obtain ⟨apart, behind, same⟩ := ih one
      refine ⟨apart, behind, fun n => (same n).trans ?_⟩
      rw [covered, covered, List.any_cons, List.any_cons, List.any_cons, ← Bool.or_assoc]
      congr 1
      rw [Bool.eq_iff_iff]
      simp only [Bool.or_eq_true, Bool.and_eq_true, decide_eq_true_eq]
      omega
    · rename_i gap
      obtain ⟨apart, behind, same⟩ := ih ⟨bounds, sorted⟩
      refine ⟨⟨List.forall_mem_cons.mpr ⟨hr, apart.bounds⟩,
        List.pairwise_cons.mpr ⟨fun t ht => ?_, apart.gaps⟩⟩,
        List.forall_mem_cons.mpr ⟨Nat.le_refl _, fun t ht => Nat.le_trans rs_le (behind t ht)⟩,
        fun n => ?_⟩
      · have := behind t ht
        omega
      · rw [covered, List.any_cons]
        exact congrArg _ (same n)

def joinAll : List (Nat × Nat) → List (Nat × Nat)
  | [] => []
  | r :: rs => joined r rs

theorem apart_joinAll {rs : List (Nat × Nat)} (h : InOrder rs) : Apart (joinAll rs) := by
  cases rs with
  | nil => exact ⟨h.bounds, List.Pairwise.nil⟩
  | cons r rs => exact (joined_spec h).1

theorem covered_joinAll {rs : List (Nat × Nat)} (h : InOrder rs) (n : Nat) :
    covered (joinAll rs) n = covered rs n := by
  cases rs with
  | nil => rfl
  | cons r rs => exact (joined_spec h).2.2 n

def mergeFrom (r : Nat × Nat) (rs : List (Nat × Nat))
    (rest : List (Nat × Nat) → List (Nat × Nat)) : List (Nat × Nat) → List (Nat × Nat)
  | [] => r :: rs
  | t :: ts => if r.1 ≤ t.1 then r :: rest (t :: ts) else t :: mergeFrom r rs rest ts

def merge : List (Nat × Nat) → List (Nat × Nat) → List (Nat × Nat)
  | [], ts => ts
  | r :: rs, ts => mergeFrom r rs (merge rs) ts

theorem merge_eq (rs ts : List (Nat × Nat)) :
    merge rs ts = rs.merge ts fun r t => r.1 ≤ t.1 := by
  induction rs generalizing ts with
  | nil => simp [merge]
  | cons r rs ih =>
    rw [merge]
    induction ts with
    | nil => simp [mergeFrom]
    | cons t ts within =>
      rw [mergeFrom, List.cons_merge_cons, ih, within]
      simp only [decide_eq_true_eq]

theorem inOrder_merge {rs ts : List (Nat × Nat)} (hr : InOrder rs) (ht : InOrder ts) :
    InOrder (merge rs ts) := by
  rw [merge_eq]
  constructor
  · intro r mem
    exact (List.mem_merge.mp mem).elim (hr.bounds r) (ht.bounds r)
  · let before (r t : Nat × Nat) : Bool := r.1 ≤ t.1
    have ordered : (rs.merge ts before).Pairwise fun r t => before r t = true :=
      List.pairwise_merge (fun a b c => by simpa [before] using Nat.le_trans)
        (fun a b => by simpa [before] using Nat.le_total a.1 b.1) rs ts
        (by simpa [before] using hr.sorted) (by simpa [before] using ht.sorted)
    simpa [before] using ordered

theorem covered_merge (rs ts : List (Nat × Nat)) (n : Nat) :
    covered (merge rs ts) n = (covered rs n || covered ts n) := by
  rw [merge_eq, covered, covered, covered, ← List.any_append, Bool.eq_iff_iff]
  simp only [List.any_eq_true, List.mem_merge, List.mem_append]

def gaps (n : Nat) : List (Nat × Nat) → List (Nat × Nat)
  | [] => if n ≤ lastCode then [(n, lastCode)] else []
  | (first, last) :: rs =>
    if n < first then (n, first - 1) :: gaps (last + 1) rs else gaps (last + 1) rs

theorem le_of_covered {rs : List (Nat × Nat)} {k m : Nat} (h : ∀ r ∈ rs, k ≤ r.1)
    (hm : covered rs m = true) : k ≤ m := by
  obtain ⟨r, hr, inside⟩ := List.any_eq_true.mp hm
  have := h r hr
  simp only [Bool.and_eq_true, decide_eq_true_eq] at inside
  omega

theorem gaps_spec {rs : List (Nat × Nat)} (h : Apart rs) {n : Nat} (behind : ∀ r ∈ rs, n ≤ r.1) :
    Apart (gaps n rs) ∧ (∀ r ∈ gaps n rs, n ≤ r.1) ∧
      ∀ m ≤ lastCode, (covered (gaps n rs) m = true ↔ n ≤ m ∧ covered rs m = false) := by
  induction rs generalizing n with
  | nil =>
    rw [gaps]
    split
    · rename_i here
      refine ⟨⟨by simpa using here, List.pairwise_singleton _ _⟩, by simp, fun m hm => ?_⟩
      simp [covered, hm]
    · refine ⟨⟨by simp, List.Pairwise.nil⟩, by simp, fun m hm => ?_⟩
      simp only [covered, List.any_nil, Bool.false_eq_true, false_iff]
      omega
  | cons r rs ih =>
    obtain ⟨first, last⟩ := r
    obtain ⟨⟨hr, bounds⟩, next, apart⟩ :=
      And.intro (List.forall_mem_cons.mp h.bounds) (List.pairwise_cons.mp h.gaps)
    have start := behind _ List.mem_cons_self
    have later : ∀ r ∈ rs, last + 1 ≤ r.1 := fun r hr => Nat.le_of_lt (next r hr)
    obtain ⟨ihApart, ihBehind, ihSame⟩ := ih ⟨bounds, apart⟩ later
    have same (m : Nat) : covered ((first, last) :: rs) m = false ↔
        ¬ (first ≤ m ∧ m ≤ last) ∧ covered rs m = false := by
      rw [covered, List.any_cons, ← covered]
      simp
    have far (m : Nat) (near : m ≤ last) : covered rs m = false := by
      refine Bool.eq_false_iff.mpr fun inside => ?_
      have := le_of_covered later inside
      omega
    dsimp only at hr start
    rw [gaps]
    split
    · rename_i gap
      refine ⟨⟨List.forall_mem_cons.mpr ⟨Nat.le_sub_one_of_lt gap, ihApart.bounds⟩,
        List.pairwise_cons.mpr ⟨fun t ht => ?_, ihApart.gaps⟩⟩,
        List.forall_mem_cons.mpr ⟨Nat.le_refl n, fun t ht => ?_⟩, fun m hm => ?_⟩
      · have := ihBehind t ht
        dsimp only
        omega
      · have := ihBehind t ht
        omega
      · rw [covered, List.any_cons, ← covered, Bool.or_eq_true, ihSame m hm, same]
        have := far m
        simp only [Bool.and_eq_true, decide_eq_true_eq]
        grind
    · refine ⟨ihApart, fun t ht => ?_, fun m hm => ?_⟩
      · have := ihBehind t ht
        omega
      · rw [ihSame m hm, same]
        have := far m
        grind

end CharSet

structure CharSet where
  ranges : List (Nat × Nat)
  apart : Apart ranges
deriving Repr

namespace CharSet

instance : BEq CharSet := ⟨fun s t => s.ranges == t.ranges⟩

instance : LawfulBEq CharSet where
  rfl {s} := beq_self_eq_true s.ranges
  eq_of_beq {s t} h := by
    have same : s.ranges = t.ranges := eq_of_beq h
    cases s
    congr

def hasCode (s : CharSet) (n : Nat) : Bool := covered s.ranges n

def has (s : CharSet) (c : Char) : Bool := s.hasCode c.toNat

theorem inOrder (s : CharSet) : InOrder s.ranges := by
  refine ⟨s.apart.bounds, s.apart.gaps.imp_of_mem fun hr _ gap => ?_⟩
  have := s.apart.bounds _ hr
  omega

def ofSorted (rs : List (Nat × Nat)) (h : InOrder rs) : CharSet := ⟨joinAll rs, apart_joinAll h⟩

theorem hasCode_ofSorted {rs : List (Nat × Nat)} (h : InOrder rs) (n : Nat) :
    (ofSorted rs h).hasCode n = covered rs n := covered_joinAll h n

def sorted : List (Nat × Nat) → List (Nat × Nat)
  | [] => []
  | r :: rs => if r.1 ≤ r.2 then merge [r] (sorted rs) else sorted rs

theorem inOrder_sorted (rs : List (Nat × Nat)) : InOrder (sorted rs) := by
  induction rs with
  | nil => exact ⟨by simp [sorted], List.Pairwise.nil⟩
  | cons r rs ih =>
    rw [sorted]
    split
    · rename_i bound
      exact inOrder_merge ⟨by simpa using bound, List.pairwise_singleton _ _⟩ ih
    · exact ih

theorem covered_sorted (rs : List (Nat × Nat)) (n : Nat) :
    covered (sorted rs) n = covered rs n := by
  induction rs with
  | nil => rfl
  | cons r rs ih =>
    have each : covered (r :: rs) n = (decide (r.1 ≤ n) && decide (n ≤ r.2) || covered rs n) := rfl
    rw [sorted, each]
    split
    · rw [covered_merge, ih]
      simp [covered]
    · have : ¬ (r.1 ≤ n ∧ n ≤ r.2) := by omega
      rw [ih, ← Bool.decide_and, decide_eq_false this, Bool.false_or]

def ofRanges (rs : List (Nat × Nat)) : CharSet := ofSorted (sorted rs) (inOrder_sorted rs)

def empty : CharSet := ⟨[], by simp, List.Pairwise.nil⟩

def full : CharSet := ⟨[(0, lastCode)], by simp, List.pairwise_singleton _ _⟩

def between (first last : Char) (h : first ≤ last) : CharSet :=
  ⟨[(first.toNat, last.toNat)], by simpa [Char.le_def, UInt32.le_iff_toNat_le] using h,
    List.pairwise_singleton _ _⟩

def single (c : Char) : CharSet := between c c (Char.le_refl c)

def union (s t : CharSet) : CharSet :=
  ofSorted (merge s.ranges t.ranges) (inOrder_merge s.inOrder t.inOrder)

def complement (s : CharSet) : CharSet :=
  ⟨gaps 0 s.ranges, (gaps_spec s.apart fun r _ => Nat.zero_le r.1).1⟩

def inter (s t : CharSet) : CharSet := (s.complement.union t.complement).complement

def difference (s t : CharSet) : CharSet := s.inter t.complement

def ofChars (cs : List Char) : CharSet := cs.foldl (fun s c => s.union (single c)) empty

def only? (s : CharSet) : Option Char :=
  match s.ranges with
  | [(first, last)] => if first = last then some (Char.ofNat first) else none
  | _ => none

/-- Whether the folding may move a member of the set, or something to one. -/
def meets (s : CharSet) (f : FoldSpan) : Bool :=
  s.ranges.any fun r =>
    r.1 ≤ f.last && f.first ≤ r.2 || r.1 ≤ f.target f.last && f.target f.first ≤ r.2

def foldPairs (s : CharSet) : List (Nat × Nat) :=
  ((foldSpans.filter s.meets).flatMap FoldSpan.pairs).filter fun p => s.hasCode p.1 || s.hasCode p.2

/-- The set with all case variants of its members. -/
def closeCase (s : CharSet) : CharSet :=
  let folded := ofRanges (s.foldPairs.map fun p => (p.2, p.2))
  (s.union folded).union (ofRanges (folded.foldPairs.map fun p => (p.1, p.1)))

def blanks : CharSet := ofRanges blankRanges
def wordChars : CharSet := ofRanges wordRanges
def digits : CharSet := ofRanges digitRanges

theorem toNat_le_lastCode (c : Char) : c.toNat ≤ lastCode := by
  have valid := c.valid
  simp only [UInt32.isValidChar, Nat.isValidChar] at valid
  simp only [lastCode, Char.toNat]
  omega

@[simp] theorem has_ofRanges (rs : List (Nat × Nat)) (c : Char) :
    (ofRanges rs).has c = inRanges rs c :=
  (hasCode_ofSorted _ _).trans (covered_sorted rs c.toNat)

@[simp] theorem has_empty (c : Char) : empty.has c = false := rfl

@[simp] theorem has_full (c : Char) : full.has c = true := by
  simp [has, hasCode, full, covered, toNat_le_lastCode c]

@[simp] theorem has_between {first last : Char} (h : first ≤ last) (c : Char) :
    (between first last h).has c = (decide (first ≤ c) && decide (c ≤ last)) := by
  simp [has, hasCode, between, covered, Char.le_def, UInt32.le_iff_toNat_le]

@[simp] theorem has_single (c d : Char) : (single c).has d = (d == c) := by
  rw [single, has_between, Bool.eq_iff_iff]
  simp only [Bool.and_eq_true, decide_eq_true_eq, beq_iff_eq]
  exact ⟨fun h => Char.le_antisymm h.2 h.1, fun h => h ▸ ⟨Char.le_refl d, Char.le_refl d⟩⟩

@[simp] theorem has_union (s t : CharSet) (c : Char) : (s.union t).has c = (s.has c || t.has c) :=
  (hasCode_ofSorted _ _).trans (covered_merge s.ranges t.ranges c.toNat)

@[simp] theorem has_complement (s : CharSet) (c : Char) : s.complement.has c = !s.has c := by
  have same := (gaps_spec s.apart fun r _ => Nat.zero_le r.1).2.2 c.toNat (toNat_le_lastCode c)
  rw [Bool.eq_iff_iff, Bool.not_eq_true', ← show _ = s.has c from rfl]
  exact same.trans (and_iff_right (Nat.zero_le _))

@[simp] theorem has_ofChars (cs : List Char) (c : Char) : (ofChars cs).has c = cs.contains c := by
  have each (s : CharSet) : (cs.foldl (fun s c => s.union (single c)) s).has c =
      (s.has c || cs.contains c) := by
    induction cs generalizing s with
    | nil => simp
    | cons d cs ih =>
      rw [List.foldl_cons, ih, has_union, has_single, List.contains_cons, Bool.or_assoc]
  exact each empty

end CharSet
end HybridTemplate.Text
