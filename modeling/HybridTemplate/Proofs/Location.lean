import HybridTemplate.Location

set_option autoImplicit false

namespace HybridTemplate.Location

open Text (byteLength)

def next? (count : Nat) : Option UInt32 :=
  let kept := UInt32.ofNat count
  if kept.toNat + 1 < UInt32.size then some (kept + 1) else none

def cut? : List Char → Nat → Option (List Char × List Char)
  | cs, 0 => some ([], cs)
  | [], _ + 1 => none
  | c :: cs, n + 1 =>
    if c.utf8Size ≤ n + 1 then
      (cut? cs (n + 1 - c.utf8Size)).map fun (front, back) => (c :: front, back)
    else none

def lastCut (cs : List Char) : Nat → Nat
  | 0 => 0
  | n + 1 => if (cut? cs (n + 1)).isSome then n + 1 else lastCut cs n

def lastBreak? : List Char → Option Nat
  | [] => none
  | c :: cs =>
    match lastBreak? cs with
    | some n => some (c.utf8Size + n)
    | none => if c = '\n' then some 0 else none

/-- The location of an offset by a search in the text before it; `none` where a cut is not possible
or a count does not fit. -/
def search? (source : String) (offset : Nat) : Option Location := do
  let stop := lastCut source.toList (min offset source.utf8ByteSize)
  let (before, _) ← cut? source.toList stop
  let line ← next? (before.count '\n')
  let (_, row) ← cut? before ((lastBreak? before).elim 0 (· + 1))
  let column ← next? row.length
  return ⟨line, column⟩

theorem next?_eq {count : Nat} (fits : count + 1 < UInt32.size) :
    next? count = some (.ofNat (count + 1)) := by
  have kept : (UInt32.ofNat count).toNat = count := UInt32.toNat_ofNat_of_lt' (by omega)
  rw [next?, kept, if_pos fits, UInt32.ofNat_add]
  rfl

example : next? (UInt32.size - 1) = none := by decide

theorem cut?_append (front back : List Char) :
    cut? (front ++ back) (byteLength front) = some (front, back) := by
  induction front with
  | nil => simp [cut?]
  | cons c front ih =>
    have positive := c.utf8Size_pos
    obtain ⟨n, size⟩ : ∃ n, byteLength (c :: front) = n + 1 :=
      Nat.exists_eq_add_one.mpr (by rw [Text.byteLength_cons]; omega)
    have rest : n + 1 - c.utf8Size = byteLength front := by
      rw [Text.byteLength_cons] at size
      omega
    have fits : c.utf8Size ≤ n + 1 := by
      rw [Text.byteLength_cons] at size
      omega
    rw [size, List.cons_append, cut?, if_pos fits, rest, ih]
    rfl

theorem cut?_eq_some {cs front back : List Char} {n : Nat} :
    cut? cs n = some (front, back) ↔ cs = front ++ back ∧ byteLength front = n := by
  constructor
  · intro h
    fun_induction cut? cs n generalizing front with
    | case1 cs => cases h; exact ⟨rfl, rfl⟩
    | case2 n => cases h
    | case3 n c cs fits ih =>
      obtain ⟨⟨before, behind⟩, found, same⟩ := Option.map_eq_some_iff.mp h
      cases same
      obtain ⟨rfl, size⟩ := ih found
      refine ⟨rfl, ?_⟩
      rw [Text.byteLength_cons]
      omega
    | case4 n c cs tight => cases h
  · rintro ⟨rfl, rfl⟩
    exact cut?_append front back

def IsBoundary (source : String) (n : Nat) : Prop :=
  ∃ front back : String, source = front ++ back ∧ front.utf8ByteSize = n

theorem isBoundary_iff {source : String} {n : Nat} :
    IsBoundary source n ↔ ∃ front back, source.toList = front ++ back ∧ byteLength front = n := by
  constructor
  · rintro ⟨front, back, rfl, size⟩
    exact ⟨front.toList, back.toList, String.toList_append, by rw [Text.byteLength_toList, size]⟩
  · rintro ⟨front, back, split, size⟩
    refine ⟨String.ofList front, String.ofList back, ?_, ?_⟩
    · rw [← String.ofList_append, ← split, String.ofList_toList]
    · rw [← Text.byteLength_toList, String.toList_ofList, size]

theorem isSome_cut?_iff {source : String} {n : Nat} :
    (cut? source.toList n).isSome ↔ IsBoundary source n := by
  rw [isBoundary_iff, Option.isSome_iff_exists]
  simp only [Prod.exists, cut?_eq_some]

/-- The last boundary up to an offset. -/
structure IsLastBoundary (source : String) (offset n : Nat) : Prop where
  boundary : IsBoundary source n
  le : n ≤ offset
  last : ∀ m, IsBoundary source m → m ≤ offset → m ≤ n

theorem isLastBoundary_lastCut (source : String) (offset : Nat) :
    IsLastBoundary source offset (lastCut source.toList offset) := by
  induction offset with
  | zero => exact ⟨isSome_cut?_iff.mp (by simp [lastCut, cut?]), Nat.le_refl 0, fun _ _ le => le⟩
  | succ n ih =>
    rw [lastCut]
    split
    · rename_i here
      exact ⟨isSome_cut?_iff.mp here, Nat.le_refl _, fun _ _ le => le⟩
    · rename_i inside
      refine ⟨ih.boundary, Nat.le_succ_of_le ih.le, fun m boundary le => ?_⟩
      have other : m ≠ n + 1 := fun same => inside (isSome_cut?_iff.mpr (same ▸ boundary))
      exact ih.last m boundary (by omega)

theorem IsBoundary.le_size {source : String} {n : Nat} (h : IsBoundary source n) :
    n ≤ source.utf8ByteSize := by
  obtain ⟨front, back, rfl, rfl⟩ := h
  rw [String.utf8ByteSize_append]
  omega

theorem IsLastBoundary.of_min {source : String} {offset n : Nat}
    (h : IsLastBoundary source (min offset source.utf8ByteSize) n) :
    IsLastBoundary source offset n where
  boundary := h.boundary
  le := Nat.le_trans h.le (Nat.min_le_left _ _)
  last := fun m boundary le => h.last m boundary (Nat.le_min.mpr ⟨le, boundary.le_size⟩)

theorem IsLastBoundary.unique {source : String} {offset m n : Nat}
    (h : IsLastBoundary source offset m) (k : IsLastBoundary source offset n) : m = n :=
  Nat.le_antisymm (k.last m h.boundary h.le) (h.last n k.boundary k.le)

theorem IsBoundary.isLastBoundary {source : String} {n : Nat} (h : IsBoundary source n) :
    IsLastBoundary source n n :=
  ⟨h, Nat.le_refl n, fun _ _ le => le⟩

/-- Passing whole characters as long as they fit ends at the last boundary. -/
theorem advance_eq_foldl {source : String} {front back : List Char} {offset : Nat} (l : Location)
    (split : source.toList = front ++ back)
    (last : IsLastBoundary source offset (byteLength front)) :
    l.advance source.toList offset = front.foldl after l := by
  obtain ⟨more, rfl⟩ : ∃ more, offset = byteLength front + more := Nat.exists_eq_add_of_le last.le
  rw [split, advance_append]
  cases back with
  | nil => rfl
  | cons c back =>
    rw [advance_cons, if_neg]
    intro fits
    have next : IsBoundary source (byteLength (front ++ [c])) :=
      isBoundary_iff.mpr ⟨front ++ [c], back, by simp [split], rfl⟩
    have beyond := last.last _ next (by simp; omega)
    have positive := c.utf8Size_pos
    simp at beyond
    omega

def broken (rows : List (List Char)) : List Char := rows.flatMap (· ++ ['\n'])

/-- Every text is made of rows with line breaks and a last row without one. -/
theorem exists_rows (cs : List Char) :
    ∃ rows row, cs = broken rows ++ row ∧ (∀ r ∈ rows, '\n' ∉ r) ∧ '\n' ∉ row := by
  induction cs with
  | nil => exact ⟨[], [], rfl, fun _ => nofun, nofun⟩
  | cons c cs ih =>
    obtain ⟨rows, row, rfl, inner, last⟩ := ih
    by_cases ends : c = '\n'
    · subst ends
      exact ⟨[] :: rows, row, rfl, List.forall_mem_cons.mpr ⟨nofun, inner⟩, last⟩
    · have longer {r : List Char} (h : '\n' ∉ r) : '\n' ∉ c :: r := by
        simp [h, Ne.symm ends]
      cases rows with
      | nil => exact ⟨[], c :: row, rfl, fun _ => nofun, longer last⟩
      | cons r rows =>
        obtain ⟨first, inner⟩ := List.forall_mem_cons.mp inner
        exact ⟨(c :: r) :: rows, row, rfl, List.forall_mem_cons.mpr ⟨longer first, inner⟩, last⟩

def behind (lines characters : Nat) : Location := ⟨.ofNat (lines + 1), .ofNat (characters + 1)⟩

theorem behind_after_break (lines characters : Nat) :
    (behind lines characters).after '\n' = behind (lines + 1) 0 := by
  rw [after, if_pos rfl, behind, behind, UInt32.ofNat_add (lines + 1)]
  rfl

theorem behind_after {c : Char} (other : c ≠ '\n') (lines characters : Nat) :
    (behind lines characters).after c = behind lines (characters + 1) := by
  rw [after, if_neg other, behind, behind, UInt32.ofNat_add (characters + 1)]
  rfl

theorem foldl_after_row {row : List Char} (unbroken : '\n' ∉ row) (lines characters : Nat) :
    row.foldl after (behind lines characters) = behind lines (characters + row.length) := by
  induction row generalizing characters with
  | nil => rfl
  | cons c row ih =>
    rw [List.mem_cons, not_or] at unbroken
    rw [List.foldl_cons, behind_after (Ne.symm unbroken.1), ih unbroken.2, List.length_cons,
      Nat.add_right_comm, Nat.add_assoc]

theorem broken_cons (row : List Char) (rows : List (List Char)) :
    broken (row :: rows) = row ++ '\n' :: broken rows := by simp [broken]

section

variable {rows : List (List Char)} (inner : ∀ r ∈ rows, '\n' ∉ r)

include inner

theorem foldl_after_broken (lines : Nat) :
    (broken rows).foldl after (behind lines 0) = behind (lines + rows.length) 0 := by
  induction rows generalizing lines with
  | nil => rfl
  | cons r rows ih =>
    obtain ⟨first, inner⟩ := List.forall_mem_cons.mp inner
    rw [broken_cons, List.foldl_append, foldl_after_row first, List.foldl_cons, behind_after_break,
      ih inner, List.length_cons, Nat.add_right_comm, Nat.add_assoc]

theorem count_broken : (broken rows).count '\n' = rows.length := by
  induction rows with
  | nil => rfl
  | cons r rows ih =>
    obtain ⟨first, inner⟩ := List.forall_mem_cons.mp inner
    rw [broken_cons, List.count_append, List.count_eq_zero_of_not_mem first, List.count_cons_self,
      ih inner, List.length_cons, Nat.zero_add]

theorem splitOn_broken (cs : List Char) :
    (broken rows ++ cs).splitOn '\n' = rows ++ cs.splitOn '\n' := by
  induction rows with
  | nil => rfl
  | cons r rows ih =>
    obtain ⟨first, inner⟩ := List.forall_mem_cons.mp inner
    rw [broken_cons, List.append_assoc, List.cons_append,
      List.splitOn_append_cons_self_of_not_mem first, ih inner, List.cons_append]

variable {row : List Char} (unbroken : '\n' ∉ row)

include unbroken

theorem foldl_after_rows :
    (broken rows ++ row).foldl after first = behind rows.length row.length := by
  have start : first = behind 0 0 := rfl
  rw [List.foldl_append, start, foldl_after_broken inner, foldl_after_row unbroken,
    Nat.zero_add, Nat.zero_add]

end

theorem lastBreak?_eq_none {row : List Char} (unbroken : '\n' ∉ row) : lastBreak? row = none := by
  induction row with
  | nil => rfl
  | cons c row ih =>
    rw [List.mem_cons, not_or] at unbroken
    rw [lastBreak?, ih unbroken.2]
    exact if_neg (Ne.symm unbroken.1)

theorem lastBreak?_append {cs ds : List Char} {n : Nat} (h : lastBreak? ds = some n) :
    lastBreak? (cs ++ ds) = some (byteLength cs + n) := by
  induction cs with
  | nil => simpa using h
  | cons c cs ih =>
    rw [List.cons_append, lastBreak?, ih, Text.byteLength_cons, Nat.add_assoc]

theorem start_row (rows : List (List Char)) {row : List Char} (unbroken : '\n' ∉ row) :
    (lastBreak? (broken rows ++ row)).elim 0 (· + 1) = byteLength (broken rows) := by
  rcases List.eq_nil_or_concat rows with rfl | ⟨rows, r, rfl⟩
  · rw [broken, List.flatMap_nil, List.nil_append, lastBreak?_eq_none unbroken]
    rfl
  · have split : broken (rows.concat r) = broken rows ++ r ++ ['\n'] := by simp [broken]
    have here : lastBreak? ('\n' :: row) = some 0 := by
      rw [lastBreak?, lastBreak?_eq_none unbroken]
      rfl
    rw [split, List.append_assoc, List.singleton_append, lastBreak?_append here,
      Text.byteLength_append _ ['\n']]
    rfl

theorem ofOffset_rows {source : String} {rows : List (List Char)} {row back : List Char}
    (split : source.toList = broken rows ++ row ++ back) (inner : ∀ r ∈ rows, '\n' ∉ r)
    (unbroken : '\n' ∉ row) :
    IsBoundary source (byteLength (broken rows ++ row)) ∧
      ofOffset source (byteLength (broken rows ++ row)) = behind rows.length row.length := by
  have boundary : IsBoundary source (byteLength (broken rows ++ row)) :=
    isBoundary_iff.mpr ⟨_, back, split, rfl⟩
  refine ⟨boundary, ?_⟩
  rw [ofOffset, advance_eq_foldl first split boundary.isLastBoundary,
    foldl_after_rows inner unbroken]

theorem IsBoundary.exists_rows {source : String} {n : Nat} (h : IsBoundary source n) :
    ∃ rows row back, source.toList = broken rows ++ row ++ back ∧
      byteLength (broken rows ++ row) = n ∧ (∀ r ∈ rows, '\n' ∉ r) ∧ '\n' ∉ row ∧
      ofOffset source n = behind rows.length row.length := by
  obtain ⟨front, back, split, rfl⟩ := isBoundary_iff.mp h
  obtain ⟨rows, row, rfl, inner, unbroken⟩ := Location.exists_rows front
  exact ⟨rows, row, back, split, rfl, inner, unbroken, (ofOffset_rows split inner unbroken).2⟩

theorem ofOffset_eq {source : String} {offset n : Nat} (last : IsLastBoundary source offset n) :
    ofOffset source offset = ofOffset source n := by
  obtain ⟨front, back, split, rfl⟩ := isBoundary_iff.mp last.boundary
  rw [ofOffset, advance_eq_foldl first split last, ofOffset,
    advance_eq_foldl first split last.boundary.isLastBoundary]

theorem length_rows {source : String} {rows : List (List Char)} {row back : List Char}
    (split : source.toList = broken rows ++ row ++ back) (inner : ∀ r ∈ rows, '\n' ∉ r) :
    rows.length ≤ source.length ∧ row.length ≤ source.length := by
  have length : source.length = (broken rows).length + row.length + back.length := by
    rw [← String.length_toList, split, List.length_append, List.length_append]
  have few : rows.length ≤ (broken rows).length := count_broken inner ▸ List.count_le_length
  omega

theorem search?_eq {source : String} (fits : source.length + 1 < UInt32.size) {offset n : Nat}
    (last : IsLastBoundary source offset n) : search? source offset = some (ofOffset source n) := by
  obtain ⟨rows, row, back, split, size, inner, unbroken, location⟩ := last.boundary.exists_rows
  have stop : lastCut source.toList (min offset source.utf8ByteSize) = n :=
    (isLastBoundary_lastCut source _).of_min.unique last
  have cut : cut? source.toList n = some (broken rows ++ row, back) :=
    cut?_eq_some.mpr ⟨split, size⟩
  have lines : (broken rows ++ row).count '\n' = rows.length := by
    rw [List.count_append, count_broken inner, List.count_eq_zero_of_not_mem unbroken, Nat.add_zero]
  obtain ⟨few, short⟩ := length_rows split inner
  have line : next? rows.length = some (.ofNat (rows.length + 1)) := next?_eq (by omega)
  have column : next? row.length = some (.ofNat (row.length + 1)) := next?_eq (by omega)
  rw [location]
  simp only [search?, stop, cut, lines, line, start_row rows unbroken, cut?_append, column,
    Option.bind_eq_bind, Option.bind_some, Option.pure_def, behind]

def Before (l k : Location) : Prop := l.line < k.line ∨ l.line = k.line ∧ l.column < k.column

theorem Before.trans {j k l : Location} (h : j.Before k) (h' : k.Before l) : j.Before l := by
  simp only [Before, UInt32.lt_iff_toNat_lt, ← UInt32.toNat_inj] at *
  omega

theorem Before.irrefl (l : Location) : ¬ l.Before l := by
  simp only [Before, UInt32.lt_iff_toNat_lt]
  omega

structure Admits (l : Location) (n : Nat) : Prop where
  line : l.line.toNat + n < UInt32.size
  column : l.column.toNat + n < UInt32.size

theorem Admits.after {l : Location} {n : Nat} (h : l.Admits (n + 1)) (c : Char) :
    l.Before (l.after c) ∧ (l.after c).Admits n := by
  obtain ⟨line, column⟩ := h
  have fits {count : UInt32} (fits : count.toNat + (n + 1) < UInt32.size) :
      (count + 1).toNat = count.toNat + 1 := by
    have small : count.toNat + 1 < 2 ^ 32 := by
      change _ < UInt32.size
      omega
    rw [UInt32.toNat_add, UInt32.toNat_one, Nat.mod_eq_of_lt small]
  rw [Location.after]
  split
  · refine ⟨.inl ?_, ?_, ?_⟩
    · rw [UInt32.lt_iff_toNat_lt, fits line]
      omega
    · rw [fits line]
      omega
    · change 1 + n < _
      omega
  · refine ⟨.inr ⟨rfl, ?_⟩, ?_, ?_⟩
    · rw [UInt32.lt_iff_toNat_lt, fits column]
      omega
    · exact Nat.lt_of_succ_lt line
    · rw [fits column]
      omega

theorem Admits.foldl {l : Location} {cs : List Char} {n : Nat} (h : l.Admits (cs.length + n)) :
    (cs.foldl Location.after l).Admits n := by
  induction cs generalizing l with
  | nil => simpa using h
  | cons c cs ih =>
    rw [List.length_cons, Nat.add_right_comm] at h
    exact ih (h.after c).2

theorem Admits.before_foldl {l : Location} {cs : List Char} (h : l.Admits cs.length)
    (filled : cs ≠ []) : l.Before (cs.foldl Location.after l) := by
  induction cs generalizing l with
  | nil => exact absurd rfl filled
  | cons c cs ih =>
    obtain ⟨before, rest⟩ := h.after c
    rw [List.foldl_cons]
    by_cases last : cs = []
    · rw [last]
      exact before
    · exact before.trans (ih rest last)

theorem ofOffset_before {source : String} (fits : source.length + 1 < UInt32.size) {m n : Nat}
    (hm : IsBoundary source m) (hn : IsBoundary source n) (lt : m < n) :
    (ofOffset source m).Before (ofOffset source n) := by
  obtain ⟨front, back, split, rfl⟩ := isBoundary_iff.mp hm
  obtain ⟨front', back', split', rfl⟩ := isBoundary_iff.mp hn
  rw [ofOffset, advance_eq_foldl first split hm.isLastBoundary, ofOffset,
    advance_eq_foldl first split' hn.isLastBoundary]
  rcases List.append_eq_append_iff.mp (split.symm.trans split') with
    ⟨between, rfl, -⟩ | ⟨between, rfl, -⟩
  · have filled : between ≠ [] := by
      rintro rfl
      simp at lt
    have length : source.length = front.length + between.length + back'.length := by
      rw [← String.length_toList, split', List.length_append, List.length_append]
    have admits : first.Admits (front.length + between.length) := by
      constructor <;> change 1 + _ < _ <;> omega
    rw [List.foldl_append]
    exact admits.foldl.before_foldl filled
  · rw [Text.byteLength_append] at lt
    omega

theorem ofOffset_before_iff {source : String} (fits : source.length + 1 < UInt32.size) {m n : Nat}
    (hm : IsBoundary source m) (hn : IsBoundary source n) :
    (ofOffset source m).Before (ofOffset source n) ↔ m < n := by
  refine ⟨fun before => Nat.lt_of_not_le fun le => ?_, ofOffset_before fits hm hn⟩
  rcases Nat.eq_or_lt_of_le le with rfl | lt
  · exact Before.irrefl _ before
  · exact Before.irrefl _ (before.trans (ofOffset_before fits hn hm lt))

/-- The offset of a location: its column counts characters in one of the pieces between line
breaks, and its line the pieces. -/
def offset? (source : String) (l : Location) : Option Nat :=
  match l.line.toNat, l.column.toNat with
  | line + 1, column + 1 =>
    let pieces := source.toList.splitOn '\n'
    pieces[line]?.bind fun piece =>
      if column ≤ piece.length then
        some (byteLength (broken (pieces.take line) ++ piece.take column))
      else none
  | _, _ => none

/-- Characters before the first line break belong to the first piece. -/
theorem exists_splitOn_append {row : List Char} (unbroken : '\n' ∉ row) (cs : List Char) :
    ∃ piece more, (row ++ cs).splitOn '\n' = (row ++ piece) :: more := by
  obtain ⟨rows, last, rfl, inner, ends⟩ := exists_rows cs
  have longer {r : List Char} (h : '\n' ∉ r) : '\n' ∉ row ++ r := by
    simp [unbroken, h]
  cases rows with
  | nil => exact ⟨last, [], List.splitOn_eq_singleton (longer ends)⟩
  | cons r rows =>
    have split : row ++ (broken (r :: rows) ++ last) =
        (row ++ r) ++ '\n' :: (broken rows ++ last) := by simp [broken_cons]
    rw [split, List.splitOn_append_cons_self_of_not_mem (longer (inner r List.mem_cons_self))]
    exact ⟨r, _, rfl⟩

theorem offset?_ofOffset {source : String} (fits : source.length + 1 < UInt32.size) {n : Nat}
    (h : IsBoundary source n) : offset? source (ofOffset source n) = some n := by
  obtain ⟨rows, row, back, split, size, inner, unbroken, location⟩ := h.exists_rows
  obtain ⟨lines, characters⟩ := length_rows split inner
  have line : (behind rows.length row.length).line.toNat = rows.length + 1 :=
    UInt32.toNat_ofNat_of_lt' (by omega)
  have column : (behind rows.length row.length).column.toNat = row.length + 1 :=
    UInt32.toNat_ofNat_of_lt' (by omega)
  obtain ⟨piece, more, rest⟩ := exists_splitOn_append unbroken back
  have pieces : source.toList.splitOn '\n' = rows ++ (row ++ piece) :: more := by
    rw [split, List.append_assoc, splitOn_broken inner, rest]
  rw [location, ← size]
  simp [offset?, pieces, line, column]

theorem exists_rest {rows before behind : List (List Char)} {row piece : List Char}
    (split : rows ++ [row] = before ++ piece :: behind) :
    ∃ rest, broken rows ++ row = broken before ++ (piece ++ rest) := by
  rcases List.eq_nil_or_concat behind with rfl | ⟨behind, last, rfl⟩
  · obtain ⟨rfl, same⟩ := List.append_inj' split rfl
    cases same
    exact ⟨[], by rw [List.append_nil]⟩
  · have split' : rows ++ [row] = (before ++ piece :: behind) ++ [last] := by simpa using split
    obtain ⟨rfl, same⟩ := List.append_inj' split' rfl
    cases same
    exact ⟨'\n' :: (broken behind ++ row), by simp [broken]⟩

/-- Whatever a location stands for is a boundary that has this location. -/
theorem exists_of_offset? {source : String} {l : Location} {n : Nat}
    (h : offset? source l = some n) : IsBoundary source n ∧ ofOffset source n = l := by
  obtain ⟨rows, row, text, inner, unbroken⟩ := exists_rows source.toList
  have pieces : source.toList.splitOn '\n' = rows ++ [row] := by
    rw [text, splitOn_broken inner, List.splitOn_eq_singleton unbroken]
  have all : ∀ r ∈ rows ++ [row], '\n' ∉ r :=
    List.forall_mem_append.mpr ⟨inner, List.forall_mem_singleton.mpr unbroken⟩
  simp only [offset?, pieces] at h
  split at h
  · rename_i line column line' column'
    obtain ⟨piece, there, cut⟩ := Option.bind_eq_some_iff.mp h
    obtain ⟨short, size⟩ := Option.ite_none_right_eq_some.mp cut
    obtain ⟨bound, here⟩ := List.getElem?_eq_some_iff.mp there
    have parts : rows ++ [row] =
        (rows ++ [row]).take line ++ piece :: (rows ++ [row]).drop (line + 1) := by
      rw [← here, List.getElem_cons_drop, List.take_append_drop]
    obtain ⟨rest, begun⟩ := exists_rest parts
    have split : source.toList = broken ((rows ++ [row]).take line) ++ piece.take column ++
        (piece.drop column ++ rest) := by
      rw [text, begun, List.append_assoc, ← List.append_assoc (piece.take column),
        List.take_append_drop]
    have found := ofOffset_rows split (fun r hr => all r (List.mem_of_mem_take hr))
      fun ends => all piece (here ▸ List.getElem_mem bound) (List.mem_of_mem_take ends)
    rw [Option.some.inj size, List.length_take_of_le (Nat.le_of_lt bound),
      List.length_take_of_le short, behind, ← Nat.succ_eq_add_one, ← Nat.succ_eq_add_one,
      ← line', ← column', UInt32.ofNat_toNat, UInt32.ofNat_toNat] at found
    exact found
  · cases h

/-- For every offset the search ends with its location, which is that of the last boundary up to
it. Boundaries have their locations in their own order, and just these are led back to them. -/
theorem locations_encode_offsets (source : String) (fits : source.length < UInt32.size - 1) :
    (∀ offset, ∃ n, IsLastBoundary source offset n ∧ ofOffset source offset = ofOffset source n ∧
        search? source offset = some (ofOffset source offset)) ∧
      (∀ m n, IsBoundary source m → IsBoundary source n →
        ((ofOffset source m).Before (ofOffset source n) ↔ m < n) ∧
          (ofOffset source m = ofOffset source n ↔ m = n)) ∧
      ∀ l n, offset? source l = some n ↔ IsBoundary source n ∧ ofOffset source n = l := by
  refine ⟨fun offset => ?_, fun m n hm hn => ⟨ofOffset_before_iff (by omega) hm hn, fun same => ?_,
    fun same => by rw [same]⟩, fun l n => ⟨exists_of_offset?, ?_⟩⟩
  · have last := isLastBoundary_lastCut source offset
    have same := ofOffset_eq last
    exact ⟨_, last, same, same ▸ search?_eq (by omega) last⟩
  · have back := offset?_ofOffset (by omega) hm
    rw [same, offset?_ofOffset (by omega) hn] at back
    exact (Option.some.inj back).symm
  · rintro ⟨boundary, rfl⟩
    exact offset?_ofOffset (by omega) boundary

/-- An offset inside a character stands for the beginning of the character. -/
theorem locations_encode_offsets_of_wide_characters :
    let source := "a\né𝄞b"
    source.length < UInt32.size - 1 ∧
      search? source 6 = some ⟨2, 2⟩ ∧ search? source 100 = some ⟨2, 4⟩ ∧
      offset? source ⟨2, 2⟩ = some 4 ∧
      (ofOffset source 4).Before (ofOffset source 8) := by
  intro source
  have fits : source.length < UInt32.size - 1 := by decide
  obtain ⟨found, ordered, back⟩ := locations_encode_offsets source fits
  have boundary (n : Nat) (h : (cut? source.toList n).isSome) : IsBoundary source n :=
    isSome_cut?_iff.mp h
  refine ⟨fits, ?_, ?_, ?_, ?_⟩
  · obtain ⟨-, -, -, searched⟩ := found 6
    exact searched.trans (congrArg some (by decide))
  · obtain ⟨-, -, -, searched⟩ := found 100
    exact searched.trans (congrArg some (by decide))
  · exact (back _ _).mpr ⟨boundary 4 (by decide), by decide⟩
  · exact ((ordered 4 8 (boundary 4 (by decide)) (boundary 8 (by decide))).1).mpr (by decide)

end HybridTemplate.Location
