import HybridTemplate.Text.Ranges

set_option autoImplicit false

namespace HybridTemplate.Text

def blankRanges : List (Nat × Nat) := [
  (0x9, 0xD), (0x20, 0x20), (0x85, 0x85), (0xA0, 0xA0), (0x1680, 0x1680),
  (0x2000, 0x200A), (0x2028, 0x2029), (0x202F, 0x202F), (0x205F, 0x205F), (0x3000, 0x3000)]

def isBlank (c : Char) : Bool := inRanges blankRanges c

def stripBy (p : Char → Bool) (cs : List Char) : List Char :=
  ((cs.dropWhile p).reverse.dropWhile p).reverse

def trim (s : String) : String := String.ofList (stripBy isBlank s.toList)

def isAllBlank (s : String) : Bool := s.toList.all isBlank

theorem stripBy_of_none {p : Char → Bool} {cs : List Char} (h : ∀ c ∈ cs, p c = false) :
    stripBy p cs = cs := by
  have kept (ds : List Char) (h : ∀ d ∈ ds, p d = false) : ds.dropWhile p = ds := by
    cases ds with
    | nil => rfl
    | cons d ds => exact List.dropWhile_cons_of_neg (by simp [h d List.mem_cons_self])
  rw [stripBy, kept cs h, kept cs.reverse fun d hd => h d (List.mem_reverse.mp hd),
    List.reverse_reverse]

/-- The longest stretches of characters that do not satisfy `p`. -/
def splitBy (p : Char → Bool) : List Char → List (List Char)
  | [] => []
  | c :: cs =>
    if p c then splitBy p cs
    else (c :: cs.takeWhile (fun d => !p d)) :: splitBy p (cs.dropWhile (fun d => !p d))
termination_by cs => cs.length
decreasing_by
  · simp
  · have := (List.dropWhile_sublist (l := cs) fun d => !p d).length_le
    simp only [List.length_cons]
    omega

def words (s : String) : List String := (splitBy isBlank s.toList).map String.ofList

theorem ne_nil_of_mem_splitBy {p : Char → Bool} {cs w : List Char} (h : w ∈ splitBy p cs) :
    w ≠ [] := by
  fun_induction splitBy p cs with
  | case1 => simp at h
  | case2 c cs hc ih => exact ih h
  | case3 c cs hc ih =>
    rcases List.mem_cons.mp h with rfl | h
    · simp
    · exact ih h

def unquote (s : String) : String :=
  match s.toList with
  | q :: c :: cs =>
    if (q == '"' || q == '\'') && (c :: cs).getLast? == some q then
      String.ofList (c :: cs).dropLast
    else s
  | _ => s

end HybridTemplate.Text
