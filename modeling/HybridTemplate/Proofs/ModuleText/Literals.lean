import HybridTemplate.Config.Json
import Mathlib.Data.List.Infix

set_option autoImplicit false

namespace HybridTemplate.ModuleText

open Config.Json (hexDigit?)

variable {q : Char} {s cs rest before value : List Char}

/-- The character with this number in hexadecimal digits. A surrogate is no character. -/
def codePoint? (digits : List Char) : Option Char :=
  let n := digits.foldl (fun n d => 16 * n + (hexDigit? d).getD 0) 0
  if digits ≠ [] ∧ (digits.all fun d => (hexDigit? d).isSome) ∧ n.isValidChar then
    some (Char.ofNat n)
  else none

def named : Char → Char
  | 'b' => '\x08'
  | 'f' => '\x0c'
  | 'n' => '\n'
  | 'r' => '\r'
  | 't' => '\t'
  | 'v' => '\x0b'
  | c => c

def isLineBreak (c : Char) : Bool := c == '\n' || c == '\r' || c == '\u2028' || c == '\u2029'

def upTo? (stop : Char) : List Char → Option (List Char × List Char)
  | [] => none
  | c :: cs =>
    if c = stop then some ([], cs)
    else (upTo? stop cs).map fun (before, rest) => (c :: before, rest)

/-- What a character denotes behind a backslash and in front of some others. Of the digits only a
zero does, and only in front of no other digit. -/
def single? (c : Char) (cs : List Char) : Option (List Char) :=
  if c = '0' ∧ ¬ cs.head?.any Char.isDigit then some ['\x00']
  else if c.isDigit ∨ c = 'x' ∨ c = 'u' then none
  else if isLineBreak c then some []
  else some [named c]

/-- What an escape denotes, behind its backslash, and what follows it. -/
def escape? : List Char → Option (List Char × List Char)
  | [] => none
  | 'x' :: a :: b :: cs => (codePoint? [a, b]).map fun c => ([c], cs)
  | 'u' :: '\x7b' :: cs => do
    let (digits, rest) ← upTo? '\x7d' cs
    let c ← codePoint? digits
    some ([c], rest)
  | 'u' :: a :: b :: c :: d :: cs => (codePoint? [a, b, c, d]).map fun c => ([c], cs)
  | '\r' :: '\n' :: cs => some ([], cs)
  | c :: cs => (single? c cs).map fun value => (value, cs)

def Unquoted (c : Char) : Prop := c ≠ '"' ∧ c ≠ '\''

instance (c : Char) : Decidable (Unquoted c) := by
  unfold Unquoted
  infer_instance

theorem unquoted_of_codePoint? {digits : List Char} {c : Char} (h : codePoint? digits = some c) :
    ∀ d ∈ digits, Unquoted d := by
  intro d hd
  unfold codePoint? at h
  dsimp only at h
  split at h
  · rename_i known
    have digit := List.all_eq_true.mp known.2.1 d hd
    constructor
    · rintro rfl
      exact absurd digit (by decide)
    · rintro rfl
      exact absurd digit (by decide)
  · cases h

theorem upTo?_eq_some {stop : Char} (h : upTo? stop cs = some (before, rest)) :
    cs = before ++ stop :: rest := by
  induction cs generalizing before with
  | nil => cases h
  | cons c cs ih =>
    rw [upTo?] at h
    split at h
    · rename_i here
      cases h
      rw [here, List.nil_append]
    · obtain ⟨⟨front, behind⟩, found, same⟩ := Option.map_eq_some_iff.mp h
      cases same
      rw [ih found, List.cons_append]

theorem single?_length {c : Char} (h : single? c cs = some value) : value.length ≤ 1 := by
  unfold single? at h
  split_ifs at h <;> cases h
  · exact le_rfl
  · exact Nat.zero_le 1
  · exact le_rfl

theorem escape?_taken (h : escape? cs = some (value, rest)) :
    ∃ c more, cs = c :: (more ++ rest) ∧ value.length ≤ 1 ∧ ∀ d ∈ more, Unquoted d := by
  fun_cases escape? cs with
  | case1 => cases h
  | case2 a b cs =>
    obtain ⟨c, digits, same⟩ := Option.map_eq_some_iff.mp h
    cases same
    exact ⟨'x', [a, b], rfl, le_rfl, unquoted_of_codePoint? digits⟩
  | case3 cs =>
    obtain ⟨⟨digits, behind⟩, found, h⟩ := Option.bind_eq_some_iff.mp h
    obtain ⟨c, known, same⟩ := Option.bind_eq_some_iff.mp h
    cases same
    have braces : ∀ d ∈ ['\x7b', '\x7d'], Unquoted d := by
      simp only [List.mem_cons, List.not_mem_nil, or_false, forall_eq_or_imp, forall_eq, Unquoted]
      decide
    refine ⟨'u', '\x7b' :: (digits ++ ['\x7d']), ?_, le_rfl, ?_⟩
    · rw [upTo?_eq_some found]
      simp
    · intro d hd
      simp only [List.mem_cons, List.mem_append, List.not_mem_nil, or_false] at hd
      rcases hd with rfl | digit | rfl
      · exact braces _ (by decide)
      · exact unquoted_of_codePoint? known d digit
      · exact braces _ (by decide)
  | case4 a b c d cs brace =>
    rw [escape?] at h
    · obtain ⟨code, digits, same⟩ := Option.map_eq_some_iff.mp h
      cases same
      exact ⟨'u', [a, b, c, d], rfl, le_rfl, unquoted_of_codePoint? digits⟩
    · exact brace
  | case5 cs =>
    cases h
    exact ⟨'\r', ['\n'], rfl, Nat.zero_le 1, by simp [Unquoted]⟩
  | case6 c cs hex long short broken =>
    rw [escape?.eq_6 c cs hex long short broken] at h
    obtain ⟨denoted, one, same⟩ := Option.map_eq_some_iff.mp h
    cases same
    exact ⟨c, [], rfl, single?_length one, fun _ none => absurd none List.not_mem_nil⟩

theorem escape?_length (h : escape? cs = some (value, rest)) : rest.length < cs.length := by
  obtain ⟨c, more, rfl, -, -⟩ := escape?_taken h
  simp only [List.length_cons, List.length_append]
  omega

def literal? (q : Char) : List Char → Option (List Char × List Char)
  | [] => none
  | c :: cs =>
    if c = q then some ([], cs)
    else if c = '\n' ∨ c = '\r' then none
    else if c = '\\' then
      match _h : escape? cs with
      | none => none
      | some (first, rest) => (literal? q rest).map fun (value, rest) => (first ++ value, rest)
    else (literal? q cs).map fun (value, rest) => (c :: value, rest)
termination_by cs => cs.length
decreasing_by
  · have := escape?_length _h
    simp only [List.length_cons]
    omega
  · simp

theorem literal?_suffix (h : literal? q cs = some (value, rest)) : rest <:+ cs := by
  fun_induction literal? q cs generalizing value with
  | case1 => cases h
  | case2 cs =>
    cases h
    exact List.suffix_cons q rest
  | case3 => cases h
  | case4 => cases h
  | case5 cs first behind escaped _ _ ih =>
    obtain ⟨⟨denoted, left⟩, found, same⟩ := Option.map_eq_some_iff.mp h
    cases same
    obtain ⟨c, more, rfl, -, -⟩ := escape?_taken escaped
    exact (ih found).trans ⟨'\\' :: c :: more, rfl⟩
  | case6 c cs _ _ _ ih =>
    obtain ⟨⟨denoted, left⟩, found, same⟩ := Option.map_eq_some_iff.mp h
    cases same
    exact (ih found).trans (List.suffix_cons c cs)

/-- A character that stands for itself in a literal between such quotes. -/
def Verbatim (q c : Char) : Prop := c ≠ q ∧ c ≠ '\\' ∧ c ≠ '\n' ∧ c ≠ '\r'

instance (q c : Char) : Decidable (Verbatim q c) := by
  unfold Verbatim
  infer_instance

theorem literal?_verbatim (h : ∀ c ∈ s, Verbatim q c) :
    literal? q (s ++ q :: rest) = some (s, rest) := by
  induction s with
  | nil => rw [List.nil_append, literal?, if_pos rfl]
  | cons c s ih =>
    obtain ⟨⟨quote, backslash, feed, ret⟩, others⟩ := List.forall_mem_cons.mp h
    rw [List.cons_append, literal?, if_neg quote, if_neg (by simp [feed, ret]), if_neg backslash,
      ih others]
    rfl

theorem append_of_unquoted {more : List Char} (quote : ¬ Unquoted q)
    (unquoted : ∀ d ∈ more, Unquoted d) (h : s ++ q :: rest = more ++ before) :
    ∃ t, s = more ++ t ∧ before = t ++ q :: rest := by
  rcases List.append_eq_append_iff.mp h with ⟨t, split, behind⟩ | ⟨t, split, behind⟩
  · cases t with
    | nil => exact ⟨[], by rw [split, List.append_nil, List.append_nil], behind.symm⟩
    | cons d t =>
      cases behind
      exact absurd (unquoted q (split ▸ List.mem_append_right s List.mem_cons_self)) quote
  · exact ⟨t, split, behind⟩

/-- A literal denotes no more characters than are written, and as many only if all of them stand for
themselves. -/
theorem literal?_denoted (quote : ¬ Unquoted q) (last : ¬ ['\\'] <:+ s)
    (h : literal? q (s ++ q :: rest) = some (value, before)) :
    value.length ≤ s.length ∧ (value.length = s.length → ∀ c ∈ s, Verbatim q c) := by
  induction len : s.length using Nat.strong_induction_on generalizing s value with
  | h n ih =>
    subst len
    cases s with
    | nil =>
      rw [List.nil_append, literal?, if_pos rfl] at h
      cases h
      exact ⟨le_rfl, fun _ c none => absurd none List.not_mem_nil⟩
    | cons c s =>
      have suffix : ∀ t, t <:+ s → ¬ ['\\'] <:+ t := fun t ht bad =>
        last (bad.trans (ht.trans (List.suffix_cons c s)))
      rw [List.cons_append, literal?] at h
      split_ifs at h with closed broken escape
      · cases h
        exact ⟨Nat.zero_le _, fun none => absurd none (Nat.succ_ne_zero _).symm⟩
      · split at h
        · cases h
        rename_i first behind escaped
        obtain ⟨⟨denoted, left⟩, found, same⟩ := Option.map_eq_some_iff.mp h
        cases same
        obtain ⟨d, more, split, one, unquoted⟩ := escape?_taken escaped
        cases s with
        | nil => exact absurd (escape ▸ List.suffix_rfl) last
        | cons e s =>
          obtain ⟨t, rfl, rfl⟩ := append_of_unquoted quote unquoted (List.cons.inj split).2
          have short := (ih t.length (by simp; omega)
            (suffix t ⟨e :: more, rfl⟩) found rfl).1
          have count : (first ++ denoted).length < (c :: e :: (more ++ t)).length := by
            simp only [List.length_cons, List.length_append]
            omega
          exact ⟨count.le, fun same => absurd same count.ne⟩
      · obtain ⟨⟨denoted, left⟩, found, same⟩ := Option.map_eq_some_iff.mp h
        cases same
        obtain ⟨short, verbatim⟩ := ih s.length (Nat.lt_succ_self _)
          (suffix s List.suffix_rfl) found rfl
        refine ⟨Nat.succ_le_succ short, fun same => List.forall_mem_cons.mpr ⟨?_, ?_⟩⟩
        · exact ⟨closed, escape, fun feed => broken (.inl feed), fun ret => broken (.inr ret)⟩
        · exact verbatim (Nat.succ.inj same)

/-- A literal reads back as it is written just where every character stands for itself. -/
theorem literal?_reads_iff (quote : ¬ Unquoted q) (last : ¬ ['\\'] <:+ s) :
    (∃ before, literal? q (s ++ q :: rest) = some (s, before)) ↔ ∀ c ∈ s, Verbatim q c :=
  ⟨fun ⟨_, h⟩ => (literal?_denoted quote last h).2 rfl, fun h => ⟨rest, literal?_verbatim h⟩⟩

end HybridTemplate.ModuleText
