import HybridTemplate.Proofs.Component.Naming
import HybridTemplate.Proofs.Pattern.Beginnings
import HybridTemplate.Proofs.Pattern.Written

set_option autoImplicit false

namespace HybridTemplate

namespace Pattern

variable {c d : Cursor} {front back : List Char} {accepts : Char → Bool}

theorem exactly_succ (accepts : Char → Bool) (n : Nat) :
    exactly (one accepts) (n + 2) = seq (exactly (one accepts) (n + 1)) (one accepts) := by
  induction n with
  | zero => rfl
  | succ n ih =>
    rw [exactly, ih]
    rfl

theorem exists_covers_exactly {n : Nat} (count : front.length = n + 1)
    (all : ∀ x ∈ front, accepts x = true) (rest : c.rest = front ++ back) :
    ∃ d, Covers (exactly (one accepts) (n + 1)) c front [] d ∧ d.rest = back := by
  induction n generalizing front back with
  | zero =>
    obtain ⟨x, rfl⟩ := List.length_eq_one_iff.mp count
    obtain ⟨d, covers⟩ := Covers.one rest (all x List.mem_cons_self)
    exact ⟨d, covers, (List.cons.inj (covers.rest.symm.trans rest)).2⟩
  | succ n ih =>
    obtain rfl | ⟨w, x, rfl⟩ := front.eq_nil_or_concat
    · cases count
    · rw [List.concat_eq_append] at count all rest ⊢
      obtain ⟨before, here⟩ := List.forall_mem_append.mp all
      rw [List.append_assoc] at rest
      obtain ⟨d, first, left⟩ := ih (by simpa using count) before rest
      obtain ⟨e, last⟩ := Covers.one left (here x List.mem_cons_self)
      rw [exactly_succ]
      exact ⟨e, first.seq last, (List.cons.inj (last.rest.symm.trans left)).2⟩

theorem rest_of_mem_exactly {n : Nat} (hd : d ∈ reach (exactly (one accepts) (n + 1)) c) :
    ∃ front, front.length = n + 1 ∧ (∀ x ∈ front, accepts x = true) ∧
      c.rest = front ++ d.rest := by
  induction n generalizing d with
  | zero =>
    obtain ⟨x, cs, ok, rest, left⟩ := rest_of_mem_one hd
    exact ⟨[x], rfl, List.forall_mem_singleton.mpr ok, by rw [rest, left]; rfl⟩
  | succ n ih =>
    rw [exactly_succ] at hd
    obtain ⟨e, he, hd⟩ := exists_of_mem_seq hd
    obtain ⟨front, count, all, rest⟩ := ih he
    obtain ⟨x, cs, ok, here, left⟩ := rest_of_mem_one hd
    refine ⟨front ++ [x], by simp [count], ?_, by rw [rest, here, left]; simp⟩
    exact List.forall_mem_append.mpr ⟨all, List.forall_mem_singleton.mpr ok⟩

end Pattern

namespace Component

open Pattern
open Text (CharSet)

def isStemStart (c : Char) : Bool := c.isLower || c == '_'

def moduleName : Pattern :=
  seqs [.start, one isStemStart, many (one isStemChar), char '_',
    exactly (one isHexDigit) hashLength, lit ".js", .stop]

theorem has_stemStart (c : Char) : (lowers.union (.single '_')).has c = isStemStart c := by
  simp [isStemStart]

theorem has_stemChar (c : Char) :
    ((lowers.union decimals).union (.single '_')).has c = isStemChar c := by
  simp [isStemChar]

theorem has_hexDigit (c : Char) :
    (decimals.union (.between 'a' 'f' (by decide))).has c = isHexDigit c := by
  simp [isHexDigit]

def writtenModuleName : Written moduleName :=
  .seq .start <| .seq (.set _ has_stemStart) <| .seq (.many (.set _ has_stemChar) rfl) <|
  .seq (.char '_') <| .seq (.times (.set _ has_hexDigit) hashLength (by decide)) <|
  .seq (.lit ".js") .stop

theorem moduleName_written :
    ofText? "^[a-z_][a-z0-9_]*_[0-9a-f]\x7b40\x7d\\.js$" = some moduleName :=
  writtenModuleName.ofText?_eq (by decide +kernel)

theorem isModuleName_of_match {name : String}
    (found : (moduleName.matchAt? name.toList).isSome = true) : isModuleName name = true := by
  obtain ⟨m, found⟩ := Option.isSome_iff_exists.mp found
  rw [matchAt?_eq rfl] at found
  obtain ⟨d, first, -⟩ := Option.map_eq_some_iff.mp found
  have hd := List.mem_of_mem_head? first
  obtain ⟨c₁, start, hd⟩ := exists_of_mem_seq hd
  obtain ⟨c₂, letter, hd⟩ := exists_of_mem_seq hd
  obtain ⟨c₃, chars, hd⟩ := exists_of_mem_seq hd
  obtain ⟨c₄, underscore, hd⟩ := exists_of_mem_seq hd
  obtain ⟨c₅, hex, hd⟩ := exists_of_mem_seq hd
  obtain ⟨c₆, ending, stop⟩ := exists_of_mem_seq hd
  obtain rfl := List.mem_singleton.mp start
  obtain ⟨x, cs, first, here, left⟩ := rest_of_mem_one letter
  obtain ⟨stem, all, between⟩ := rest_of_mem_many chars
  obtain ⟨digits, count, hexadecimal, behind⟩ := rest_of_mem_exactly (n := 39) hex
  have last : c₆.rest = [] := by
    by_contra more
    simp [seqs, reach, more] at stop
  refine isModuleName_iff.mpr ⟨x :: stem, digits, ?_, ?_, count, List.all_eq_true.mpr hexadecimal⟩
  · have whole : name.toList = x :: cs := here
    rw [whole, ← left, between, rest_of_mem_char underscore, behind, rest_of_mem_lit ending, last]
    rfl
  · rw [isStem]
    exact Bool.and_eq_true_iff.mpr ⟨first, List.all_eq_true.mpr all⟩

theorem isSome_matchAt?_moduleName {name : String} (h : isModuleName name = true) :
    (moduleName.matchAt? name.toList).isSome = true := by
  obtain ⟨stem, digits, chars, first, count, all⟩ := isModuleName_iff.mp h
  obtain ⟨x, stem, rfl⟩ : ∃ x w, stem = x :: w := by
    cases stem with
    | nil => cases first
    | cons x w => exact ⟨x, w, rfl⟩
  have first : (isStemStart x && stem.all isStemChar) = true := first
  obtain ⟨letter, rest⟩ := Bool.and_eq_true_iff.mp first
  obtain ⟨c₁, start⟩ := Covers.one (c := .atStart name.toList false) chars letter
  obtain ⟨c₂, chars, left, late⟩ := exists_mem_many (List.all_eq_true.mp rest) start.late
    (List.cons.inj (start.rest.symm.trans chars)).2
  obtain ⟨c₃, underscore⟩ := Covers.char left
  obtain ⟨c₄, hex, left⟩ := exists_covers_exactly (n := 39) count (List.all_eq_true.mp all)
    (List.cons.inj (underscore.rest.symm.trans left)).2
  obtain ⟨c₅, ending, -, left, -, -, -⟩ := reach_chars ".js".toList (c := c₄) left
  have stop : reach .stop c₅ ≠ [] := by simp [reach, left]
  rw [matchAt?_eq rfl, Option.isSome_map]
  have some : reach moduleName (.atStart name.toList false) ≠ [] :=
    reach_seq_of_mem (List.mem_singleton_self _) <| reach_seq_of_mem start.mem <|
    reach_seq_of_mem chars <| reach_seq_of_mem underscore.mem <| reach_seq_of_mem hex.mem <|
    reach_seq_of_mem (ending ▸ List.mem_singleton_self c₅) stop
  obtain ⟨e, es, reached⟩ := List.exists_cons_of_ne_nil some
  rw [reached]
  rfl

/-- The names of wrapper modules are those that the pattern matches. -/
theorem isModuleName_eq (name : String) :
    isModuleName name = (moduleName.matchAt? name.toList).isSome := by
  rw [Bool.eq_iff_iff]
  exact ⟨isSome_matchAt?_moduleName, isModuleName_of_match⟩

end Component
end HybridTemplate
