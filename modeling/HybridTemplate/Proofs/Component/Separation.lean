import HybridTemplate.Component.Identifier
import Mathlib.Data.List.Basic

set_option autoImplicit false

namespace HybridTemplate

namespace Text

theorem encode_append (s t : String) : encode (s ++ t) = encode s ++ encode t := by
  change (s ++ t).toByteArray.data.toList = s.toByteArray.data.toList ++ t.toByteArray.data.toList
  rw [String.toByteArray_append, ByteArray.data_append, Array.toList_append]

theorem encode_injective : Function.Injective encode := by
  intro s t h
  exact String.toByteArray_inj.mp (ByteArray.ext (Array.toList_inj.mp h))

end Text

namespace Digest

theorem digitChar_injective : ∀ m < 16, ∀ n < 16, Nat.digitChar m = Nat.digitChar n → m = n := by
  decide

theorem hexadecimal_injective {bs cs : Text.Bytes} (h : hexadecimal bs = hexadecimal cs) :
    bs = cs := by
  induction bs generalizing cs with
  | nil =>
    have length := congrArg List.length h
    rw [hexadecimal_length, hexadecimal_length, List.length_nil] at length
    exact (List.length_eq_zero_iff.mp (by omega)).symm
  | cons b bs ih =>
    cases cs with
    | nil => cases h
    | cons c cs =>
      simp only [hexadecimal, List.flatMap_cons, List.cons_append, List.nil_append,
        List.cons.injEq] at h
      obtain ⟨high, low, rest⟩ := h
      have hb := b.toNat_lt
      have hc := c.toNat_lt
      have highs := digitChar_injective _ (by omega) _ (by omega) high
      have lows := digitChar_injective _ (by omega) _ (by omega) low
      have same : b = c := UInt8.toNat_inj.mp (by omega)
      rw [same, ih rest]

theorem hexadecimal_take (k : Nat) (bs : Text.Bytes) :
    (hexadecimal bs).take (2 * k) = hexadecimal (bs.take k) := by
  induction k generalizing bs with
  | zero => rfl
  | succ k ih =>
    cases bs with
    | nil => rfl
    | cons b bs =>
      have rest := ih bs
      simp only [hexadecimal] at rest
      simp [hexadecimal, Nat.mul_succ, rest]

end Digest

namespace Component

open Digest (sha256 hexadecimal hexadecimal_take hexadecimal_injective)

theorem hashDigits_eq (name source : String) :
    hashDigits name source = hexadecimal ((sha256 (hashInput name source)).take 20) :=
  hexadecimal_take 20 _

theorem hashDigits_inj {n₁ n₂ s₁ s₂ : String} :
    hashDigits n₁ s₁ = hashDigits n₂ s₂ ↔
      (sha256 (hashInput n₁ s₁)).take 20 = (sha256 (hashInput n₂ s₂)).take 20 := by
  rw [hashDigits_eq, hashDigits_eq]
  exact ⟨hexadecimal_injective, congrArg hexadecimal⟩

theorem identifier_inj {n₁ n₂ s₁ s₂ : String} :
    identifier n₁ s₁ = identifier n₂ s₂ ↔
      stemOf n₁.toList = stemOf n₂.toList ∧ hashDigits n₁ s₁ = hashDigits n₂ s₂ := by
  rw [identifier, identifier, String.ofList_inj, identifierChars, identifierChars]
  constructor
  · intro h
    have length : ('_' :: hashDigits n₁ s₁).length = ('_' :: hashDigits n₂ s₂).length := by
      rw [List.length_cons, List.length_cons, hashDigits_length, hashDigits_length]
    obtain ⟨stems, digits⟩ := List.append_inj' h length
    exact ⟨stems, List.tail_eq_of_cons_eq digits⟩
  · rintro ⟨stems, digits⟩
    rw [stems, digits]

theorem stemSpelling_ne_nil (c : Char) : stemSpelling c ≠ [] := by
  unfold stemSpelling
  repeat' split
  all_goals simp

theorem stemOf_append {name : List Char} (h : name ≠ []) (rest : List Char) :
    stemOf (name ++ rest) = stemOf name ++ rest.flatMap stemSpelling := by
  obtain ⟨c, cs, rfl⟩ := List.exists_cons_of_ne_nil h
  obtain ⟨d, ds, spelling⟩ := List.exists_cons_of_ne_nil (stemSpelling_ne_nil c)
  simp only [stemOf, List.cons_append, List.flatMap_cons, List.flatMap_append, spelling]
  split <;> simp

theorem stemOf_zero (rest : List Char) :
    stemOf ('\x00' :: rest) = '_' :: rest.flatMap stemSpelling := by
  have spelling : stemSpelling '\x00' = ['_'] := by decide
  have kept : '_'.isDigit = false := by decide
  simp only [stemOf, List.flatMap_cons, spelling, List.cons_append, List.nil_append, kept]
  simp

/-- A name that goes on with a zero character has another stem. -/
theorem stemOf_ne_of_zero (name rest : List Char) :
    stemOf (name ++ '\x00' :: rest) ≠ stemOf name := by
  intro h
  by_cases empty : name = []
  · rw [empty, List.nil_append, stemOf_zero] at h
    exact absurd (List.head_eq_of_cons_eq h) (by decide)
  · rw [stemOf_append empty, List.append_right_eq_self, List.flatMap_eq_nil_iff] at h
    exact stemSpelling_ne_nil _ (h _ List.mem_cons_self)

theorem hashInput_eq_encode (name source : String) :
    hashInput name source = Text.encode (name ++ "\x00" ++ source) := by
  have zero : Text.encode "\x00" = [0] := rfl
  rw [hashInput, Text.encode_append, Text.encode_append, zero, List.append_assoc]
  rfl

theorem hashInput_inj {n₁ n₂ s₁ s₂ : String} :
    hashInput n₁ s₁ = hashInput n₂ s₂ ↔
      n₁.toList ++ '\x00' :: s₁.toList = n₂.toList ++ '\x00' :: s₂.toList := by
  rw [hashInput_eq_encode, hashInput_eq_encode, Text.encode_injective.eq_iff, ← String.toList_inj]
  simp

theorem eq_of_prefix {n₁ n₂ s₁ s₂ : String} {between : List Char}
    (longer : n₂.toList = n₁.toList ++ between)
    (behind : '\x00' :: s₁.toList = between ++ '\x00' :: s₂.toList)
    (stems : stemOf n₁.toList = stemOf n₂.toList) : n₁ = n₂ ∧ s₁ = s₂ := by
  cases between with
  | nil =>
    rw [List.append_nil] at longer
    rw [List.nil_append, List.cons.injEq] at behind
    exact ⟨String.toList_inj.mp longer.symm, String.toList_inj.mp behind.2⟩
  | cons c rest =>
    rw [List.cons_append, List.cons.injEq] at behind
    rw [longer, ← behind.1] at stems
    exact absurd stems.symm (stemOf_ne_of_zero _ _)

/-- Names with the same stem are told apart in what is hashed. -/
theorem eq_of_hashInput_of_stemOf {n₁ n₂ s₁ s₂ : String}
    (hashed : hashInput n₁ s₁ = hashInput n₂ s₂) (stems : stemOf n₁.toList = stemOf n₂.toList) :
    n₁ = n₂ ∧ s₁ = s₂ := by
  rcases List.append_eq_append_iff.mp (hashInput_inj.mp hashed) with
    ⟨between, longer, behind⟩ | ⟨between, longer, behind⟩
  · exact eq_of_prefix longer behind stems
  · obtain ⟨names, sources⟩ := eq_of_prefix longer behind stems.symm
    exact ⟨names.symm, sources.symm⟩

/-- Components have the same identifier only if their names and sources are the same, or the digests
of two different texts begin alike. -/
theorem identifier_separates {n₁ n₂ s₁ s₂ : String} (h : identifier n₁ s₁ = identifier n₂ s₂) :
    (n₁ = n₂ ∧ s₁ = s₂) ∨
      (hashInput n₁ s₁ ≠ hashInput n₂ s₂ ∧
        (sha256 (hashInput n₁ s₁)).take 20 = (sha256 (hashInput n₂ s₂)).take 20) := by
  obtain ⟨stems, digits⟩ := identifier_inj.mp h
  by_cases hashed : hashInput n₁ s₁ = hashInput n₂ s₂
  · exact .inl (eq_of_hashInput_of_stemOf hashed stems)
  · exact .inr ⟨hashed, hashDigits_inj.mp digits⟩

theorem identifier_separates_around_zero :
    let whole := "a\x00b"
    identifier whole "c" = identifier ("a" ++ "\x00" ++ "b") "c" ∧
      ((whole = "a" ++ "\x00" ++ "b" ∧ "c" = "c") ∨
        (hashInput whole "c" ≠ hashInput ("a" ++ "\x00" ++ "b") "c" ∧
          (sha256 (hashInput whole "c")).take 20 =
            (sha256 (hashInput ("a" ++ "\x00" ++ "b") "c")).take 20)) := by
  intro whole
  have same : identifier whole "c" = identifier ("a" ++ "\x00" ++ "b") "c" := rfl
  exact ⟨same, identifier_separates same⟩

end Component
end HybridTemplate
