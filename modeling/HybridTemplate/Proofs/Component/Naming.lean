import HybridTemplate.Component.Module
import HybridTemplate.Proofs.Component.History
import HybridTemplate.Proofs.Path.Components

set_option autoImplicit false

namespace HybridTemplate.Component

open HybridTemplate.Path (IsPlain)
open Visit (outcome)

/-- The form of a wrapper's name, in parts. -/
theorem isModuleName_iff {name : String} :
    isModuleName name = true ↔
      ∃ stem digits, name.toList = stem ++ '_' :: (digits ++ ['.', 'j', 's']) ∧
        isStem stem = true ∧ digits.length = hashLength ∧ digits.all isHexDigit = true := by
  simp only [isModuleName, Bool.and_eq_true, beq_iff_eq]
  constructor
  · rintro ⟨⟨⟨tail, count⟩, digits⟩, stem⟩
    split at stem
    · rename_i front behind
      refine ⟨front.reverse, ((name.toList.reverse.drop 3).take hashLength).reverse, ?_, stem,
        by rw [List.length_reverse, count], by rw [List.all_reverse, digits]⟩
      have parts : name.toList.reverse =
          ['s', 'j', '.'] ++ ((name.toList.reverse.drop 3).take hashLength ++ '_' :: front) := by
        rw [← tail, ← behind, ← List.drop_drop, List.take_append_drop, List.take_append_drop]
      have whole := congrArg List.reverse parts
      rw [List.reverse_reverse] at whole
      exact whole.trans (by simp)
    · cases stem
  · rintro ⟨stem, digits, chars, first, count, all⟩
    have reversed : name.toList.reverse =
        ['s', 'j', '.'] ++ (digits.reverse ++ '_' :: stem.reverse) := by
      rw [chars]
      simp
    have length : digits.reverse.length = hashLength := by rw [List.length_reverse, count]
    have taken : (name.toList.reverse.drop 3).take hashLength = digits.reverse := by
      rw [reversed, ← length]
      exact List.take_left
    have dropped : name.toList.reverse.drop (3 + hashLength) = '_' :: stem.reverse := by
      rw [← List.drop_drop, reversed, ← length]
      exact List.drop_left
    rw [taken, dropped]
    refine ⟨⟨⟨?_, length⟩, by rw [List.all_reverse, all]⟩, by simpa using first⟩
    rw [reversed]
    rfl

theorem isStemChar_of_isStem {stem : List Char} (h : isStem stem = true) :
    ∀ c ∈ stem, isStemChar c = true := by
  cases stem with
  | nil => cases h
  | cons c rest =>
    simp only [isStem, Bool.and_eq_true, Bool.or_eq_true] at h
    refine List.forall_mem_cons.mpr ⟨?_, List.all_eq_true.mp h.2⟩
    rw [isStemChar]
    rcases h.1 with lower | underscore
    · rw [lower]; rfl
    · rw [underscore, Bool.or_true]

theorem isPlain_of_isModuleName {name : String} (h : isModuleName name = true) : IsPlain name := by
  obtain ⟨stem, digits, chars, first, count, all⟩ := isModuleName_iff.mp h
  have long : 4 ≤ name.toList.length := by
    rw [chars]
    simp only [List.length_append, List.length_cons]
    omega
  refine ⟨?_, ?_, ?_⟩
  · rw [← Bool.not_eq_true, Path.isVoid_eq_true]
    rintro (empty | dot)
    · rw [empty] at long
      exact absurd long (by decide)
    · rw [dot] at long
      exact absurd long (by decide)
  · intro up
    rw [up] at long
    exact absurd long (by decide)
  · intro slash
    rw [chars, List.mem_append, List.mem_cons, List.mem_append] at slash
    rcases slash with front | slash | digit | tail
    · exact absurd (isStemChar_of_isStem first _ front) (by decide)
    · cases slash
    · exact absurd (List.all_eq_true.mp all _ digit) (by decide)
    · exact absurd tail (by decide)

theorem isStemChar_of_mem_stemSpelling {c d : Char} (h : d ∈ stemSpelling c) :
    isStemChar d = true := by
  unfold stemSpelling at h
  split at h
  · rw [List.mem_singleton.mp h]
    decide
  split at h
  · rcases List.mem_cons.mp h with rfl | h
    · decide
    · rw [List.mem_singleton.mp h]
      decide
  split at h
  · rename_i kept
    rw [List.mem_singleton.mp h]
    exact kept
  · rw [List.mem_singleton.mp h]
    decide

theorem isStem_stemOf (name : List Char) : isStem (stemOf name) = true := by
  have all : ∀ c ∈ name.flatMap stemSpelling, isStemChar c = true := by
    intro c hc
    obtain ⟨d, -, spelt⟩ := List.mem_flatMap.mp hc
    exact isStemChar_of_mem_stemSpelling spelt
  unfold stemOf
  split
  · decide
  · rename_i c cs spelling
    rw [spelling] at all
    obtain ⟨first, rest⟩ := List.forall_mem_cons.mp all
    split
    · rw [isStem, Bool.and_eq_true, List.all_cons, Bool.and_eq_true]
      exact ⟨rfl, first, List.all_eq_true.mpr rest⟩
    · rename_i digit
      rw [isStem, Bool.and_eq_true]
      refine ⟨?_, List.all_eq_true.mpr rest⟩
      rw [isStemChar, Bool.eq_false_of_not_eq_true digit, Bool.or_false] at first
      exact first

theorem isHexDigit_digitChar : ∀ n < 16, isHexDigit (Nat.digitChar n) = true := by decide

theorem hashDigits_all (name source : String) : (hashDigits name source).all isHexDigit = true := by
  refine List.all_eq_true.mpr fun c hc => ?_
  obtain ⟨b, -, digit⟩ := List.mem_flatMap.mp (List.mem_of_mem_take hc)
  have byte : b.toNat < 256 := b.toNat_lt
  rcases List.mem_cons.mp digit with rfl | digit
  · exact isHexDigit_digitChar _ (by omega)
  · rw [List.mem_singleton.mp digit]
    exact isHexDigit_digitChar _ (by omega)

/-- The file of every component is known as a wrapper module. -/
theorem isModuleName_identifier (name source : String) :
    isModuleName (identifier name source ++ ".js") = true := by
  refine isModuleName_iff.mpr ⟨stemOf name.toList, hashDigits name source, ?_,
    isStem_stemOf name.toList, hashDigits_length name source, hashDigits_all name source⟩
  rw [identifier, identifierChars, String.toList_append, String.toList_ofList, List.append_assoc]
  rfl

/-- Cut at its last dot, the name of a script loses its extension and nothing else. -/
theorem splitName_script {stem : String} (filled : stem ≠ "") :
    Path.splitName (stem ++ ".js") = (stem, some "js") := by
  have dotless : '.' ∉ "js".toList := by decide
  have cut := Path.splitName_of_extension filled dotless
  rwa [String.append_assoc] at cut

theorem splitName_identifier (name source : String) :
    (Path.splitName (identifier name source ++ ".js")).1 = identifier name source := by
  rw [splitName_script]
  intro void
  have chars := congrArg String.toList void
  rw [identifier, String.toList_ofList, identifierChars] at chars
  simp at chars

theorem fileStem?_identifier {p : Path} {name source : String}
    (h : p.fileName? = some (identifier name source ++ ".js")) :
    p.fileStem? = some (identifier name source) := by
  rw [Path.fileStem?, h, Option.map_some, splitName_identifier]

theorem isStemChar_of_isHexDigit {c : Char} (h : isHexDigit c = true) : isStemChar c = true := by
  simp only [isHexDigit, Bool.or_eq_true, Bool.and_eq_true, decide_eq_true_eq] at h
  rcases h with digit | ⟨low, high⟩
  · simp [isStemChar, digit]
  · have last : c ≤ 'z' := le_trans high (by decide)
    have lower : c.isLower = true :=
      Bool.and_eq_true_iff.mpr ⟨decide_eq_true low, decide_eq_true last⟩
    simp [isStemChar, lower]

theorem isStem_append {stem more : List Char} (first : isStem stem = true)
    (rest : ∀ c ∈ more, isStemChar c = true) : isStem (stem ++ more) = true := by
  cases stem with
  | nil => cases first
  | cons c cs =>
    rw [isStem, Bool.and_eq_true, List.all_eq_true] at first
    rw [List.cons_append, isStem, Bool.and_eq_true, List.all_append, Bool.and_eq_true,
      List.all_eq_true, List.all_eq_true]
    exact ⟨first.1, first.2, rest⟩

theorem isStem_digits {stem digits : List Char} (first : isStem stem = true)
    (all : digits.all isHexDigit = true) : isStem (stem ++ '_' :: digits) = true := by
  refine isStem_append first (List.forall_mem_cons.mpr ⟨rfl, fun c hc => ?_⟩)
  exact isStemChar_of_isHexDigit (List.all_eq_true.mp all c hc)

theorem isStem_identifier (name source : String) :
    isStem (identifier name source).toList = true := by
  rw [identifier, String.toList_ofList]
  exact isStem_digits (isStem_stemOf name.toList) (hashDigits_all name source)

/-- A wrapper's name without its extension is a stem that is longer than its digits. -/
theorem exists_stem_of_isModuleName {name : String} (h : isModuleName name = true) :
    ∃ key : String, name = key ++ ".js" ∧ isStem key.toList = true ∧ hashLength < key.length := by
  obtain ⟨stem, digits, chars, first, count, all⟩ := isModuleName_iff.mp h
  have cut : String.toList (String.ofList (stem ++ '_' :: digits) ++ ".js") = name.toList := by
    rw [String.toList_append, String.toList_ofList, chars, List.append_assoc]
    rfl
  refine ⟨String.ofList (stem ++ '_' :: digits), (String.toList_injective cut).symm, ?_, ?_⟩
  · rw [String.toList_ofList]
    exact isStem_digits first all
  · rw [String.length_ofList, List.length_append, List.length_cons]
    omega

theorem exists_head_of_isStem {cs : List Char} (h : isStem cs = true) :
    ∃ c rest, cs = c :: rest ∧ c.isDigit = false := by
  cases cs with
  | nil => cases h
  | cons c rest =>
    refine ⟨c, rest, rfl, ?_⟩
    rw [isStem, Bool.and_eq_true, Bool.or_eq_true, beq_iff_eq] at h
    rcases h.1 with lower | rfl
    · have low : 'a'.val ≤ c.val := of_decide_eq_true (Bool.and_eq_true_iff.mp lower).1
      rw [Char.isDigit, Bool.and_eq_false_iff]
      refine .inr (decide_eq_false fun digit => ?_)
      have between : 'a'.val ≤ '9'.val := UInt32.le_trans low digit
      exact absurd between (by decide)
    · rfl

theorem isPlain_of_isStem {name : String} (h : isStem name.toList = true) : IsPlain name := by
  have all := isStemChar_of_isStem h
  obtain ⟨c, rest, chars, -⟩ := exists_head_of_isStem h
  refine ⟨?_, ?_, ?_⟩
  · rw [← Bool.not_eq_true, Path.isVoid_eq_true]
    rintro (empty | dot)
    · rw [chars] at empty
      cases empty
    · rw [dot] at all
      exact absurd (all '.' List.mem_cons_self) (by decide)
  · intro up
    rw [up] at all
    exact absurd (all '.' List.mem_cons_self) (by decide)
  · intro slash
    exact absurd (all '/' slash) (by decide)

def WellNamed (d : Descriptor) : Prop := ∃ source, d.identifier = identifier d.name source

theorem leave_wellNamed {n : Node} {vs : List (Value ScriptItem)} {x y : Extractor}
    {v : Value ScriptItem} (before : ∀ d ∈ x.components, WellNamed d)
    (h : outcome (table.leave n vs) x = (.ok v, y)) : ∀ d ∈ y.components, WellNamed d := by
  by_cases hc : n.kind = .component
  · rw [leave_component hc] at h
    cases h
    intro d hd
    rw [Extractor.finish] at hd
    dsimp only at hd
    split at hd
    · exact before d hd
    · rcases List.mem_append.mp hd with old | new
      · exact before d old
      · obtain rfl := List.mem_singleton.mp new
        exact ⟨n.text, rfl⟩
  · have same := (leave_touches n vs x).2.2 hc
    rw [h] at same
    exact same.symm ▸ before

theorem establishes_wellNamed :
    table.Establishes
      (fun _ x _ y => (∀ d ∈ x.components, WellNamed d) → ∀ d ∈ y.components, WellNamed d)
      (fun _ x _ y => (∀ d ∈ x.components, WellNamed d) → ∀ d ∈ y.components, WellNamed d) where
  node := by
    intro n x x₁ vs x₂ v y entered _ below left before
    refine leave_wellNamed (below ?_) left
    rw [(enter_touches entered).2.2]
    exact before
  nil := fun _ before => before
  cons := by
    intro n ns x v x₁ vs y first rest before
    exact rest (first before)

theorem Extractor.wellNamed_of_extract {x : Extractor} (hx : x.components = []) {tree : Node}
    {source : String} {file : Option SourceFile} {ds : List Descriptor}
    (h : (x.extract tree source file).1.result = .ok ds) : ∀ d ∈ ds, WellNamed d := by
  unfold extract at h
  rcases visited : outcome (table.visit tree) { x with origin := .of source file, warnings := [] }
    with ⟨e | v, y⟩
  · simp only [visited] at h
    cases h
  · simp only [visited] at h
    cases h
    refine establishes_wellNamed.visit tree _ v y visited ?_
    dsimp only
    rw [hx]
    exact fun d none => absurd none List.not_mem_nil

theorem Extractor.wellNamed_of_read {x : Extractor} (hx : Settled x) {d : Document}
    {ds : List Descriptor} (h : (x.read d).1.result = .ok ds) : ∀ d ∈ ds, WellNamed d := by
  cases d with
  | tree t source file => exact wellNamed_of_extract hx.components h
  | text grammar source file =>
    simp only [read, extractSource] at h
    cases parsed : grammar source with
    | error e =>
      rw [parsed] at h
      cases h
    | ok t =>
      rw [parsed] at h
      exact wellNamed_of_extract hx.components h

end HybridTemplate.Component
