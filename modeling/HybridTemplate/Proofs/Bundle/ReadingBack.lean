import HybridTemplate.Proofs.Bundle.Imports
import HybridTemplate.Proofs.ModuleText.Statements

set_option autoImplicit false

namespace HybridTemplate.Bundle

open Component (hashLength isModulePath isStem isStemChar)
open ModuleText
open HybridTemplate.Path (Component)

theorem isAlpha_of_isLower {c : Char} (h : c.isLower = true) : c.isAlpha = true :=
  Bool.or_eq_true_iff.mpr (.inr h)

theorem isNamePart_of_isStemChar {c : Char} (h : isStemChar c = true) : isNamePart c = true := by
  simp only [isStemChar, Bool.or_eq_true] at h
  rcases h with (lower | digit) | underscore
  · simp [isNamePart, isNameStart, isAlpha_of_isLower lower]
  · simp [isNamePart, digit]
  · simp [isNamePart, isNameStart, underscore]

theorem isName_of_isStem {cs : List Char} (h : isStem cs = true) : isName cs = true := by
  have all := Component.isStemChar_of_isStem h
  cases cs with
  | nil => cases h
  | cons c cs =>
    have start : isNameStart c = true := by
      rw [isStem, Bool.and_eq_true, Bool.or_eq_true] at h
      rcases h.1 with lower | underscore
      · simp [isNameStart, isAlpha_of_isLower lower]
      · simp [isNameStart, underscore]
    rw [isName, start, Bool.true_and, List.all_eq_true]
    exact fun d hd => isNamePart_of_isStemChar (all d (List.mem_cons_of_mem c hd))

theorem suffix_intercalate (texts : List String) (last : String) :
    last.toList <:+ (String.intercalate "/" (texts ++ [last])).toList := by
  induction texts with
  | nil => simp
  | cons t ts ih =>
    rw [String.toList_intercalate] at ih ⊢
    rw [List.cons_append, List.map_cons, List.intercalate_cons_of_ne_nil (by simp)]
    exact ih.trans (List.suffix_append _ _)

/-- A specifier ends in its key, unless the module is the directory itself. -/
theorem specifier_ends {scratch p : Path} (h : isModulePath p = true) :
    ¬ ['\\'] <:+ (specifier scratch p).toList := by
  obtain ⟨key, named, -, stem, long⟩ := exists_key h
  obtain ⟨before, whole⟩ := Path.exists_of_fileName? named
  intro ends
  rw [specifier, whole] at ends
  by_cases behind : scratch.components.length ≤ before.length
  · have cut : (Path.splitName (key ++ ".js")).1 = key := by
      rw [Component.splitName_script (by rintro rfl; exact absurd long (by decide))]
    rw [List.drop_append_of_le_length behind, bareTexts_concat, cut, String.toList_append] at ends
    have filled : key.toList ≠ [] := by
      rintro void
      rw [void] at stem
      cases stem
    have backslash : '\\' ∈ key.toList :=
      (List.suffix_of_suffix_length_le ends
        ((suffix_intercalate _ key).trans (List.suffix_append _ _))
        (List.length_pos_iff.mpr filled)).subset List.mem_cons_self
    exact absurd (Component.isStemChar_of_isStem stem _ backslash) (by decide)
  · rw [List.drop_eq_nil_of_le (by simp; omega)] at ends
    exact absurd ends (by decide)

def handing : List Lexeme :=
  [.name "async", .mark '(', .name "rootElement", .mark ')', .arrow, .name "await",
    .name "hydrateWithSetups", .mark '(', .name "rootElement", .mark ',', .name "setups", .mark ')']

/-- What the entry says: each import binds the setup of a module to its key, and the mapping leads
from each key to what is bound to it. -/
def entryStatements (imports : List EntryImport) : List Statement :=
  imports.map (fun i => .binding "setup" i.key i.specifier) ++
    [.binding "hydrate" "hydrateWithSetups" "weft",
      .mapping "setups" (imports.map fun i => (i.key, i.key)), .exported "hydrate" handing]

def setupLexemes (i : EntryImport) : List Lexeme :=
  [.name i.key, .mark ':', .name i.key, .mark ',']

theorem lexes_setupLine {i : EntryImport} (h : isName i.key.toList = true) :
    Lexes (setupLine i).toList (setupLexemes i) := by
  have indent : Lexes "    ".toList [] := lexes_blank "   " ' ' (by decide) (by decide +kernel) rfl
  have colon : Lexes ": ".toList [.mark ':'] :=
    lexes_blank ":" ' ' (by decide) (by decide +kernel) rfl
  have comma : Lexes ",\n".toList [.mark ','] :=
    lexes_blank "," '\n' (by decide) (by decide +kernel) rfl
  have line : Lexes ("    ".toList ++ (i.key.toList ++ (": ".toList ++
      (i.key.toList ++ ",\n".toList)))) (setupLexemes i) :=
    indent.append ((colon.append (comma.name h (by decide))).name h (by decide))
  simpa only [setupLine, String.toList_append, List.append_assoc] using line

theorem lexes_setupLines {is : List EntryImport} (h : ∀ i ∈ is, isName i.key.toList = true) :
    Lexes (String.join (is.map setupLine)).toList (is.flatMap setupLexemes) := by
  induction is with
  | nil => exact Lexes.nil
  | cons i is ih =>
    obtain ⟨first, others⟩ := List.forall_mem_cons.mp h
    rw [List.map_cons, String.join_cons, String.toList_append, List.flatMap_cons]
    exact (lexes_setupLine first).append (ih others)

theorem entries?_setups (is : List EntryImport) :
    entries? (is.flatMap setupLexemes ++ [.mark '\x7d']) =
      some (is.map fun i => (i.key, i.key)) := by
  induction is with
  | nil => rfl
  | cons i is ih =>
    rw [List.flatMap_cons, List.append_assoc, setupLexemes, List.cons_append, List.cons_append,
      List.cons_append, List.cons_append, List.nil_append, entries?, ih]
    rfl

def handingText : String :=
  "export const hydrate = async (rootElement) => await hydrateWithSetups(rootElement, setups);"

theorem lexes_handing : Lexes (handingText ++ "\n").toList
    ([.name "export", .name "const", .name "hydrate", .mark '='] ++ handing ++ [.mark ';']) := by
  rw [String.toList_append]
  exact lexes_blank handingText '\n' (by decide +kernel) (by decide +kernel) rfl

def closingText (imports : List EntryImport) : String :=
  bindingText "hydrate" "hydrateWithSetups" "weft" ++ ("\n" ++ ("const setups = \x7b\n" ++
    (String.join (imports.map setupLine) ++ ("\x7d;\n\n" ++ (handingText ++ "\n")))))

theorem entryText_eq (imports : List EntryImport) :
    entryText imports = String.join (imports.map importLine) ++ closingText imports := by
  have runtime : "import \x7b hydrate as hydrateWithSetups \x7d from \"weft\";\n\n" =
      bindingText "hydrate" "hydrateWithSetups" "weft" ++ "\n" := by decide +kernel
  have handed : handingText ++ "\n" =
      "export const hydrate = async (rootElement) => await hydrateWithSetups(rootElement, setups);\n" :=
    by decide +kernel
  unfold entryText closingText
  rw [runtime, handed]
  ac_rfl

theorem parse?_closing {is : List EntryImport} (h : ∀ i ∈ is, isName i.key.toList = true) :
    parse? (closingText is).toList = some
      [.binding "hydrate" "hydrateWithSetups" "weft",
        .mapping "setups" (is.map fun i => (i.key, i.key)), .exported "hydrate" handing] := by
  have blank : Lexes "\n".toList [] := lexes_blank "" '\n' (by decide) (by decide +kernel) rfl
  have opening : Lexes "const setups = \x7b\n".toList
      [.name "const", .name "setups", .mark '=', .mark '\x7b'] :=
    lexes_blank "const setups = \x7b" '\n' (by decide) (by decide +kernel) rfl
  have brace : Lexes "\x7d;\n\n".toList [.mark '\x7d', .mark ';'] :=
    lexes_blank "\x7d;\n" '\n' (by decide) (by decide +kernel) rfl
  have lexed := (blank.append
    (opening.append ((lexes_setupLines h).append (brace.append lexes_handing)))).eq
  have inside : .mark ';' ∉ [.name "const", .name "setups", .mark '=', .mark '\x7b'] ++
      (is.flatMap setupLexemes ++ [.mark '\x7d']) := by
    simp [setupLexemes]
  have mapping : statement? ([.name "const", .name "setups", .mark '=', .mark '\x7b'] ++
      (is.flatMap setupLexemes ++ [.mark '\x7d'])) =
        some (.mapping "setups" (is.map fun i => (i.key, i.key))) :=
    congrArg (Option.map (Statement.mapping "setups")) (entries?_setups is)
  have handed : statements?
      ([.name "export", .name "const", .name "hydrate", .mark '='] ++ handing ++ [.mark ';']) =
        some [.exported "hydrate" handing] := by
    rw [statements?_append _ (by decide)]
    rfl
  have read := statements?_append _ inside
    ([.name "export", .name "const", .name "hydrate", .mark '='] ++ handing ++ [.mark ';'])
  rw [mapping, handed, Option.bind_some, Option.map_some] at read
  have parsed : parse? ("\n" ++ ("const setups = \x7b\n" ++ (String.join (is.map setupLine) ++
      ("\x7d;\n\n" ++ (handingText ++ "\n"))))).toList =
        some [.mapping "setups" (is.map fun i => (i.key, i.key)), .exported "hydrate" handing] := by
    rw [parse?, String.toList_append, String.toList_append, String.toList_append,
      String.toList_append, lexed, Option.bind_some]
    simpa only [List.nil_append, List.append_assoc, List.cons_append] using read
  rw [closingText, String.toList_append, parse?_binding rfl rfl (by simp [Verbatim]), parsed]
  rfl

theorem parse?_entry_iff {is : List EntryImport} {cs : List Char} {ss : List Statement}
    (named : ∀ i ∈ is, isName i.key.toList = true)
    (ends : ∀ i ∈ is, ¬ ['\\'] <:+ i.specifier.toList) (closing : parse? cs = some ss) :
    parse? ((String.join (is.map importLine)).toList ++ cs) =
        some (is.map (fun i => .binding "setup" i.key i.specifier) ++ ss) ↔
      ∀ i ∈ is, ∀ c ∈ i.specifier.toList, Verbatim '"' c := by
  induction is with
  | nil => simp [closing]
  | cons i is ih =>
    obtain ⟨name, names⟩ := List.forall_mem_cons.mp named
    obtain ⟨last, lasts⟩ := List.forall_mem_cons.mp ends
    have line : importLine i = bindingText "setup" i.key i.specifier := rfl
    rw [List.map_cons, String.join_cons, String.toList_append, List.append_assoc, line,
      List.map_cons, List.cons_append, List.forall_mem_cons]
    constructor
    · intro read
      have first := verbatim_of_parse? rfl name last read
      rw [parse?_binding rfl name first] at read
      refine ⟨first, (ih names lasts).mp ?_⟩
      obtain ⟨ts, others, same⟩ := Option.map_eq_some_iff.mp read
      cases same
      exact others
    · rintro ⟨first, others⟩
      rw [parse?_binding rfl name first, (ih names lasts).mpr others]
      rfl

theorem wellBound_entryStatements {is : List EntryImport} (distinct : (is.map (·.key)).Nodup)
    (long : ∀ i ∈ is, hashLength < i.key.length) : WellBound (entryStatements is) := by
  have apart {word : String} (short : word.length ≤ hashLength) : word ∉ is.map (·.key) := by
    intro key
    obtain ⟨i, hi, rfl⟩ := List.mem_map.mp key
    exact absurd (long i hi) (by omega)
  have bound : (entryStatements is).map (·.bound) =
      is.map (·.key) ++ ["hydrateWithSetups", "setups", "hydrate"] := by
    rw [entryStatements, List.map_append, List.map_map]
    rfl
  constructor
  · rw [bound, List.nodup_append]
    refine ⟨distinct, by decide, fun key hk other ho same => ?_⟩
    subst same
    have short : ∀ word ∈ ["hydrateWithSetups", "setups", "hydrate"], word.length ≤ hashLength := by
      decide
    exact apart (short key ho) hk
  · have short : ∀ word ∈ reserved, word.length ≤ hashLength := by decide
    have free : ∀ key ∈ is.map (·.key), key ∉ reserved := fun key hk known =>
      apart (short key known) hk
    intro s hs
    rcases List.mem_append.mp hs with import_ | fixed
    · obtain ⟨i, hi, rfl⟩ := List.mem_map.mp import_
      exact List.forall_mem_singleton.mpr (free i.key (List.mem_map_of_mem hi))
    · simp only [List.mem_cons, List.not_mem_nil, or_false] at fixed
      rcases fixed with rfl | rfl | rfl
      · decide
      · have setups : "setups" ∉ reserved := by decide
        refine List.forall_mem_cons.mpr ⟨setups, fun name used => free name ?_⟩
        simpa [Statement.used] using used
      · decide

theorem import_known {scratch : Path} {written scanned : List Path} {i : EntryImport}
    (h : i ∈ entryImports scratch written scanned) :
    isStem i.key.toList = true ∧ hashLength < i.key.length ∧ ¬ ['\\'] <:+ i.specifier.toList := by
  obtain ⟨q, -, import_⟩ := exists_of_mem_entryImports h
  obtain ⟨under, stem, spelt⟩ := entryImport?_eq_some.mp import_
  obtain ⟨key, -, same, word, long⟩ := exists_key under.1
  cases same.symm.trans stem
  exact ⟨word, long, spelt ▸ specifier_ends under.1⟩

theorem read?_entry_iff (scratch : Path) (written scanned : List Path) :
    let imports := entryImports scratch written scanned
    read? (entryText imports) = some (entryStatements imports) ↔
      ∀ i ∈ imports, ∀ c ∈ i.specifier.toList, Verbatim '"' c := by
  intro imports
  have named : ∀ i ∈ imports, isName i.key.toList = true := fun i hi =>
    isName_of_isStem (import_known hi).1
  have bound : WellBound (entryStatements imports) :=
    wellBound_entryStatements (nodup_distinctKeys [] _) fun i hi => (import_known hi).2.1
  rw [← parse?_entry_iff named (fun i hi => (import_known hi).2.2) (parse?_closing named),
    read?, entryText_eq, String.toList_append, Option.filter_eq_some_iff]
  exact and_iff_left (decide_eq_true bound)

/-- Every import is that of a wrapper that was found, by its key and its place, and the entry reads
back as its imports, in order, just where no specifier has a quote, a backslash or a line end. -/
theorem entry_reads_back_iff (scratch : Path) (written scanned : List Path) :
    let imports := entryImports scratch written scanned
    (∀ i ∈ imports, ∃ q ∈ scanned, IsWrapperUnder scratch q ∧ q.fileStem? = some i.key ∧
        i.specifier = specifier scratch q) ∧
      (read? (entryText imports) = some (entryStatements imports) ↔
        ∀ i ∈ imports, ∀ c ∈ i.specifier.toList, Verbatim '"' c) := by
  refine ⟨fun i hi => ?_, read?_entry_iff scratch written scanned⟩
  obtain ⟨q, hq, import_⟩ := exists_of_mem_entryImports hi
  exact ⟨q, hq, entryImport?_eq_some.mp import_⟩

/-- A quote in the name of a directory ends the specifier too early. -/
theorem quoted_directory_breaks_entry :
    let scanned : List Path := [⟨"/s/a\"b/card_0123456789abcdef0123456789abcdef01234567.js"⟩]
    let imports := entryImports ⟨"/s"⟩ [] scanned
    imports = [⟨"card_0123456789abcdef0123456789abcdef01234567",
        "./a\"b/card_0123456789abcdef0123456789abcdef01234567"⟩] ∧
      read? (entryText imports) ≠ some (entryStatements imports) := by
  intro scanned imports
  have known : imports = [⟨"card_0123456789abcdef0123456789abcdef01234567",
      "./a\"b/card_0123456789abcdef0123456789abcdef01234567"⟩] := by decide +kernel
  refine ⟨known, fun read => ?_⟩
  have verbatim := (read?_entry_iff ⟨"/s"⟩ [] scanned).mp read
  rw [show entryImports ⟨"/s"⟩ [] scanned = _ from known, List.forall_mem_singleton] at verbatim
  exact (verbatim '"' (by simp)).1 rfl

end HybridTemplate.Bundle
