import HybridTemplate.Proofs.ModuleText.Literals

set_option autoImplicit false

/-! A part of the grammar of modules: imports of one name, constants that map names to names, and
exported constants, whose values are kept as they are written. A module is read when it consists
of such statements and none of its names is reserved or bound twice. -/
namespace HybridTemplate.ModuleText

inductive Lexeme where
  | name (text : String)
  | string (value : String)
  | mark (c : Char)
  | arrow
deriving DecidableEq, Repr

def isBlank (c : Char) : Bool := c == ' ' || c == '\n' || c == '\r' || c == '\t'

def isNameStart (c : Char) : Bool := c.isAlpha || c == '_' || c == '$'

def isNamePart (c : Char) : Bool := isNameStart c || c.isDigit

def isMark (c : Char) : Bool := ['\x7b', '\x7d', '(', ')', ',', ':', ';'].contains c

/-- The lexeme that begins with a character, and what follows it. Two equality signs are none. -/
def lexeme? (c : Char) (cs : List Char) : Option (Lexeme × List Char) :=
  if isNameStart c then
    some (.name (String.ofList (c :: cs.takeWhile isNamePart)), cs.dropWhile isNamePart)
  else if c = '"' ∨ c = '\'' then
    (literal? c cs).map fun (value, rest) => (.string (String.ofList value), rest)
  else if c = '=' then
    match cs with
    | '>' :: rest => some (.arrow, rest)
    | '=' :: _ => none
    | _ => some (.mark '=', cs)
  else if isMark c then some (.mark c, cs)
  else none

variable {c : Char} {cs rest : List Char} {l : Lexeme} {ls : List Lexeme}

theorem lexeme?_suffix (h : lexeme? c cs = some (l, rest)) : rest <:+ cs := by
  unfold lexeme? at h
  split_ifs at h
  · cases h
    exact List.dropWhile_suffix _
  · obtain ⟨⟨value, behind⟩, found, same⟩ := Option.map_eq_some_iff.mp h
    cases same
    exact literal?_suffix found
  · split at h
    · cases h
      exact List.suffix_cons _ rest
    · cases h
    · cases h
      exact List.suffix_rfl
  · cases h
    exact List.suffix_rfl

def lexemes? : List Char → Option (List Lexeme)
  | [] => some []
  | c :: cs =>
    if isBlank c then lexemes? cs
    else
      match _h : lexeme? c cs with
      | none => none
      | some (l, rest) => (lexemes? rest).map (l :: ·)
termination_by cs => cs.length
decreasing_by
  · simp
  · exact Nat.lt_succ_of_le (lexeme?_suffix _h).length_le

inductive Statement where
  /-- One name is imported from a module and bound to another one. -/
  | binding (imported bound module : String)
  /-- A constant that maps names to names. -/
  | mapping (bound : String) (entries : List (String × String))
  | exported (bound : String) (value : List Lexeme)
deriving DecidableEq, Repr

def entries? : List Lexeme → Option (List (String × String))
  | [.mark '\x7d'] => some []
  | [.name key, .mark ':', .name value, .mark '\x7d'] => some [(key, value)]
  | .name key :: .mark ':' :: .name value :: .mark ',' :: ls =>
    (entries? ls).map ((key, value) :: ·)
  | _ => none

def statement? : List Lexeme → Option Statement
  | [.name "import", .mark '\x7b', .name imported, .name "as", .name bound, .mark '\x7d',
      .name "from", .string module] => some (.binding imported bound module)
  | .name "const" :: .name bound :: .mark '=' :: .mark '\x7b' :: ls =>
    (entries? ls).map (.mapping bound)
  | .name "export" :: .name "const" :: .name bound :: .mark '=' :: value =>
    some (.exported bound value)
  | _ => none

def pieces? : List (List Lexeme) → Option (List Statement)
  | [] => none
  | [last] => if last = [] then some [] else none
  | ls :: more => (statement? ls).bind fun s => (pieces? more).map (s :: ·)

def statements? (ls : List Lexeme) : Option (List Statement) :=
  pieces? (ls.splitOn (.mark ';'))

/-- The words that bind nothing in a module. -/
def reserved : List String :=
  ["arguments", "await", "break", "case", "catch", "class", "const", "continue", "debugger",
    "default", "delete", "do", "else", "enum", "eval", "export", "extends", "false", "finally",
    "for", "function", "if", "implements", "import", "in", "instanceof", "interface", "let", "new",
    "null", "package", "private", "protected", "public", "return", "static", "super", "switch",
    "this", "throw", "true", "try", "typeof", "var", "void", "while", "with", "yield"]

def Statement.bound : Statement → String
  | binding _ bound _ => bound
  | mapping bound _ => bound
  | exported bound _ => bound

def Statement.used : Statement → List String
  | mapping _ entries => entries.map Prod.snd
  | _ => []

structure WellBound (statements : List Statement) : Prop where
  distinct : (statements.map (·.bound)).Nodup
  free : ∀ s ∈ statements, ∀ name ∈ s.bound :: s.used, name ∉ reserved

instance (statements : List Statement) : Decidable (WellBound statements) :=
  decidable_of_iff ((statements.map (·.bound)).Nodup ∧
    ∀ s ∈ statements, ∀ name ∈ s.bound :: s.used, name ∉ reserved)
    ⟨fun h => ⟨h.1, h.2⟩, fun h => ⟨h.distinct, h.free⟩⟩

def parse? (cs : List Char) : Option (List Statement) := (lexemes? cs).bind statements?

def read? (text : String) : Option (List Statement) := (parse? text.toList).filter (WellBound ·)

def Apart (c : Char) : Prop := isNamePart c = false ∧ c ≠ '=' ∧ c ≠ '>'

instance (c : Char) : Decidable (Apart c) := by
  unfold Apart
  infer_instance

theorem lexeme?_append {more : List Char} (plain : Unquoted c) (h : lexeme? c cs = some (l, rest))
    (apart : ∀ d ∈ more.head?, Apart d) : lexeme? c (cs ++ more) = some (l, rest ++ more) := by
  have unquoted : ¬ (c = '"' ∨ c = '\'') := not_or.mpr plain
  unfold lexeme? at h ⊢
  rw [if_neg unquoted] at h ⊢
  split_ifs at h ⊢
  · cases h
    have stopped : more.takeWhile isNamePart = [] ∧ more.dropWhile isNamePart = more := by
      cases more with
      | nil => exact ⟨rfl, rfl⟩
      | cons d more =>
        have stop : ¬ isNamePart d = true := by simp [(apart d rfl).1]
        exact ⟨List.takeWhile_cons_of_neg stop, List.dropWhile_cons_of_neg stop⟩
    have taken : (cs ++ more).takeWhile isNamePart = cs.takeWhile isNamePart := by
      rw [List.takeWhile_append, stopped.1, List.append_nil]
      split_ifs with all
      · exact ((List.takeWhile_prefix isNamePart).eq_of_length all).symm
      · rfl
    have left : (cs ++ more).dropWhile isNamePart = cs.dropWhile isNamePart ++ more := by
      rw [List.dropWhile_append, stopped.2]
      split_ifs with none
      · rw [List.isEmpty_iff.mp none, List.nil_append]
      · rfl
    rw [taken, left]
  · cases cs with
    | nil =>
      cases h
      cases more with
      | nil => rfl
      | cons d more =>
        obtain ⟨-, equals, greater⟩ := apart d rfl
        rw [List.nil_append]
        split
        · rename_i same
          exact absurd (List.cons.inj same).1 greater
        · rename_i same
          exact absurd (List.cons.inj same).1 equals
        · rfl
    | cons d cs =>
      rw [List.cons_append]
      split at h
      · rename_i same
        cases same
        cases h
        rfl
      · cases h
      · rename_i greater equals
        cases h
        split
        · rename_i same
          exact absurd (List.cons.inj same).1 (fun this => greater cs (by rw [this]))
        · rename_i same
          exact absurd (List.cons.inj same).1 (fun this => equals cs (by rw [this]))
        · rfl
  · cases h
    rfl

theorem lexemes?_append {more : List Char} (plain : ∀ c ∈ cs, Unquoted c)
    (h : lexemes? cs = some ls) (apart : ∀ d ∈ more.head?, Apart d) :
    lexemes? (cs ++ more) = (lexemes? more).map (ls ++ ·) := by
  fun_induction lexemes? cs generalizing ls with
  | case1 =>
    cases h
    simp
  | case2 c cs blank ih =>
    rw [List.cons_append, lexemes?, if_pos blank]
    exact ih (List.forall_mem_cons.mp plain).2 h
  | case3 => cases h
  | case4 c cs filled l rest first ih =>
    obtain ⟨lexed, others, rfl⟩ := Option.map_eq_some_iff.mp h
    obtain ⟨head, tail⟩ := List.forall_mem_cons.mp plain
    rw [List.cons_append, lexemes?, if_neg filled, lexeme?_append head first apart]
    dsimp only
    rw [ih (fun d hd => tail d ((lexeme?_suffix first).subset hd)) others, Option.map_map]
    rfl

theorem lexemes?_quote (cs : List Char) :
    lexemes? ('"' :: cs) = (literal? '"' cs).bind fun (value, rest) =>
      (lexemes? rest).map (.string (String.ofList value) :: ·) := by
  have first : lexeme? '"' cs =
      (literal? '"' cs).map fun (value, rest) => (.string (String.ofList value), rest) := rfl
  rw [lexemes?, if_neg (by decide), first]
  cases literal? '"' cs <;> rfl

theorem pieces?_cons (piece : List Lexeme) {more : List (List Lexeme)} (left : more ≠ []) :
    pieces? (piece :: more) = (statement? piece).bind fun s => (pieces? more).map (s :: ·) :=
  pieces?.eq_3 piece more left

theorem statements?_append (piece : List Lexeme) (inside : .mark ';' ∉ piece) (ls : List Lexeme) :
    statements? (piece ++ .mark ';' :: ls) =
      (statement? piece).bind fun s => (statements? ls).map (s :: ·) := by
  rw [statements?, List.splitOn_append_cons_self_of_not_mem inside,
    pieces?_cons piece (List.splitOn_ne_nil _ _)]
  rfl

theorem exists_splitOn_append {front : List Lexeme} (inside : .mark ';' ∉ front)
    (ls : List Lexeme) :
    ∃ piece more, (front ++ ls).splitOn (.mark ';') = (front ++ piece) :: more := by
  induction front with
  | nil => exact List.exists_cons_of_ne_nil (List.splitOn_ne_nil _ _)
  | cons l front ih =>
    obtain ⟨other, inside⟩ := not_or.mp fun h => inside (List.mem_cons.mpr h)
    obtain ⟨piece, more, split⟩ := ih inside
    refine ⟨piece, more, ?_⟩
    rw [List.cons_append, List.splitOn_cons_eq_if_modifyHead, if_neg, split]
    · rfl
    · simpa using Ne.symm other

/-- The first statement begins with what comes first. -/
theorem exists_statement?_of_statements? {front : List Lexeme} {s : Statement} {ss : List Statement}
    (inside : .mark ';' ∉ front) (h : statements? (front ++ ls) = some (s :: ss)) :
    ∃ piece, statement? (front ++ piece) = some s := by
  obtain ⟨piece, more, split⟩ := exists_splitOn_append inside ls
  refine ⟨piece, ?_⟩
  rw [statements?, split] at h
  cases more with
  | nil =>
    rw [pieces?] at h
    split_ifs at h
    cases h
  | cons next more =>
    rw [pieces?_cons _ (List.cons_ne_nil _ _)] at h
    obtain ⟨t, first, h⟩ := Option.bind_eq_some_iff.mp h
    obtain ⟨ts, others, same⟩ := Option.map_eq_some_iff.mp h
    cases same
    exact first

/-- The text gives these lexemes, whatever follows. -/
def Lexes (cs : List Char) (ls : List Lexeme) : Prop :=
  ∀ more, lexemes? (cs ++ more) = (lexemes? more).map (ls ++ ·)

theorem Lexes.nil : Lexes [] [] := fun more => by simp

theorem Lexes.append {ds : List Char} {ms : List Lexeme} (first : Lexes cs ls)
    (second : Lexes ds ms) : Lexes (cs ++ ds) (ls ++ ms) := by
  intro more
  rw [List.append_assoc, first, second, Option.map_map]
  exact congrArg (Option.map · _) (funext fun ns => (List.append_assoc ls ms ns).symm)

theorem Lexes.eq (h : Lexes cs ls) : lexemes? cs = some ls := by
  have alone := h []
  rw [List.append_nil, lexemes?] at alone
  rw [alone, Option.map_some, List.append_nil]

theorem apart_of_isBlank (h : isBlank c = true) : Apart c := by
  simp only [isBlank, Bool.or_eq_true, beq_iff_eq] at h
  rcases h with ((rfl | rfl) | rfl) | rfl <;> decide

theorem lexes_blank (text : String) (b : Char) (plain : text.toList.all (Unquoted ·) = true)
    (h : lexemes? text.toList = some ls) (blank : isBlank b = true) :
    Lexes (text.toList ++ [b]) ls := by
  intro more
  have behind : lexemes? (b :: more) = lexemes? more := by rw [lexemes?, if_pos blank]
  have apart : ∀ d ∈ (b :: more).head?, Apart d := by simpa using apart_of_isBlank blank
  have plain : ∀ c ∈ text.toList, Unquoted c := by simpa using plain
  rw [List.append_assoc, List.singleton_append, lexemes?_append plain h apart, behind]

def isName : List Char → Bool
  | [] => false
  | c :: cs => isNameStart c && cs.all isNamePart

theorem not_isBlank_of_isNameStart (h : isNameStart c = true) : ¬ isBlank c = true := by
  intro blank
  simp only [isBlank, Bool.or_eq_true, beq_iff_eq] at blank
  rcases blank with ((rfl | rfl) | rfl) | rfl <;> exact absurd h (by decide)

theorem Lexes.name {word : String} (named : isName word.toList = true) (apart : Apart c)
    (h : Lexes (c :: cs) ls) : Lexes (word.toList ++ c :: cs) (.name word :: ls) := by
  intro more
  cases chars : word.toList with
  | nil => rw [chars] at named; cases named
  | cons d ds =>
    rw [chars, isName, Bool.and_eq_true, List.all_eq_true] at named
    have filled : ¬ isBlank d = true := not_isBlank_of_isNameStart named.1
    have stop : ¬ isNamePart c = true := by simp [apart.1]
    have first : lexeme? d (ds ++ (c :: cs ++ more)) = some (.name word, c :: cs ++ more) := by
      unfold lexeme?
      rw [if_pos named.1, List.takeWhile_append_of_pos named.2,
        List.dropWhile_append_of_pos named.2, List.cons_append, List.takeWhile_cons_of_neg stop,
        List.dropWhile_cons_of_neg stop, List.append_nil, ← chars, String.ofList_toList]
    rw [List.append_assoc, List.cons_append, lexemes?, if_neg filled, first]
    dsimp only
    rw [h, Option.map_map]
    rfl

theorem lexes_string {value : String} (h : ∀ c ∈ value.toList, Verbatim '"' c) :
    Lexes ('"' :: (value.toList ++ ['"'])) [.string value] := by
  intro more
  rw [List.cons_append, List.append_assoc, List.singleton_append, lexemes?_quote,
    literal?_verbatim h, Option.bind_some]
  dsimp only
  rw [String.ofList_toList]
  rfl

def bindingText (imported bound module : String) : String :=
  "import \x7b " ++ imported ++ " as " ++ bound ++ " \x7d from \"" ++ module ++ "\";\n"

def bindingLexemes (imported bound : String) : List Lexeme :=
  [.name "import", .mark '\x7b', .name imported, .name "as", .name bound, .mark '\x7d',
    .name "from"]

variable {imported bound module : String} {more : List Char}

theorem toList_bindingText (imported bound module : String) :
    (bindingText imported bound module).toList =
      ("import \x7b ".toList ++ (imported.toList ++ (" as ".toList ++
        (bound.toList ++ " \x7d from ".toList)))) ++
        '"' :: (module.toList ++ '"' :: ";\n".toList) := by
  unfold bindingText
  simp only [String.toList_append, List.append_assoc]
  rfl

theorem lexes_binding (first : isName imported.toList = true)
    (second : isName bound.toList = true) :
    Lexes ("import \x7b ".toList ++ (imported.toList ++ (" as ".toList ++
      (bound.toList ++ " \x7d from ".toList)))) (bindingLexemes imported bound) := by
  have opening : Lexes "import \x7b ".toList [.name "import", .mark '\x7b'] :=
    lexes_blank "import \x7b" ' ' (by decide) (by decide +kernel) rfl
  have middle : Lexes " as ".toList [.name "as"] :=
    lexes_blank " as" ' ' (by decide) (by decide +kernel) rfl
  have closing : Lexes " \x7d from ".toList [.mark '\x7d', .name "from"] :=
    lexes_blank " \x7d from" ' ' (by decide) (by decide +kernel) rfl
  have space : Apart ' ' := apart_of_isBlank rfl
  exact opening.append ((middle.append (closing.name second space)).name first space)

/-- A binding is read back if its module can be written as it is. -/
theorem parse?_binding (first : isName imported.toList = true) (second : isName bound.toList = true)
    (h : ∀ c ∈ module.toList, Verbatim '"' c) (more : List Char) :
    parse? ((bindingText imported bound module).toList ++ more) =
      (parse? more).map (.binding imported bound module :: ·) := by
  have whole : Lexes (bindingText imported bound module).toList
      (bindingLexemes imported bound ++ [.string module, .mark ';']) := by
    have ending : Lexes ";\n".toList [.mark ';'] :=
      lexes_blank ";" '\n' (by decide) (by decide +kernel) rfl
    have quoted := (lexes_string h).append ending
    rw [List.cons_append, List.append_assoc] at quoted
    rw [toList_bindingText]
    exact (lexes_binding first second).append quoted
  have read (ls : List Lexeme) :
      statements? (bindingLexemes imported bound ++ [.string module, .mark ';'] ++ ls) =
        (statements? ls).map (.binding imported bound module :: ·) :=
    statements?_append (bindingLexemes imported bound ++ [.string module])
      (by simp [bindingLexemes]) ls
  rw [parse?, parse?, whole more]
  cases lexemes? more with
  | none => rfl
  | some ls => exact read ls

/-- A binding that is read back has a module that can be written as it is. -/
theorem verbatim_of_parse? (first : isName imported.toList = true)
    (second : isName bound.toList = true) (last : ¬ ['\\'] <:+ module.toList) {ss : List Statement}
    (h : parse? ((bindingText imported bound module).toList ++ more) =
      some (.binding imported bound module :: ss)) :
    ∀ c ∈ module.toList, Verbatim '"' c := by
  rw [parse?, toList_bindingText, List.append_assoc, lexes_binding first second, List.cons_append,
    lexemes?_quote, List.append_assoc, List.cons_append] at h
  obtain ⟨all, lexed, h⟩ := Option.bind_eq_some_iff.mp h
  obtain ⟨tail, behind, rfl⟩ := Option.map_eq_some_iff.mp lexed
  obtain ⟨⟨value, rest⟩, denoted, others⟩ := Option.bind_eq_some_iff.mp behind
  obtain ⟨ls, -, rfl⟩ := Option.map_eq_some_iff.mp others
  rw [List.append_cons] at h
  obtain ⟨piece, read⟩ := exists_statement?_of_statements? (by simp [bindingLexemes]) h
  have same : String.ofList value = module := by
    cases piece with
    | nil =>
      cases read
      rfl
    | cons l piece => cases read
  rw [← String.toList_ofList (l := value), same] at denoted
  exact (literal?_reads_iff (by decide) last).mp ⟨rest, denoted⟩

end HybridTemplate.ModuleText
