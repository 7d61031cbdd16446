import HybridTemplate.Lexer.Script
import HybridTemplate.Proofs.Lexer.FormatStrings
import HybridTemplate.Proofs.Pattern.Written
import Mathlib.Data.List.Forall2

set_option autoImplicit false

namespace HybridTemplate.Lexer

open Parts Pattern
open Text (CharSet)

/-- The pattern of the rule is the one that the text is read as. -/
def WrittenAs (rule : Rule) (text : String) : Prop :=
  (ofText? text).map matcher = some rule.matcher

theorem forall₂_writtenAs {rules : List Rule} {texts : List String} (ws : List (Sigma Written))
    (patterns : rules.map (·.matcher) = ws.map (·.1.matcher))
    (forms : texts.map formOfText? == ws.map (some ·.2.form)) :
    List.Forall₂ WrittenAs rules texts := by
  replace forms := eq_of_beq forms
  induction ws generalizing rules texts with
  | nil =>
    obtain rfl := List.map_eq_nil_iff.mp patterns
    obtain rfl := List.map_eq_nil_iff.mp forms
    exact .nil
  | cons w ws ih =>
    obtain ⟨rule, rules, rfl, same, patterns⟩ := List.map_eq_cons_iff.mp patterns
    obtain ⟨text, texts, rfl, form, forms⟩ := List.map_eq_cons_iff.mp forms
    refine .cons ?_ (ih patterns forms)
    rw [WrittenAs, w.2.ofText?_eq (beq_iff_eq.mpr form), same]
    rfl

theorem rules_of_absent {l : Lexer} {state : String} (absent : ∀ s ∈ l.states, state ≠ s.1) :
    l.rules state = [] := by
  have none : l.states.lookup state = none :=
    List.lookup_eq_none_iff.mpr fun s hs => bne_iff_ne.mpr (absent s hs)
  rw [Lexer.rules, none]
  rfl

namespace Parts

def writtenDigitOrUnderscore : Written digitOrUnderscore :=
  .set (CharSet.digits.union (.single '_')) (by simp)

def writtenDigits : Written (seqs digits) := .seq .digit (writtenDigitOrUnderscore.many rfl)

def writtenExponent : Written exponent :=
  .seq (.oneOf "eE") (.seq (.maybe (.oneOf "+-")) (.many1 .digit rfl))

def writtenQuoted (quote : Char) : Written (quoted quote) :=
  .seq (.char quote) (.seq
    (.many (.alt (.noneOf (String.ofList [quote, '\\', '\n'])) (.seq (.char '\\') .inLine)) rfl)
    (.char quote))

def writtenBased (letters members : String) : Written (based letters members []) :=
  .seq (.lit "0") (.seq (.oneOf letters) (.many1 (.oneOf members) rfl))

def writtenAssigning (s : String) : Written (seq (lit s) (maybe (char '='))) :=
  .seq (.lit s) (.maybe (.char '='))

def braceTexts : List String := ["\\\x7d", "\\\x7b"]

theorem braceRules_writtenAs : List.Forall₂ WrittenAs braceRules braceTexts :=
  forall₂_writtenAs [⟨_, .char '}'⟩, ⟨_, .char '{'⟩] rfl (by decide +kernel)

end Parts

namespace Host

def writtenAffix (n : Nat) (h : 1 < n) : Written (affix n) :=
  .upTo true (.set (.ofChars "rbufRBUF".toList) fun c => by
    rw [CharSet.has_ofChars, Bool.eq_iff_iff, List.contains_iff_mem, ← FormatString.isAffix_iff]
    rfl) n h

def writtenLongString (quotes : String) : Written (longString quotes) :=
  .seq (.group 1 (writtenAffix 2 (by decide))) (.group 2 (.seq (.lit quotes) (.seq
    (.few (.alt (.noneOf "\\") (.seq (.char '\\') .anyChar)) rfl) (.lit quotes))))

def writtenShortString (quote : Char) : Written (shortString quote) :=
  .seq (.group 1 (writtenAffix 2 (by decide))) (.group 2 (writtenQuoted quote))

def writtenName : Written (seq wordStart (many wordChar)) :=
  .seq .wordStart (.many .wordChar rfl)

def writtenDeclaration (word : String) : Written (declaration word) :=
  .seq (.group 1 (.lit word))
    (.seq (.group 2 (.many1 .blank Written.mayBeEmpty_blank)) (.group 3 writtenName))

def writtenDecorator :
    Written (seqs [char '@', wordStart, many (one fun c => Text.isWord c || c == '.')]) :=
  .seq (.char '@') (.seq .wordStart
    (.many (.set (CharSet.wordChars.union (.single '.')) (by simp)) rfl))

def writtenNumber : Written number :=
  (writtenBased "xX" "0123456789abcdefABCDEF_").alt <|
  (writtenBased "bB" "01_").alt <|
  (writtenBased "oO" "01234567_").alt <|
  .alt
    (.seq (.maybe writtenDigits) (.seq (.char '.') (.seq .digit (.seq
      (writtenDigitOrUnderscore.many rfl)
      (.seq (.maybe writtenExponent) (.maybe (.char 'j')))))))
    (.seq .digit (.seq (writtenDigitOrUnderscore.many rfl) (.seq
      (.maybe (.seq (.char '.') (writtenDigitOrUnderscore.many rfl)))
      (.seq (.maybe writtenExponent) (.maybe (.char 'j'))))))

def writtenOperator : Written operator :=
  (writtenAssigning "**").alt <| (writtenAssigning "//").alt <| (Written.lit "->").alt <|
  (Written.lit ":=").alt <| (writtenAssigning "<<").alt <| (writtenAssigning ">>").alt <|
  .seq (.oneOf "-+*/%@&|^~<>=!") (.maybe (.char '='))

def texts : List String := [
  "\\s+",
  "\\\\\\n",
  "#[^\\n]*",
  "(?s)((?i:[rbuf]\x7b0,2\x7d))(\"\"\"(?:[^\\\\]|\\\\.)*?\"\"\")",
  "(?s)((?i:[rbuf]\x7b0,2\x7d))('''(?:[^\\\\]|\\\\.)*?''')",
  "((?i:[rbuf]\x7b0,2\x7d))(\"(?:[^\"\\\\\\n]|\\\\.)*\")",
  "((?i:[rbuf]\x7b0,2\x7d))('(?:[^'\\\\\\n]|\\\\.)*')",
  "(def)(\\s+)([^\\W\\d]\\w*)",
  "(class)(\\s+)([^\\W\\d]\\w*)",
  "(?:import|from)\\b",
  "(?:True|False|None)\\b",
  "(?:and|as|assert|async|await|break|continue|del|elif|else|except|finally|for|global|if|in|is|" ++
    "lambda|nonlocal|not|or|pass|raise|return|try|while|with|yield)\\b",
  "(?:abs|all|any|bool|dict|enumerate|filter|float|getattr|hasattr|int|isinstance|len|list|map|" ++
    "max|min|open|print|range|repr|set|sorted|str|sum|super|tuple|type|zip)\\b",
  "@[^\\W\\d][\\w.]*",
  "[^\\W\\d]\\w*",
  "0[xX][0-9a-fA-F_]+|0[bB][01_]+|0[oO][0-7_]+|(?:\\d[\\d_]*)?\\.\\d[\\d_]*(?:[eE][+-]?\\d+)?j?|" ++
    "\\d[\\d_]*(?:\\.[\\d_]*)?(?:[eE][+-]?\\d+)?j?",
  "\\*\\*=?|//=?|->|:=|<<=?|>>=?|[-+*/%@&|^~<>=!]=?",
  "[()\\[\\]\x7b\x7d:,;.]"]

theorem rules_writtenAs : List.Forall₂ WrittenAs rules texts :=
  forall₂_writtenAs [
    ⟨_, .many1 .blank Written.mayBeEmpty_blank⟩,
    ⟨_, .lit "\\\n"⟩,
    ⟨_, .seq (.char '#') (.many .inLine rfl)⟩,
    ⟨_, writtenLongString "\"\"\""⟩,
    ⟨_, writtenLongString "'''"⟩,
    ⟨_, writtenShortString '"'⟩,
    ⟨_, writtenShortString '\''⟩,
    ⟨_, writtenDeclaration "def"⟩,
    ⟨_, writtenDeclaration "class"⟩,
    ⟨_, .keyword ["import", "from"]⟩,
    ⟨_, .keyword ["True", "False", "None"]⟩,
    ⟨_, .keyword keywords⟩,
    ⟨_, .keyword builtins⟩,
    ⟨_, writtenDecorator⟩,
    ⟨_, writtenName⟩,
    ⟨_, writtenNumber⟩,
    ⟨_, writtenOperator⟩,
    ⟨_, .oneOf "()[]\x7b\x7d:,;."⟩]
    rfl (by decide +kernel)

def textsOf (state : String) : List String := if state = "root" then texts else []

/-- Every rule for host expressions has the pattern that is written for it. -/
theorem lexer_writtenAs (state : String) :
    List.Forall₂ WrittenAs (lexer.rules state) (textsOf state) := by
  unfold textsOf
  split
  · rename_i root
    rw [root]
    exact rules_writtenAs
  · rename_i other
    rw [rules_of_absent (by simp [lexer, bare, withState, other])]
    exact .nil

end Host

namespace FormatString

def writtenQuotes : Written (seq (group 1 (Host.affix 3))
    (group 2 (alts [lit "\"\"\"", lit "'''", char '"', char '\'']))) :=
  .seq (.group 1 (Host.writtenAffix 3 (by decide))) (.group 2
    ((Written.lit "\"\"\"").alt ((Written.lit "'''").alt (.alt (.char '"') (.char '\'')))))

def writtenDoubledBrace : Written (alt (lit "\x7b\x7b") (lit "\x7d\x7d")) :=
  .alt (.lit "\x7b\x7b") (.lit "\x7d\x7d")

def literalTexts (escaped plain : String) : List String := [
  "((?i:[rbuf]\x7b0,3\x7d))(\"\"\"|'''|\"|')",
  "\\\x7b\\\x7b|\\\x7d\\\x7d",
  "\\\x7b",
  escaped,
  plain]

def singleTexts : List String := literalTexts "\\\\." "[^\x7b\x7d\\\\\\n\"']+"

def tripleTexts : List String := literalTexts "(?s)\\\\." "[^\x7b\x7d\\\\\"']+"

def interpolationTexts : List String := ["\\\x7d", "![rsa]", "\\\x7b"]

theorem singleRules_writtenAs : List.Forall₂ WrittenAs singleRules singleTexts :=
  forall₂_writtenAs [
    ⟨_, writtenQuotes⟩,
    ⟨_, writtenDoubledBrace⟩,
    ⟨_, .char '{'⟩,
    ⟨_, .seq (.char '\\') .inLine⟩,
    ⟨_, .many1 (.noneOf "\x7b\x7d\\\n\"'") rfl⟩]
    rfl (by decide +kernel)

theorem tripleRules_writtenAs : List.Forall₂ WrittenAs tripleRules tripleTexts :=
  forall₂_writtenAs [
    ⟨_, writtenQuotes⟩,
    ⟨_, writtenDoubledBrace⟩,
    ⟨_, .char '{'⟩,
    ⟨_, .seq (.char '\\') .anyChar⟩,
    ⟨_, .many1 (.noneOf "\x7b\x7d\\\"'") rfl⟩]
    rfl (by decide +kernel)

theorem interpolationRules_writtenAs :
    List.Forall₂ WrittenAs interpolationRules interpolationTexts :=
  forall₂_writtenAs [⟨_, .char '}'⟩, ⟨_, .seq (.char '!') (.oneOf "rsa")⟩, ⟨_, .char '{'⟩]
    rfl (by decide +kernel)

def textsOf (state : String) : List String :=
  match state with
  | "root" => Host.texts
  | "single" => singleTexts
  | "triple" => tripleTexts
  | "interp" => interpolationTexts ++ Host.texts
  | "brace" => braceTexts ++ Host.texts
  | _ => []

/-- Every rule for format strings has the pattern that is written for it. -/
theorem lexer_writtenAs (state : String) :
    List.Forall₂ WrittenAs (lexer.rules state) (textsOf state) := by
  unfold textsOf
  split
  · exact Host.rules_writtenAs
  · exact singleRules_writtenAs
  · exact tripleRules_writtenAs
  · exact List.rel_append interpolationRules_writtenAs Host.rules_writtenAs
  · exact List.rel_append braceRules_writtenAs Host.rules_writtenAs
  · rename_i root single triple interp brace
    have absent : ∀ s ∈ lexer.states, state ≠ s.1 := by
      simp only [lexer, bare, withState, withRulesOf, List.forall_mem_cons]
      exact ⟨brace, brace, interp, interp, triple, single, root, nofun⟩
    rw [rules_of_absent absent]
    exact .nil

end FormatString

namespace Script

def nameStarts : CharSet := (uppers.union lowers).union (.ofChars ['_', '$'])

theorem has_nameStarts (c : Char) : nameStarts.has c = isNameStart c := by
  rw [nameStarts, CharSet.has_union, has_letters]
  simp [isNameStart, Bool.or_assoc, Bool.beq_eq_decide_eq]

def writtenIdentifier : Written identifier :=
  .seq (.set nameStarts has_nameStarts)
    (.many (.set (CharSet.wordChars.union (.single '$')) (by simp)) rfl)

def writtenBasedN (letters members : String) :
    Written (based letters members [maybe (char 'n')]) :=
  .seq (.lit "0") (.seq (.oneOf letters) (.seq (.many1 (.oneOf members) rfl) (.maybe (.char 'n'))))

def writtenNumber : Written number :=
  (writtenBasedN "xX" "0123456789abcdefABCDEF_").alt <|
  (writtenBasedN "bB" "01_").alt <|
  (writtenBasedN "oO" "01234567_").alt <|
  .seq (.maybe writtenDigits) (.seq (.maybe (.char '.')) (.seq .digit (.seq
    (writtenDigitOrUnderscore.many rfl)
    (.seq (.maybe writtenExponent) (.maybe (.char 'n'))))))

def writtenOperator : Written operator :=
  (Written.lit "=>").alt <| (Written.lit "...").alt <| (writtenAssigning "??").alt <|
  (Written.lit "?.").alt <| (writtenAssigning "&&").alt <| (writtenAssigning "||").alt <|
  (writtenAssigning "**").alt <| (writtenAssigning ">>>").alt <| (writtenAssigning "<<").alt <|
  (writtenAssigning ">>").alt <| (writtenAssigning "==").alt <| (writtenAssigning "!=").alt <|
  (Written.lit "++").alt <| (Written.lit "--").alt <|
  .seq (.oneOf "-+*/%&|^~<>=!?") (.maybe (.char '='))

def texts : List String := [
  "\\s+",
  "//[^\\n]*",
  "(?s)/\\*.*?\\*/",
  "\x60",
  "\"(?:[^\"\\\\\\n]|\\\\.)*\"",
  "'(?:[^'\\\\\\n]|\\\\.)*'",
  "(?:import|export|from)\\b",
  "(?:var|let|const|function|class)\\b",
  "(?:true|false|null|undefined|NaN|Infinity)\\b",
  "(?:if|else|for|while|do|break|continue|return|new|delete|typeof|instanceof|in|of|switch|case|" ++
    "default|try|catch|finally|throw|async|await|yield|extends|super|this|void|static|get|set)\\b",
  "(?:Array|Boolean|Date|Error|Function|JSON|Map|Math|Number|Object|Promise|RegExp|Set|String|" ++
    "console|document|window|parseInt|parseFloat)\\b",
  "[A-Za-z_$][\\w$]*",
  "0[xX][0-9a-fA-F_]+n?|0[bB][01_]+n?|0[oO][0-7_]+n?|" ++
    "(?:\\d[\\d_]*)?\\.?\\d[\\d_]*(?:[eE][+-]?\\d+)?n?",
  "=>|\\.\\.\\.|\\?\\?=?|\\?\\.|&&=?|\\|\\|=?|\\*\\*=?|>>>=?|<<=?|>>=?|===?|!==?|\\+\\+|--|" ++
    "[-+*/%&|^~<>=!?]=?",
  "[()\\[\\]\x7b\x7d;,.:]"]

def templateTexts : List String := ["\x60", "(?s)\\\\.", "\\$\\\x7b", "[^\x60\\\\$]+", "\\$"]

def interpolationTexts : List String := ["\\\x7d", "\\\x7b"]

theorem rules_writtenAs : List.Forall₂ WrittenAs rules texts :=
  forall₂_writtenAs [
    ⟨_, .many1 .blank Written.mayBeEmpty_blank⟩,
    ⟨_, .seq (.lit "//") (.many .inLine rfl)⟩,
    ⟨_, .seq (.lit "/*") (.seq (.few .anyChar rfl) (.lit "*/"))⟩,
    ⟨_, .char backtick⟩,
    ⟨_, writtenQuoted '"'⟩,
    ⟨_, writtenQuoted '\''⟩,
    ⟨_, .keyword ["import", "export", "from"]⟩,
    ⟨_, .keyword ["var", "let", "const", "function", "class"]⟩,
    ⟨_, .keyword ["true", "false", "null", "undefined", "NaN", "Infinity"]⟩,
    ⟨_, .keyword keywords⟩,
    ⟨_, .keyword builtins⟩,
    ⟨_, writtenIdentifier⟩,
    ⟨_, writtenNumber⟩,
    ⟨_, writtenOperator⟩,
    ⟨_, .oneOf "()[]\x7b\x7d;,.:"⟩]
    rfl (by decide +kernel)

theorem templateRules_writtenAs : List.Forall₂ WrittenAs templateRules templateTexts :=
  forall₂_writtenAs [
    ⟨_, .char backtick⟩,
    ⟨_, .seq (.char '\\') .anyChar⟩,
    ⟨_, .lit "$\x7b"⟩,
    ⟨_, .many1 (.noneOf (String.ofList [backtick, '\\', '$'])) rfl⟩,
    ⟨_, .char '$'⟩]
    rfl (by decide +kernel)

theorem interpolationRules_writtenAs :
    List.Forall₂ WrittenAs interpolationRules interpolationTexts :=
  forall₂_writtenAs [⟨_, .char '}'⟩, ⟨_, .char '{'⟩] rfl (by decide +kernel)

def textsOf (state : String) : List String :=
  match state with
  | "root" => texts
  | "template" => templateTexts
  | "interp" => interpolationTexts ++ texts
  | "brace" => braceTexts ++ texts
  | _ => []

/-- Every rule for client script has the pattern that is written for it. -/
theorem lexer_writtenAs (state : String) :
    List.Forall₂ WrittenAs (lexer.rules state) (textsOf state) := by
  unfold textsOf
  split
  · exact rules_writtenAs
  · exact templateRules_writtenAs
  · exact List.rel_append interpolationRules_writtenAs rules_writtenAs
  · exact List.rel_append braceRules_writtenAs rules_writtenAs
  · rename_i root template interp brace
    have absent : ∀ s ∈ lexer.states, state ≠ s.1 := by
      simp only [lexer, bare, withState, withRulesOf, List.forall_mem_cons]
      exact ⟨brace, brace, interp, interp, template, root, nofun⟩
    rw [rules_of_absent absent]
    exact .nil

end Script
end HybridTemplate.Lexer
