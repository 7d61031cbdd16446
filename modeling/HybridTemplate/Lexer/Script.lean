import HybridTemplate.Lexer.Parts

set_option autoImplicit false

namespace HybridTemplate.Lexer.Script

open Parts Pattern

def keywords : List String := [
  "if", "else", "for", "while", "do", "break", "continue", "return", "new", "delete", "typeof",
  "instanceof", "in", "of", "switch", "case", "default", "try", "catch", "finally", "throw",
  "async", "await", "yield", "extends", "super", "this", "void", "static", "get", "set"]

def builtins : List String := [
  "Array", "Boolean", "Date", "Error", "Function", "JSON", "Map", "Math", "Number", "Object",
  "Promise", "RegExp", "Set", "String", "console", "document", "window", "parseInt", "parseFloat"]

def backtick : Char := '\x60'

def blockComment : Pattern := seqs [lit "/*", few anyChar, lit "*/"]

def isNameStart (c : Char) : Bool := c.isAlpha || c == '_' || c == '$'

def identifier : Pattern :=
  seq (one isNameStart) (many (one fun c => Text.isWord c || c == '$'))

def number : Pattern :=
  alts (basedNumbers [maybe (char 'n')] ++ [
    seqs (maybe (seqs digits) :: maybe (char '.') :: digits ++ [maybe exponent, maybe (char 'n')])])

def operator : Pattern := alts [
  lit "=>", lit "...", seq (lit "??") (maybe (char '=')), lit "?.",
  seq (lit "&&") (maybe (char '=')), seq (lit "||") (maybe (char '=')),
  seq (lit "**") (maybe (char '=')), seq (lit ">>>") (maybe (char '=')),
  seq (lit "<<") (maybe (char '=')), seq (lit ">>") (maybe (char '=')),
  seq (lit "==") (maybe (char '=')), seq (lit "!=") (maybe (char '=')), lit "++", lit "--",
  seq (oneOf "-+*/%&|^~<>=!?") (maybe (char '='))]

def rules : List Rule := [
  .token (many1 blank) .whitespace,
  .token (seq (lit "//") (many inLine)) .commentSingle,
  .token blockComment .commentMultiline,
  .push (char backtick) .stringBacktick "template",
  .token (quoted '"') .string,
  .token (quoted '\'') .string,
  .token (keyword ["import", "export", "from"]) .keywordNamespace,
  .token (keyword ["var", "let", "const", "function", "class"]) .keywordDeclaration,
  .token (keyword ["true", "false", "null", "undefined", "NaN", "Infinity"]) .keywordConstant,
  .token (keyword keywords) .keyword,
  .token (keyword builtins) .nameBuiltin,
  .token identifier .nameOther,
  .token number .number,
  .token operator .operator,
  .token (oneOf "()[]\x7b\x7d;,.:") .punctuation]

def templateRules : List Rule := [
  .pop (char backtick) .stringBacktick,
  .token (seq (char '\\') anyChar) .stringEscape,
  .push (lit "$\x7b") .stringInterpol "interp",
  .token (many1 (noneOf (String.ofList [backtick, '\\', '$']))) .stringBacktick,
  .token (char '$') .stringBacktick]

def interpolationRules : List Rule := [
  .pop (char '}') .stringInterpol,
  .push (char '{') .punctuation "brace"]

def lexer : Lexer :=
  bare.withState "root" rules
    |>.withState "template" templateRules
    |>.withState "interp" interpolationRules
    |>.withRulesOf "interp" "root"
    |>.withState "brace" braceRules
    |>.withRulesOf "brace" "root"

end HybridTemplate.Lexer.Script
