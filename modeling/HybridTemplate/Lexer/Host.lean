import HybridTemplate.Lexer.Parts

set_option autoImplicit false

namespace HybridTemplate.Lexer.Host

open Parts Pattern

def keywords : List String := [
  "and", "as", "assert", "async", "await", "break", "continue", "del", "elif", "else", "except",
  "finally", "for", "global", "if", "in", "is", "lambda", "nonlocal", "not", "or", "pass", "raise",
  "return", "try", "while", "with", "yield"]

def builtins : List String := [
  "abs", "all", "any", "bool", "dict", "enumerate", "filter", "float", "getattr", "hasattr", "int",
  "isinstance", "len", "list", "map", "max", "min", "open", "print", "range", "repr", "set",
  "sorted", "str", "sum", "super", "tuple", "type", "zip"]

def affix (n : Nat) : Pattern := upTo true (letterOf "rbuf") n

def longString (quotes : String) : Pattern :=
  seqs [group 1 (affix 2),
    group 2 (seqs [lit quotes, few (alt (noneOf "\\") (seq (char '\\') anyChar)), lit quotes])]

def shortString (quote : Char) : Pattern := seq (group 1 (affix 2)) (group 2 (quoted quote))

def declaration (word : String) : Pattern :=
  seqs [group 1 (lit word), group 2 (many1 blank), group 3 (seq wordStart (many wordChar))]

def number : Pattern :=
  let ending := [maybe exponent, maybe (char 'j')]
  alts (basedNumbers [] ++ [
    seqs (maybe (seqs digits) :: char '.' :: digits ++ ending),
    seqs (digits ++ maybe (seq (char '.') (many digitOrUnderscore)) :: ending)])

def operator : Pattern := alts [
  seq (lit "**") (maybe (char '=')), seq (lit "//") (maybe (char '=')), lit "->", lit ":=",
  seq (lit "<<") (maybe (char '=')), seq (lit ">>") (maybe (char '=')),
  seq (oneOf "-+*/%@&|^~<>=!") (maybe (char '='))]

def rules : List Rule := [
  .token (many1 blank) .whitespace,
  .token (lit "\\\n") .text,
  .token (seq (char '#') (many inLine)) .commentSingle,
  .grouped (longString "\"\"\"") [.stringAffix, .string],
  .grouped (longString "'''") [.stringAffix, .string],
  .grouped (shortString '"') [.stringAffix, .string],
  .grouped (shortString '\'') [.stringAffix, .string],
  .grouped (declaration "def") [.keyword, .whitespace, .nameFunction],
  .grouped (declaration "class") [.keyword, .whitespace, .nameClass],
  .token (keyword ["import", "from"]) .keywordNamespace,
  .token (keyword ["True", "False", "None"]) .keywordConstant,
  .token (keyword keywords) .keyword,
  .token (keyword builtins) .nameBuiltin,
  .token (seqs [char '@', wordStart, many (one fun c => Text.isWord c || c == '.')])
    .nameDecorator,
  .token (seq wordStart (many wordChar)) .name,
  .token number .number,
  .token operator .operator,
  .token (oneOf "()[]\x7b\x7d:,;.") .punctuation]

def lexer : Lexer := bare.withState "root" rules

end HybridTemplate.Lexer.Host
