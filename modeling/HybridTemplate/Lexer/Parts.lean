import HybridTemplate.Lexer.Basic

set_option autoImplicit false

namespace HybridTemplate.Lexer.Parts

open Pattern

def digitOrUnderscore : Pattern := one fun c => Text.isDigit c || c == '_'

def digits : List Pattern := [digit, many digitOrUnderscore]

def exponent : Pattern := seqs [oneOf "eE", maybe (oneOf "+-"), many1 digit]

def based (letters members : String) (suffix : List Pattern) : Pattern :=
  seqs ([lit "0", oneOf letters, many1 (oneOf members)] ++ suffix)

def basedNumbers (suffix : List Pattern) : List Pattern := [
  based "xX" "0123456789abcdefABCDEF_" suffix, based "bB" "01_" suffix,
  based "oO" "01234567_" suffix]

def quoted (quote : Char) : Pattern :=
  seqs [char quote,
    many (alt (noneOf (String.ofList [quote, '\\', '\n'])) (seq (char '\\') inLine)),
    char quote]

def braceRules : List Rule := [
  .pop (char '}') .punctuation,
  .push (char '{') .punctuation "brace"]

end HybridTemplate.Lexer.Parts
