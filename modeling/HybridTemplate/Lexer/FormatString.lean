import HybridTemplate.Lexer.Host

set_option autoImplicit false

namespace HybridTemplate.Lexer.FormatString

open Parts Pattern

/-- The prefix and the quotes of a literal, or a lone quote inside or behind it. -/
def quotes : Rule :=
  .grouped
    (seq (group 1 (Host.affix 3))
      (group 2 (alts [lit "\"\"\"", lit "'''", char '"', char '\''])))
    [.stringAffix, .string]

def doubledBrace : Rule := .token (alt (lit "\x7b\x7b") (lit "\x7d\x7d")) .stringEscape

def opensInterpolation : Rule := .push (char '{') .stringInterpol "interp"

def singleRules : List Rule := [
  quotes,
  doubledBrace,
  opensInterpolation,
  .token (seq (char '\\') inLine) .stringEscape,
  .token (many1 (noneOf "\x7b\x7d\\\n\"'")) .string]

def tripleRules : List Rule := [
  quotes,
  doubledBrace,
  opensInterpolation,
  .token (seq (char '\\') anyChar) .stringEscape,
  .token (many1 (noneOf "\x7b\x7d\\\"'")) .string]

def interpolationRules : List Rule := [
  .pop (char '}') .stringInterpol,
  .token (seq (char '!') (oneOf "rsa")) .stringInterpol,
  .push (char '{') .punctuation "brace"]

def lexer : Lexer :=
  bare.withState "root" Host.rules
    |>.withState "single" singleRules
    |>.withState "triple" tripleRules
    |>.withState "interp" interpolationRules
    |>.withRulesOf "interp" "root"
    |>.withState "brace" braceRules
    |>.withRulesOf "brace" "root"

def opensTriple : List Char → Bool
  | '"' :: '"' :: '"' :: _ => true
  | '\'' :: '\'' :: '\'' :: _ => true
  | _ => false

/-- The state that fits the quotes behind the prefix letters. -/
def startState (text : String) : String :=
  if opensTriple (text.toList.dropWhile fun c => "rRbBuUfF".toList.contains c) then "triple"
  else "single"

def tokens (text : String) : List Token := lexer.tokensFrom (startState text) text

end HybridTemplate.Lexer.FormatString
