import HybridTemplate.Lexer.FormatString
import HybridTemplate.Lexer.Script
import HybridTemplate.Run
import HybridTemplate.Text.LowercaseLetter
import HybridTemplate.Traversal.Table

set_option autoImplicit false

/-! The structural pass turns a tree into runs: a node of a kind that has a meaning for
highlighting gives its whole text, whatever stands below it. Then every run in an embedded
language is lexed by that language's lexer and its tokens are moved to where the run begins. -/
namespace HybridTemplate.Highlight

/-- Element names in lower case are markup, all others name components. -/
def elementNameCategory (name : String) : Category :=
  if Text.startsLowercase name then .nameElement else .nameComponent

def tokenKind? (kind : Kind) (text : String) : Option TokenKind :=
  match kind with
  | .hostCode | .hostComment | .hostString | .componentName => some (.embedded .host)
  | .formatString => some (.embedded .formatString)
  | .clientExpr | .scriptCode | .staticImport => some (.embedded .script)
  | .space => some (.terminal .whitespace)
  | .punct => some (.terminal .punctuation)
  | .elementPunct => some (.terminal .elementPunctuation)
  | .elementName => some (.terminal (elementNameCategory text))
  | .attributeName => some (.terminal .nameAttribute)
  | .operator => some (.terminal .operator)
  | .quotedValue => some (.terminal .string)
  | .markupText => some (.terminal .markupText)
  | .markupComment => some (.terminal .markupComment)
  | .serverEmbedDelim => some (.terminal .serverEmbedPunctuation)
  | .clientEmbedDelim => some (.terminal .clientEmbedPunctuation)
  | _ => none

theorem tokenKind?_isSome_text (kind : Kind) (s t : String) :
    (tokenKind? kind s).isSome = (tokenKind? kind t).isSome := by
  cases kind <;> rfl

def itemHandler : Handler CompileError Unit (Run TokenKind) := fun n values =>
  match tokenKind? n.kind n.text with
  | some k => pure (.item ⟨k, n.text⟩)
  | none => pure (Table.passOn n values)

def table : Table CompileError Unit (Run TokenKind) where
  handler? kind := if (tokenKind? kind "").isSome then some itemHandler else none
  hook? _ := none

def runs (tree : Node) : Except CompileError (List (Run TokenKind)) :=
  ((table.visit tree).run.run ()).1.bind merge

abbrev Lexers := SubLanguage → Option (String → List Token)

def builtinLexers : Lexers
  | .host => some Lexer.Host.lexer.tokens
  | .script => some Lexer.Script.lexer.tokens
  | .formatString => some Lexer.FormatString.tokens

def firstUnresolved? (lexers : Lexers) (rs : List (Run TokenKind)) : Option SubLanguage :=
  rs.findSome? fun r =>
    match r.kind with
    | .embedded language => if (lexers language).isNone then some language else none
    | .terminal _ => none

def expandRun (lexers : Lexers) (offset : Nat) (r : Run TokenKind) : List Token :=
  match r.kind with
  | .terminal category => [⟨offset, category, r.text⟩]
  | .embedded language =>
    match lexers language with
    | some lex => (lex r.text).map (·.shift offset)
    | none => []

def expand (lexers : Lexers) (offset : Nat) : List (Run TokenKind) → List Token
  | [] => []
  | r :: rs => expandRun lexers offset r ++ expand lexers (offset + r.text.utf8ByteSize) rs

def tokensOfTree (lexers : Lexers) (tree : Node) : Except CompileError (List Token) := do
  let rs ← runs tree
  match firstUnresolved? lexers rs with
  | some language => .error (.unresolvedSubLanguage language)
  | none => .ok (expand lexers tree.start rs)

def tokens (grammar : Grammar) (lexers : Lexers) (source : String) :
    Except CompileError (List Token) :=
  match grammar source with
  | .error e => .error (.atOffset anonymousFile source e.offset (.unparsable e.message))
  | .ok tree => tokensOfTree lexers tree

end HybridTemplate.Highlight
