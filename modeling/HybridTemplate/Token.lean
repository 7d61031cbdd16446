set_option autoImplicit false

namespace HybridTemplate

inductive Category where
  | text | whitespace | error
  | keyword | keywordConstant | keywordDeclaration | keywordNamespace
  | name | nameBuiltin | nameFunction | nameClass | nameDecorator | nameOther
  | nameAttribute | nameElement | nameComponent
  | string | stringAffix | stringEscape | stringInterpol | stringBacktick
  | number | operator
  | punctuation | elementPunctuation | serverEmbedPunctuation | clientEmbedPunctuation
  | comment | commentSingle | commentMultiline
  | markupText | markupComment
deriving DecidableEq, Repr

namespace Category

def label : Category → String
  | text => "Text"
  | whitespace => "Text.Whitespace"
  | error => "Error"
  | keyword => "Keyword"
  | keywordConstant => "Keyword.Constant"
  | keywordDeclaration => "Keyword.Declaration"
  | keywordNamespace => "Keyword.Namespace"
  | name => "Name"
  | nameBuiltin => "Name.Builtin"
  | nameFunction => "Name.Function"
  | nameClass => "Name.Class"
  | nameDecorator => "Name.Decorator"
  | nameOther => "Name.Other"
  | nameAttribute => "Name.Attribute"
  | nameElement => "Name.HtmlElement"
  | nameComponent => "Name.ComponentElement"
  | string => "Literal.String"
  | stringAffix => "Literal.String.Affix"
  | stringEscape => "Literal.String.Escape"
  | stringInterpol => "Literal.String.Interpol"
  | stringBacktick => "Literal.String.Backtick"
  | number => "Literal.Number"
  | operator => "Operator"
  | punctuation => "Punctuation"
  | elementPunctuation => "Punctuation.ElementPunctuation"
  | serverEmbedPunctuation => "Punctuation.ServerEmbedPunctuation"
  | clientEmbedPunctuation => "Punctuation.ClientEmbedPunctuation"
  | comment => "Comment"
  | commentSingle => "Comment.Single"
  | commentMultiline => "Comment.Multiline"
  | markupText => "Text.HtmlText"
  | markupComment => "Comment.HtmlComment"

def all : List Category := [
  text, whitespace, error, keyword, keywordConstant, keywordDeclaration, keywordNamespace, name,
  nameBuiltin, nameFunction, nameClass, nameDecorator, nameOther, nameAttribute, nameElement,
  nameComponent, string, stringAffix, stringEscape, stringInterpol, stringBacktick, number,
  operator, punctuation, elementPunctuation, serverEmbedPunctuation, clientEmbedPunctuation,
  comment, commentSingle, commentMultiline, markupText, markupComment]

theorem mem_all (c : Category) : c ∈ all := by cases c <;> decide

def ofLabel? (s : String) : Option Category := all.find? fun c => c.label == s

end Category

inductive SubLanguage where
  | host | script | formatString
deriving DecidableEq, Repr

namespace SubLanguage

def name : SubLanguage → String
  | host => "host"
  | script => "script"
  | formatString => "format-string"

end SubLanguage

/-- A stretch is categorised for good, or it waits for the lexer of its language. -/
inductive TokenKind where
  | terminal (category : Category)
  | embedded (language : SubLanguage)
deriving DecidableEq, Repr

namespace TokenKind

def label : TokenKind → String
  | terminal c => c.label
  | embedded l => s!"<{l.name}>"

end TokenKind

structure Token where
  offset : Nat
  category : Category
  text : String
deriving DecidableEq, Repr

namespace Token

def stop (t : Token) : Nat := t.offset + t.text.utf8ByteSize

def shift (n : Nat) (t : Token) : Token := { t with offset := n + t.offset }

/-- Puts a token in front of coalesced ones: a following token of its category becomes a
part of it, and a token without text is left out. -/
def prepend (t : Token) (ts : List Token) : List Token :=
  if t.text = "" then ts
  else match ts with
    | [] => [t]
    | s :: ts =>
      if t.category = s.category then ⟨t.offset, t.category, t.text ++ s.text⟩ :: ts
      else t :: s :: ts

/-- Joins neighbours of one category and drops tokens without text. -/
def coalesce (ts : List Token) : List Token := ts.foldr prepend []

end Token
end HybridTemplate
