import HybridTemplate.Digest.Sha256

set_option autoImplicit false

namespace HybridTemplate.Component

open Digest

def hashLength : Nat := 40

/-- The bytes that are hashed: the name, a zero byte, the source. -/
def hashInput (name source : String) : Text.Bytes :=
  Text.encode name ++ 0 :: Text.encode source

def hashDigits (name source : String) : List Char :=
  (hexadecimal (sha256 (hashInput name source))).take hashLength

def contentHash (name source : String) : String := String.ofList (hashDigits name source)

theorem hashDigits_length (name source : String) : (hashDigits name source).length = 40 := by
  simp [hashDigits, hashLength, hexadecimal_length, sha256_length]

def isStemChar (c : Char) : Bool := c.isLower || c.isDigit || c == '_'

/-- How a character of a name is written in the stem. Of the characters beyond ASCII
only the Kelvin sign and the dotted capital I, whose lower case has a letter and a
mark, contain an ASCII letter in lower case; every other one is no stem character. -/
def stemSpelling (c : Char) : List Char :=
  if c == '\u212A' then ['k']
  else if c == '\u0130' then ['i', '_']
  else if isStemChar c.toLower then [c.toLower]
  else ['_']

def stemOf (name : List Char) : List Char :=
  match name.flatMap stemSpelling with
  | [] => "component".toList
  | c :: cs => if c.isDigit then '_' :: c :: cs else c :: cs

def identifierChars (name source : String) : List Char :=
  stemOf name.toList ++ '_' :: hashDigits name source

def identifier (name source : String) : String := String.ofList (identifierChars name source)

theorem stemOf_ne_nil (name : List Char) : stemOf name ≠ [] := by
  unfold stemOf
  split
  · decide
  · split <;> simp

end HybridTemplate.Component
