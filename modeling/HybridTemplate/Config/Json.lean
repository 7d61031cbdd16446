set_option autoImplicit false

namespace HybridTemplate.Config

inductive Json where
  | null
  | bool (value : Bool)
  | number
  /-- `none` where the string is no text. -/
  | string (text : Option String)
  | array (elements : List Json)
  | object (members : List (Option String × Json))

namespace Json

def isSpace (c : Char) : Bool := c == ' ' || c == '\n' || c == '\t' || c == '\r'

def skipSpace (cs : List Char) : List Char := cs.dropWhile isSpace

def hexDigit? (c : Char) : Option Nat :=
  if c.isDigit then some (c.toNat - 48)
  else if 'a' ≤ c && c ≤ 'f' then some (c.toNat - 87)
  else if 'A' ≤ c && c ≤ 'F' then some (c.toNat - 55)
  else none

def hexUnit? : List Char → Option (Nat × List Char)
  | a :: b :: c :: d :: cs => do
    let a ← hexDigit? a
    let b ← hexDigit? b
    let c ← hexDigit? c
    let d ← hexDigit? d
    some (((a * 16 + b) * 16 + c) * 16 + d, cs)
  | _ => none

def isHighSurrogate (n : Nat) : Bool := 0xD800 ≤ n && n ≤ 0xDBFF
def isLowSurrogate (n : Nat) : Bool := 0xDC00 ≤ n && n ≤ 0xDFFF

/-- A piece of a string: a character, or a code unit that an escape gives. -/
inductive Piece where
  | char (c : Char)
  | unit (n : Nat)

def namedEscape? : Char → Option Char
  | '"' => some '"'
  | '\\' => some '\\'
  | '/' => some '/'
  | 'b' => some '\x08'
  | 'f' => some '\x0C'
  | 'n' => some '\n'
  | 'r' => some '\r'
  | 't' => some '\t'
  | _ => none

def pieces? : (fuel : Nat) → List Char → Option (List Piece × List Char)
  | 0, _ => none
  | fuel + 1, cs =>
    match cs with
    | [] => none
    | '"' :: rest => some ([], rest)
    | '\\' :: 'u' :: rest => do
      let (n, rest) ← hexUnit? rest
      let (more, rest) ← pieces? fuel rest
      some (.unit n :: more, rest)
    | '\\' :: e :: rest => do
      let c ← namedEscape? e
      let (more, rest) ← pieces? fuel rest
      some (.char c :: more, rest)
    | c :: rest =>
      if c.val < 0x20 then none
      else do
        let (more, rest) ← pieces? fuel rest
        some (.char c :: more, rest)

def textOf? : List Piece → Option (List Char)
  | [] => some []
  | .char c :: ps => (textOf? ps).map (c :: ·)
  | .unit high :: .unit low :: ps =>
    if isHighSurrogate high then
      if isLowSurrogate low then
        (textOf? ps).map (Char.ofNat (0x10000 + (high - 0xD800) * 0x400 + (low - 0xDC00)) :: ·)
      else none
    else if isLowSurrogate high then none
    else (textOf? (.unit low :: ps)).map (Char.ofNat high :: ·)
  | .unit n :: ps =>
    if isHighSurrogate n || isLowSurrogate n then none
    else (textOf? ps).map (Char.ofNat n :: ·)

def string? (cs : List Char) : Option (Option String × List Char) :=
  (pieces? (cs.length + 1) cs).map fun (ps, rest) => ((textOf? ps).map String.ofList, rest)

def digits? (cs : List Char) : Option (List Char) :=
  match cs with
  | [] => none
  | c :: rest => if c.isDigit then some (rest.dropWhile Char.isDigit) else none

def fraction? : List Char → Option (List Char)
  | '.' :: cs => digits? cs
  | cs => some cs

def exponent? (cs : List Char) : Option (List Char) :=
  match cs with
  | [] => some []
  | c :: rest =>
    if c = 'e' ∨ c = 'E' then
      match rest with
      | '+' :: rest => digits? rest
      | '-' :: rest => digits? rest
      | _ => digits? rest
    else some (c :: rest)

/-- What follows a number; a leading zero stands alone. -/
def number? (cs : List Char) : Option (List Char) := do
  let unsigned := match cs with
    | '-' :: rest => rest
    | _ => cs
  let whole ← match unsigned with
    | '0' :: rest => some rest
    | _ => digits? unsigned
  exponent? (← fraction? whole)

mutual

def value? : (fuel : Nat) → List Char → Option (Json × List Char)
  | 0, _ => none
  | fuel + 1, cs =>
    match skipSpace cs with
    | [] => none
    | 'n' :: 'u' :: 'l' :: 'l' :: rest => some (.null, rest)
    | 't' :: 'r' :: 'u' :: 'e' :: rest => some (.bool true, rest)
    | 'f' :: 'a' :: 'l' :: 's' :: 'e' :: rest => some (.bool false, rest)
    | '"' :: rest => (string? rest).map fun (s, rest) => (.string s, rest)
    | '[' :: rest =>
      match skipSpace rest with
      | ']' :: rest => some (.array [], rest)
      | _ => (elements? fuel rest).map fun (es, rest) => (.array es, rest)
    | '{' :: rest =>
      match skipSpace rest with
      | '}' :: rest => some (.object [], rest)
      | _ => (members? fuel rest).map fun (ms, rest) => (.object ms, rest)
    | c :: rest => (number? (c :: rest)).map fun rest => (.number, rest)

def elements? : (fuel : Nat) → List Char → Option (List Json × List Char)
  | 0, _ => none
  | fuel + 1, cs => do
    let (e, rest) ← value? fuel cs
    match skipSpace rest with
    | ',' :: rest => do
      let (es, rest) ← elements? fuel rest
      some (e :: es, rest)
    | ']' :: rest => some ([e], rest)
    | _ => none

def members? : (fuel : Nat) → List Char → Option (List (Option String × Json) × List Char)
  | 0, _ => none
  | fuel + 1, cs =>
    match skipSpace cs with
    | '"' :: rest => do
      let (key, rest) ← string? rest
      match skipSpace rest with
      | ':' :: rest => do
        let (e, rest) ← value? fuel rest
        match skipSpace rest with
        | ',' :: rest => do
          let (ms, rest) ← members? fuel rest
          some ((key, e) :: ms, rest)
        | '}' :: rest => some ([(key, e)], rest)
        | _ => none
      | _ => none
    | _ => none

end

def ofText? (s : String) : Option Json := do
  let (value, rest) ← value? (2 * s.length + 2) s.toList
  if (skipSpace rest).isEmpty then some value else none

end Json
end HybridTemplate.Config
