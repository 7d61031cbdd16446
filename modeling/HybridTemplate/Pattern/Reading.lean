import HybridTemplate.Pattern.Form

set_option autoImplicit false

/-! The usual written form: alternatives between bars, quantifiers behind what they repeat,
classes in square brackets, groups in parentheses, and the modes `i` (letters stand for their case
variants) and `s` (the dot accepts line ends) from where they are set to the end of the enclosing
group. A text that is no pattern is refused. -/
namespace HybridTemplate.Pattern

open Text (CharSet)

structure Modes where
  anyCase : Bool
  dotAll : Bool

namespace Modes

def plain : Modes := ⟨false, false⟩

def widen (m : Modes) (s : CharSet) : CharSet := if m.anyCase then s.closeCase else s

def dot (m : Modes) : Form :=
  .set (if m.dotAll then .full else (CharSet.single '\n').complement)

def literal (m : Modes) (c : Char) : Form := .ofSet (m.widen (.single c))

end Modes

def namedClass? : Char → Option CharSet
  | 's' => some .blanks
  | 'S' => some CharSet.blanks.complement
  | 'w' => some .wordChars
  | 'W' => some CharSet.wordChars.complement
  | 'd' => some .digits
  | 'D' => some CharSet.digits.complement
  | _ => none

def asciiClass? (name : String) : Option CharSet :=
  match name with
  | "alnum" => some (.ofRanges [(0x30, 0x39), (0x41, 0x5A), (0x61, 0x7A)])
  | "alpha" => some (.ofRanges [(0x41, 0x5A), (0x61, 0x7A)])
  | "ascii" => some (.ofRanges [(0x00, 0x7F)])
  | "blank" => some (.ofRanges [(0x09, 0x09), (0x20, 0x20)])
  | "cntrl" => some (.ofRanges [(0x00, 0x1F), (0x7F, 0x7F)])
  | "digit" => some (.ofRanges [(0x30, 0x39)])
  | "graph" => some (.ofRanges [(0x21, 0x7E)])
  | "lower" => some (.ofRanges [(0x61, 0x7A)])
  | "print" => some (.ofRanges [(0x20, 0x7E)])
  | "punct" => some (.ofRanges [(0x21, 0x2F), (0x3A, 0x40), (0x5B, 0x60), (0x7B, 0x7E)])
  | "space" => some (.ofRanges [(0x09, 0x0D), (0x20, 0x20)])
  | "upper" => some (.ofRanges [(0x41, 0x5A)])
  | "word" => some (.ofRanges [(0x30, 0x39), (0x41, 0x5A), (0x5F, 0x5F), (0x61, 0x7A)])
  | "xdigit" => some (.ofRanges [(0x30, 0x39), (0x41, 0x46), (0x61, 0x66)])
  | _ => none

def escapedChar? : Char → Option Char
  | 'n' => some '\n'
  | 't' => some '\t'
  | 'r' => some '\r'
  | 'f' => some '\x0C'
  | 'v' => some '\x0B'
  | 'a' => some '\x07'
  | c => if c.val < 128 && !c.isAlphanum && c != '<' && c != '>' then some c else none

def takeChar (c : Char) : List Char → Bool × List Char
  | [] => (false, [])
  | d :: ds => if d = c then (true, ds) else (false, d :: ds)

def namedAscii? (cs : List Char) : Option (CharSet × List Char) :=
  match cs with
  | ':' :: rest =>
    let (negated, rest) := takeChar '^' rest
    match rest.dropWhile (· != ':') with
    | ':' :: ']' :: after =>
      (asciiClass? (String.ofList (rest.takeWhile (· != ':')))).map fun s =>
        (if negated then s.complement else s, after)
    | _ => none
  | _ => none

def classItem? : List Char → Option ((Char ⊕ CharSet) × List Char)
  | '\\' :: e :: cs =>
    match namedClass? e with
    | some s => some (.inr s, cs)
    | none => (escapedChar? e).map fun c => (.inl c, cs)
  | '\\' :: [] => none
  | c :: cs => some (.inl c, cs)
  | [] => none

/-- Whether a hyphen opens a range here, rather than being a member or an operation. -/
def opensRange : List Char → Bool
  | '-' :: ']' :: _ => false
  | '-' :: '-' :: _ => false
  | '-' :: _ => true
  | _ => false

def classRange? (cs : List Char) : Option (CharSet × List Char) :=
  (classItem? cs).bind fun (item, rest) =>
    if opensRange rest then
      (classItem? rest.tail).bind fun (ending, rest) =>
        match item, ending with
        | .inl first, .inl last =>
          if h : first ≤ last then some (.between first last h, rest) else none
        | _, _ => none
    else
      match item with
      | .inl c => some (.single c, rest)
      | .inr s => some (s, rest)

inductive ClassOperation where
  | intersection
  | difference
  | symmetricDifference

namespace ClassOperation

def apply (o : ClassOperation) (s t : CharSet) : CharSet :=
  match o with
  | intersection => s.inter t
  | difference => s.difference t
  | symmetricDifference => (s.union t).difference (s.inter t)

end ClassOperation

/-- A class up to a place of its writing: an operation with its left side, if there is one,
and the members since. -/
structure OpenClass where
  pending : Option (ClassOperation × CharSet)
  members : CharSet

namespace OpenClass

def begin : OpenClass := ⟨none, .empty⟩

def add (o : OpenClass) (s : CharSet) : OpenClass := { o with members := o.members.union s }

def value (m : Modes) (o : OpenClass) : CharSet :=
  match o.pending with
  | some (operation, left) => operation.apply (m.widen left) (m.widen o.members)
  | none => o.members

def operate (m : Modes) (operation : ClassOperation) (o : OpenClass) : OpenClass :=
  ⟨some (operation, o.value m), .empty⟩

end OpenClass

mutual

/-- A class behind its opening bracket. Hyphens that stand first are members, and so is a
closing bracket that stands first. -/
def class? : (fuel : Nat) → Modes → List Char → Option (CharSet × List Char)
  | 0, _, _ => none
  | fuel + 1, m, cs =>
    let (negated, cs) := takeChar '^' cs
    let rest := cs.dropWhile (· == '-')
    let opened : OpenClass × List Char :=
      match cs, rest with
      | ']' :: _, ']' :: rest => (OpenClass.begin.add (.single ']'), rest)
      | '-' :: _, rest => (OpenClass.begin.add (.single '-'), rest)
      | _, rest => (.begin, rest)
    (classMembers? fuel m opened.1 opened.2).map fun (s, rest) =>
      (if negated then (m.widen s).complement else m.widen s, rest)

def classMembers? : (fuel : Nat) → Modes → OpenClass → List Char → Option (CharSet × List Char)
  | 0, _, _, _ => none
  | fuel + 1, m, o, cs =>
    match cs with
    | [] => none
    | ']' :: rest => some (o.value m, rest)
    | '&' :: '&' :: rest => classMembers? fuel m (o.operate m .intersection) rest
    | '-' :: '-' :: rest => classMembers? fuel m (o.operate m .difference) rest
    | '~' :: '~' :: rest => classMembers? fuel m (o.operate m .symmetricDifference) rest
    | '[' :: rest =>
      match namedAscii? rest with
      | some (s, rest) => classMembers? fuel m (o.add s) rest
      | none =>
        (class? fuel m rest).bind fun (s, rest) => classMembers? fuel m (o.add s) rest
    | _ => (classRange? cs).bind fun (s, rest) => classMembers? fuel m (o.add s) rest

end

def escape? (m : Modes) : List Char → Option (Form × List Char)
  | 'b' :: cs => some (.wordBoundary, cs)
  | 'A' :: cs => some (.start, cs)
  | 'z' :: cs => some (.stop, cs)
  | e :: cs =>
    match namedClass? e with
    | some s => some (.set s, cs)
    | none => (escapedChar? e).map fun c => (m.literal c, cs)
  | [] => none

def number? (cs : List Char) : Option (Nat × List Char) :=
  let cs := cs.dropWhile Text.isBlank
  match cs.takeWhile Char.isDigit with
  | [] => none
  | ds =>
    let n := ds.foldl (fun n d => 10 * n + (d.toNat - 48)) 0
    if n < 4294967296 then some (n, (cs.dropWhile Char.isDigit).dropWhile Text.isBlank) else none

def bounds? (cs : List Char) : Option ((Nat × Option Nat) × List Char) :=
  (number? cs).bind fun (least, rest) =>
    match rest with
    | '}' :: rest => some ((least, some least), rest)
    | ',' :: '}' :: rest => some ((least, none), rest)
    | ',' :: rest =>
      (number? rest).bind fun (most, rest) =>
        match rest with
        | '}' :: rest => if least ≤ most then some ((least, some most), rest) else none
        | _ => none
    | _ => none

def repetition (bounds : Nat × Option Nat) (f : Form) (cs : List Char) : Form × List Char :=
  let (reluctant, rest) := takeChar '?' cs
  (f.times bounds.1 bounds.2 !reluctant, rest)

def quantified? : (fuel : Nat) → Form × List Char → Option (Form × List Char)
  | 0, r => some r
  | fuel + 1, (f, cs) =>
    match cs with
    | '*' :: rest => quantified? fuel (repetition (0, none) f rest)
    | '+' :: rest => quantified? fuel (repetition (1, none) f rest)
    | '?' :: rest => quantified? fuel (repetition (0, some 1) f rest)
    | '{' :: rest =>
      (bounds? rest).bind fun (bounds, rest) => quantified? fuel (repetition bounds f rest)
    | _ => some (f, cs)

/-- The modes that are switched on and off in a group's head, and what ends the head.
`given` are the signs of the head so far, the latest first: each may stand there once, a
hyphen not at the end, and a head that opens no group has at least one. -/
def modes? (on : Bool) (given : List Char) (m : Modes) :
    List Char → Option (Modes × Char × List Char)
  | [] => none
  | c :: cs =>
    if given.contains c then none
    else
      match c with
      | 'i' => modes? on ('i' :: given) { m with anyCase := on } cs
      | 's' => modes? on ('s' :: given) { m with dotAll := on } cs
      | '-' => modes? false ('-' :: given) m cs
      | ':' => if given.head? = some '-' then none else some (m, ':', cs)
      | ')' => if given.head? = some '-' ∨ given = [] then none else some (m, ')', cs)
      | _ => none

def opensQuantifier : List Char → Bool
  | [] => false
  | c :: _ => ['*', '+', '?', '\x7B'].contains c

def item? (m : Modes) (c : Char) (cs : List Char) : Option (Form × List Char) :=
  match c with
  | '[' => (class? (2 * cs.length + 1) m cs).map fun (s, rest) => (.ofSet s, rest)
  | '\\' => escape? m cs
  | '.' => some (m.dot, cs)
  | '^' => some (.start, cs)
  | '$' => some (.stop, cs)
  | _ => if opensQuantifier (c :: cs) then none else some (m.literal c, cs)

structure Progress where
  form : Form
  modes : Modes
  groups : Nat
  rest : List Char

mutual

def alternatives? : (fuel : Nat) → Modes → Nat → List Char → List Form → Option Progress
  | 0, _, _, _, _ => none
  | fuel + 1, m, groups, cs, done =>
    (sequence? fuel m groups cs []).bind fun r =>
      match r.rest with
      | '|' :: rest => alternatives? fuel r.modes r.groups rest (r.form :: done)
      | _ => some { r with form := .either (r.form :: done).reverse }

/-- Items one after another, behind those that have been read, the latest first. -/
def sequence? : (fuel : Nat) → Modes → Nat → List Char → List Form → Option Progress
  | 0, _, _, _, _ => none
  | fuel + 1, m, groups, cs, done =>
    match cs with
    | [] => some ⟨.chain done.reverse, m, groups, []⟩
    | '|' :: _ => some ⟨.chain done.reverse, m, groups, cs⟩
    | ')' :: _ => some ⟨.chain done.reverse, m, groups, cs⟩
    | '(' :: '?' :: rest =>
      (modes? true [] m rest).bind fun (inner, ending, rest) =>
        if ending = ')' then
          if opensQuantifier rest then none else sequence? fuel inner groups rest done
        else
          (alternatives? fuel inner groups rest []).bind fun r =>
            match r.rest with
            | ')' :: rest =>
              (quantified? rest.length (r.form, rest)).bind fun (f, rest) =>
                sequence? fuel m r.groups rest (f :: done)
            | _ => none
    | '(' :: rest =>
      (alternatives? fuel m (groups + 1) rest []).bind fun r =>
        match r.rest with
        | ')' :: rest =>
          (quantified? rest.length (.group (groups + 1) r.form, rest)).bind fun (f, rest) =>
            sequence? fuel m r.groups rest (f :: done)
        | _ => none
    | c :: rest =>
      (item? m c rest).bind fun r =>
        (quantified? r.2.length r).bind fun (f, rest) => sequence? fuel m groups rest (f :: done)

end

/-- How large a pattern may become when its counted repetitions are written out. -/
def sizeLimit : Nat := 327680

def formOfText? (s : String) : Option Form :=
  (alternatives? (2 * s.length + 2) .plain 0 s.toList []).bind fun r =>
    if r.rest.isEmpty && r.form.size ≤ sizeLimit then some r.form else none

def ofText? (s : String) : Option Pattern := (formOfText? s).map (·.pattern false 1)

end HybridTemplate.Pattern
