import HybridTemplate.Pattern.Reading
import HybridTemplate.Pattern.Matcher
import HybridTemplate.Proofs.Lexer.Rules

set_option autoImplicit false

/-! What a normal form is taken apart into depends on the numbers of its choices only where
something repeated may be empty. The forms here have no such part, so each of them belongs to one
pattern, and a pattern that is built from others has a form that is built alike. -/
namespace HybridTemplate.Pattern

open Text (CharSet)

theorem inRanges_wordRanges (c : Char) : Text.inRanges Text.wordRanges c = Text.isWord c := by
  let Same (c : Char) : Prop := Text.inRanges Text.wordRanges c = Text.isAsciiWord c
  have codes : ∀ n < 128, Same (Char.ofNat n) := by decide +kernel
  unfold Text.isWord
  split
  · exact Lexer.forall_ascii codes ‹_›
  · rfl

theorem inRanges_digitRanges (c : Char) : Text.inRanges Text.digitRanges c = Text.isDigit c := by
  let Same (c : Char) : Prop := Text.inRanges Text.digitRanges c = c.isDigit
  have codes : ∀ n < 128, Same (Char.ofNat n) := by decide +kernel
  unfold Text.isDigit
  split
  · exact Lexer.forall_ascii codes ‹_›
  · rfl

@[simp] theorem has_blanks (c : Char) : CharSet.blanks.has c = Text.isBlank c :=
  CharSet.has_ofRanges _ c

@[simp] theorem has_wordChars (c : Char) : CharSet.wordChars.has c = Text.isWord c :=
  (CharSet.has_ofRanges _ c).trans (inRanges_wordRanges c)

@[simp] theorem has_digits (c : Char) : CharSet.digits.has c = Text.isDigit c :=
  (CharSet.has_ofRanges _ c).trans (inRanges_digitRanges c)

def uppers : CharSet := .between 'A' 'Z' (by decide)

def lowers : CharSet := .between 'a' 'z' (by decide)

def decimals : CharSet := .between '0' '9' (by decide)

@[simp] theorem has_uppers (c : Char) : uppers.has c = c.isUpper :=
  (CharSet.has_between _ c).trans (Bool.decide_and ..).symm

@[simp] theorem has_lowers (c : Char) : lowers.has c = c.isLower :=
  CharSet.has_between _ c

@[simp] theorem has_decimals (c : Char) : decimals.has c = c.isDigit :=
  CharSet.has_between _ c

@[simp] theorem has_letters (c : Char) : (uppers.union lowers).has c = c.isAlpha := by
  rw [CharSet.has_union, has_uppers, has_lowers]
  rfl

def exactly (p : Pattern) : Nat → Pattern
  | 0 => empty
  | n + 1 => Form.both (exactly p n) p

structure Written (p : Pattern) where
  form : Form
  pattern_form : ∀ place, form.pattern false place = p

namespace Written

variable {p q : Pattern}

theorem ofText?_eq (w : Written p) {text : String} (read : formOfText? text == some w.form) :
    ofText? text = some p := by
  rw [ofText?, eq_of_beq read, Option.map_some, w.pattern_form]

def start : Written .start := ⟨.start, fun _ => rfl⟩

def stop : Written .stop := ⟨.stop, fun _ => rfl⟩

def set (s : CharSet) {accepts : Char → Bool} (h : ∀ c, s.has c = accepts c) :
    Written (one accepts) := ⟨.set s, fun _ => congrArg one (funext h)⟩

def char (c : Char) : Written (char c) := ⟨.text [c], fun _ => rfl⟩

def lit (s : String) : Written (lit s) := ⟨.text s.toList, fun _ => rfl⟩

def oneOf (s : String) : Written (oneOf s) := set (.ofChars s.toList) (CharSet.has_ofChars _)

def noneOf (s : String) : Written (noneOf s) :=
  set (CharSet.ofChars s.toList).complement (by simp)

def anyChar : Written anyChar := set .full CharSet.has_full

def inLine : Written inLine := noneOf "\n"

def blank : Written blank := set .blanks has_blanks

theorem mayBeEmpty_blank : blank.form.mayBeEmpty = false := rfl

def digit : Written digit := set .digits has_digits

def wordChar : Written wordChar := set .wordChars has_wordChars

def wordStart : Written wordStart :=
  set (CharSet.wordChars.complement.union .digits).complement (by simp)

def seq (v : Written p) (w : Written q) : Written (seq p q) := by
  refine ⟨.seq v.form w.form, fun place => ?_⟩
  rw [Form.pattern, v.pattern_form, w.pattern_form]

def alt (v : Written p) (w : Written q) : Written (alt p q) := by
  refine ⟨.alt v.form w.form, fun place => ?_⟩
  rw [Form.pattern, v.pattern_form, w.pattern_form]
  rfl

def group (index : Nat) (w : Written p) : Written (group index p) := by
  refine ⟨.group index w.form, fun place => ?_⟩
  rw [Form.pattern, w.pattern_form]

def optional (greedy : Bool) (w : Written p) : Written (optional greedy p) := by
  refine ⟨.repeated 0 (some 1) greedy w.form, fun place => ?_⟩
  rw [Form.pattern, w.pattern_form]
  rfl

def maybe (w : Written p) : Written (maybe p) := w.optional true

def star (greedy : Bool) (w : Written p) (h : w.form.mayBeEmpty = false) :
    Written (star greedy p) := by
  refine ⟨.repeated 0 none greedy w.form, fun place => ?_⟩
  rw [Form.pattern, h, w.pattern_form]
  rfl

def many (w : Written p) (h : w.form.mayBeEmpty = false) : Written (many p) := w.star true h

def few (w : Written p) (h : w.form.mayBeEmpty = false) : Written (few p) := w.star false h

def many1 (w : Written p) (h : w.form.mayBeEmpty = false) : Written (many1 p) := by
  refine ⟨.repeated 1 none true w.form, fun place => ?_⟩
  rw [Form.pattern, h, Bool.or_false, w.pattern_form]
  rfl

def upTo (greedy : Bool) (w : Written p) (n : Nat) (h : 1 < n) : Written (upTo greedy p n) := by
  refine ⟨.repeated 0 (some n) greedy w.form, fun place => ?_⟩
  have nested (n place : Nat) :
      Form.atMost false greedy (fun place => w.form.pattern false place) n place =
        Pattern.upTo greedy p n := by
    induction n generalizing place with
    | zero => rfl
    | succ n ih =>
      rw [Form.atMost, ih, w.pattern_form]
      rfl
  rw [Form.pattern, nested]
  · rfl
  · omega

theorem copies_eq (w : Written p) (n place : Nat) :
    Form.copies (fun place => w.form.pattern false place) n place = exactly p n := by
  induction n generalizing place with
  | zero => rfl
  | succ n ih => rw [Form.copies, ih, w.pattern_form, exactly]

theorem both_empty (p : Pattern) : Form.both p .empty = p := by
  cases p <;> rfl

def times (w : Written p) (n : Nat) (h : 1 < n) : Written (exactly p n) := by
  refine ⟨.repeated n (some n) true w.form, fun place => ?_⟩
  rw [Form.pattern, copies_eq, Nat.sub_self]
  · exact both_empty _
  · omega

theorem pattern_words (ws : List String) (place : Nat) :
    (Form.alts (ws.map fun s => .text s.toList)).pattern false place =
      alts (ws.map Pattern.lit) := by
  induction ws generalizing place with
  | nil => rfl
  | cons s ws ih =>
    cases ws with
    | nil => rfl
    | cons t ws => exact congrArg (Pattern.alt (Pattern.lit s)) (ih (2 * place + 1))

def keyword (ws : List String) : Written (keyword ws) := by
  refine ⟨.seq (.alts (ws.map fun s => .text s.toList)) .wordBoundary, fun place => ?_⟩
  rw [Form.pattern, pattern_words]
  rfl

end Written
end HybridTemplate.Pattern
