import HybridTemplate.Text.Utf8

set_option autoImplicit false

/-! A location is a line and a column, both counted from one in 32 bits; columns count characters.
Offsets count bytes. An offset beyond the end stands for the end, and one inside a character for
the beginning of that character. -/
namespace HybridTemplate

structure Location where
  line : UInt32
  column : UInt32
deriving DecidableEq, Repr

namespace Location

def first : Location := ⟨1, 1⟩

def after (l : Location) (c : Char) : Location :=
  if c = '\n' then ⟨l.line + 1, 1⟩ else ⟨l.line, l.column + 1⟩

/-- Passes as many whole characters as fit into `n` bytes. -/
def advance (l : Location) : List Char → Nat → Location
  | [], _ => l
  | c :: cs, n => if c.utf8Size ≤ n then (l.after c).advance cs (n - c.utf8Size) else l

def ofOffset (source : String) (offset : Nat) : Location := first.advance source.toList offset

@[simp] theorem advance_nil (l : Location) (n : Nat) : l.advance [] n = l := rfl

theorem advance_cons (l : Location) (c : Char) (cs : List Char) (n : Nat) :
    l.advance (c :: cs) n =
      if c.utf8Size ≤ n then (l.after c).advance cs (n - c.utf8Size) else l := rfl

theorem advance_zero (l : Location) (cs : List Char) : l.advance cs 0 = l := by
  cases cs with
  | nil => rfl
  | cons c cs =>
    have := c.utf8Size_pos
    rw [advance_cons, if_neg (by omega)]

theorem advance_append (l : Location) (cs ds : List Char) (n : Nat) :
    l.advance (cs ++ ds) (Text.byteLength cs + n) = (cs.foldl after l).advance ds n := by
  induction cs generalizing l with
  | nil => rw [List.nil_append, Text.byteLength_nil, Nat.zero_add, List.foldl_nil]
  | cons c cs ih =>
    have rest : Text.byteLength (c :: cs) + n - c.utf8Size = Text.byteLength cs + n := by
      rw [Text.byteLength_cons]
      omega
    have fits : c.utf8Size ≤ Text.byteLength (c :: cs) + n := by
      rw [Text.byteLength_cons]
      omega
    rw [List.cons_append, advance_cons, if_pos fits, rest, ih, List.foldl_cons]

/-- The location behind a text is where its characters lead to. -/
theorem ofOffset_append (front back : String) :
    ofOffset (front ++ back) front.utf8ByteSize = front.toList.foldl after first := by
  rw [ofOffset, String.toList_append, ← Text.byteLength_toList]
  exact (advance_append first _ _ 0).trans (advance_zero _ _)

end Location
end HybridTemplate
