import HybridTemplate.Proofs.Lexer.Loop
import HybridTemplate.Proofs.Token.Bytewise

set_option autoImplicit false

namespace HybridTemplate.Lexer

variable {l : Lexer} {stack states : List String} {cs more : List Char}

def categories (l : Lexer) (stack : List String) (cs : List Char) : List Category :=
  Token.bytewise (l.pieces stack 0 cs)

theorem pieces_shift (l : Lexer) (n : Nat) (stack : List String) (offset : Nat) (cs : List Char) :
    l.pieces stack (n + offset) cs = (l.pieces stack offset cs).map (·.shift n) := by
  fun_induction l.pieces stack offset cs with
  | case1 => rw [pieces]; rfl
  | case2 stack offset c cs s ih =>
    rw [pieces, List.map_append, ← ih, Nat.add_assoc, List.map_map]
    congr 1
    exact List.map_congr_left fun t _ => by simp [Token.shift, Nat.add_assoc]

theorem bytewise_pieces (l : Lexer) (stack : List String) (offset : Nat) (cs : List Char) :
    Token.bytewise (l.pieces stack offset cs) = l.categories stack cs := by
  rw [← Nat.add_zero offset, pieces_shift, Token.bytewise_shift]
  rfl

@[simp] theorem categories_nil (l : Lexer) (stack : List String) : l.categories stack [] = [] := by
  rw [categories, pieces]
  rfl

theorem categories_cons (l : Lexer) (stack : List String) (c : Char) (cs : List Char) :
    l.categories stack (c :: cs) = Token.bytewise (l.step stack c cs).pieces ++
      l.categories (l.step stack c cs).stack ((c :: cs).drop (l.step stack c cs).length) := by
  rw [categories, pieces, Token.bytewise_append, Token.bytewise_shift, bytewise_pieces]

theorem categories_eq_run (l : Lexer) (stack : List String) (cs : List Char) :
    l.categories stack cs = Token.bytewise ((l.run ⟨stack, 0, cs⟩).flatMap l.piecesAt) :=
  congrArg Token.bytewise (l.pieces_eq_run ⟨stack, 0, cs⟩)

theorem bytewise_tokensFrom (l : Lexer) (initial text : String) :
    Token.bytewise (l.tokensFrom initial text) = l.categories [initial] text.toList :=
  Token.bytewise_coalesce _

theorem category_mem_categories {initial text : String} {t : Token}
    (h : t ∈ l.tokensFrom initial text) : t.category ∈ l.categories [initial] text.toList :=
  bytewise_tokensFrom l initial text ▸
    Token.category_mem_bytewise h (Token.text_ne_of_mem_coalesce h)

/-- The tokens of a text are known from the category of each byte. -/
theorem tokensFrom_eq {initial text : String} {ts : List Token} (tiles : Token.Tiles 0 text ts)
    (filled : ∀ t ∈ ts, t.text ≠ "") (apart : ts.IsChain fun t u => t.category ≠ u.category)
    (same : l.categories [initial] text.toList = Token.bytewise ts) :
    l.tokensFrom initial text = ts :=
  (l.tiles_tokensFrom initial text).eq_of_bytewise tiles
    (fun _ => Token.text_ne_of_mem_coalesce) filled (Token.isChain_coalesce _) apart
    ((bytewise_tokensFrom l initial text).trans same)

theorem length_categories (l : Lexer) (stack : List String) (cs : List Char) :
    (l.categories stack cs).length = Text.byteLength cs := by
  rw [categories, Token.length_bytewise, (l.tiles_pieces stack 0 cs).concat_eq, byteSize_ofList]

theorem length_flatMap_categories (l : Lexer) (stack : List String) (texts : List String) :
    (texts.flatMap fun t => l.categories stack t.toList).length =
      (String.join texts).utf8ByteSize := by
  induction texts with
  | nil => rw [String.join_nil]; rfl
  | cons t texts ih => rw [List.flatMap_cons, List.length_append, length_categories,
      Text.byteLength_toList, ih, String.join_cons, String.utf8ByteSize_append]

theorem firstMatch?_append {rules : List Rule}
    (same : ∀ rule ∈ rules, rule.matcher.matchAt? (cs ++ more) = rule.matcher.matchAt? cs) :
    firstMatch? stack (cs ++ more) rules = firstMatch? stack cs rules := by
  induction rules with
  | nil => rfl
  | cons rule rules ih =>
    obtain ⟨here, later⟩ := List.forall_mem_cons.mp same
    rw [firstMatch?, firstMatch?, here, ih later]
    split
    · rfl
    · rename_i m found
      rw [List.take_append_of_le_length (rule.matcher.within cs m found).1]

theorem step_append {c : Char}
    (same : ∀ rule ∈ l.rules (stack.headD "root"),
      rule.matcher.matchAt? (c :: cs ++ more) = rule.matcher.matchAt? (c :: cs)) :
    l.step stack c (cs ++ more) = l.step stack c cs := by
  have first : firstMatch? stack (c :: (cs ++ more)) (l.rules (stack.headD "root")) = _ :=
    firstMatch?_append same
  rw [step, first, step]

/-- The text from here on is read as it is alone, and what follows it from `states`. -/
def Passes (l : Lexer) (states : List String) (more : List Char) (p : Standing) : Prop :=
  l.categories p.stack (p.rest ++ more) = l.categories p.stack p.rest ++ l.categories states more

/-- It is enough that each step on the way is the same in front of more text, up to where the
rest is known to be read as it is alone. -/
theorem passes_of_run {p : Standing}
    (same : ∀ q ∈ l.run p, q.rest ≠ [] → l.Passes states more q ∨
      ∀ rule ∈ l.rules (q.stack.headD "root"),
        rule.matcher.matchAt? (q.rest ++ more) = rule.matcher.matchAt? q.rest)
    (ends : ∀ q, (l.run p).getLast? = some q → q.stack = states) : l.Passes states more p := by
  induction p using l.run_induction with
  | ends p h =>
    have last := ends p (by rw [run_of_end h]; rfl)
    rw [Passes, next?_eq_none.mp h, last, categories_nil, List.nil_append, List.nil_append]
  | next p q h ih =>
    have run := run_of_next h
    rw [run] at same ends
    obtain ⟨here, later⟩ := List.forall_mem_cons.mp same
    have rest : l.Passes states more q := by
      refine ih later fun e last => ends e ?_
      rw [List.getLast?_cons, last]
      rfl
    obtain ⟨c, cs, chars, rfl⟩ := next?_eq_some h
    refine (here (by simp [chars])).elim id fun steady => ?_
    rw [chars] at steady
    have within := l.length_step_le p.stack c cs
    dsimp only [Passes] at rest ⊢
    rw [chars, List.cons_append, categories_cons, categories_cons, step_append steady,
      List.append_assoc, ← rest, ← List.cons_append, List.drop_append_of_le_length within]

end HybridTemplate.Lexer
