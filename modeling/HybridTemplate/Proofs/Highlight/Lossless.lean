import HybridTemplate.Proofs.Highlight.Structure
import HybridTemplate.Proofs.Lexer.Coverage

set_option autoImplicit false

namespace HybridTemplate.Highlight

open Token (Tiles)

/-- Every language has a lexer whose tokens tile any text and are not empty. -/
def Covering (lexers : Lexers) : Prop :=
  ∀ language, ∃ lex, lexers language = some lex ∧
    ∀ text, Tiles 0 text (lex text) ∧ ∀ t ∈ lex text, t.text ≠ ""

theorem covering_builtinLexers : Covering builtinLexers := by
  intro language
  cases language with
  | host =>
    refine ⟨_, rfl, fun text => ⟨Lexer.tiles_tokensFrom _ _ text, ?_⟩⟩
    exact fun _ => Token.text_ne_of_mem_coalesce
  | script =>
    refine ⟨_, rfl, fun text => ⟨Lexer.tiles_tokensFrom _ _ text, ?_⟩⟩
    exact fun _ => Token.text_ne_of_mem_coalesce
  | formatString =>
    refine ⟨_, rfl, fun text => ⟨Lexer.tiles_tokensFrom _ _ text, ?_⟩⟩
    exact fun _ => Token.text_ne_of_mem_coalesce

theorem tiles_expandRun {lexers : Lexers} (covering : Covering lexers) (offset : Nat)
    (r : Run TokenKind) : Tiles offset r.text (expandRun lexers offset r) := by
  unfold expandRun
  split
  · rename_i category _
    exact Tiles.single ⟨offset, category, r.text⟩
  · rename_i language _
    obtain ⟨lex, found, covers⟩ := covering language
    rw [found]
    exact (covers r.text).1.shift offset

theorem tiles_expand {lexers : Lexers} (covering : Covering lexers) (offset : Nat)
    (rs : List (Run TokenKind)) : Tiles offset (Run.concat rs) (expand lexers offset rs) := by
  induction rs generalizing offset with
  | nil => exact Tiles.nil offset
  | cons r rs ih =>
    rw [Run.concat_cons, expand]
    exact (tiles_expandRun covering offset r).append (ih _)

theorem text_ne_of_mem_expand {lexers : Lexers} (covering : Covering lexers) {offset : Nat}
    {rs : List (Run TokenKind)} (filled : ∀ r ∈ rs, r.text ≠ "") {t : Token}
    (h : t ∈ expand lexers offset rs) : t.text ≠ "" := by
  induction rs generalizing offset with
  | nil => simp [expand] at h
  | cons r rs ih =>
    rcases List.mem_append.mp h with here | later
    · unfold expandRun at here
      split at here
      · obtain rfl := List.mem_singleton.mp here
        exact filled r List.mem_cons_self
      · rename_i language _
        obtain ⟨lex, found, covers⟩ := covering language
        rw [found] at here
        obtain ⟨u, hu, rfl⟩ := List.mem_map.mp here
        exact (covers r.text).2 u hu
    · exact ih (fun s hs => filled s (List.mem_cons_of_mem r hs)) later

theorem tokensOfTree_eq_ok {lexers : Lexers} {tree : Node} {ts : List Token}
    (h : tokensOfTree lexers tree = .ok ts) :
    ∃ rs, runs tree = .ok rs ∧ ts = expand lexers tree.start rs := by
  unfold tokensOfTree at h
  cases structural : runs tree with
  | error e =>
    rw [structural] at h
    cases h
  | ok rs =>
    rw [structural] at h
    refine ⟨rs, rfl, ?_⟩
    dsimp only [bind, Except.bind] at h
    split at h
    · cases h
    · cases h
      rfl

/-- The tokens of a tree are not empty, stand one behind another from where the tree begins, and
spell its text. -/
theorem tokensOfTree_lossless {tree : Node} {ts : List Token} (composed : tree.Composed)
    (h : tokensOfTree builtinLexers tree = .ok ts) :
    (∀ t ∈ ts, t.text ≠ "") ∧
      Token.Contiguous tree.start ts ∧
      Token.concat ts = tree.text := by
  obtain ⟨rs, structural, rfl⟩ := tokensOfTree_eq_ok h
  have tiled := tiles_expand covering_builtinLexers tree.start rs
  refine ⟨?_, tiled.contiguous, ?_⟩
  · intro t ht
    exact text_ne_of_mem_expand covering_builtinLexers
      (fun r hr => text_ne_of_mem_runs structural hr) ht
  · rw [tiled.concat_eq, concat_runs composed structural]

theorem tokensOfTree_lossless_nested :
    let tree : Node := ⟨.componentBody, 5, "\x7bé+1\x7df'\x7bx\x7d'",
      [⟨.clientEmbedDelim, 0, "\x7b", []⟩,
        ⟨.other "group", 9, "é+1", [⟨.clientExpr, 2, "é+1", []⟩, ⟨.attributes, 4, "", []⟩]⟩,
        ⟨.clientEmbedDelim, 0, "\x7d", []⟩, ⟨.formatString, 0, "f'\x7bx\x7d'", []⟩]⟩
    ∃ ts, tree.Composed ∧ tokensOfTree builtinLexers tree = .ok ts ∧
      (∀ t ∈ ts, t.text ≠ "") ∧
      Token.Contiguous 5 ts ∧
      Token.concat ts = "\x7bé+1\x7df'\x7bx\x7d'" := by
  intro tree
  have composed : tree.Composed := by
    intro m hm
    simp only [tree, Node.preorder, Node.preorderAll, List.mem_cons, List.mem_append,
      List.not_mem_nil, or_false] at hm
    rcases hm with rfl | rfl | (rfl | rfl | rfl) | rfl | rfl <;> decide
  have done : tokensOfTree builtinLexers tree = .ok (expand builtinLexers 5
      [⟨.terminal .clientEmbedPunctuation, "\x7b"⟩, ⟨.embedded .script, "é+1"⟩,
        ⟨.terminal .clientEmbedPunctuation, "\x7d"⟩,
        ⟨.embedded .formatString, "f'\x7bx\x7d'"⟩]) := rfl
  exact ⟨_, composed, done, tokensOfTree_lossless composed done⟩

end HybridTemplate.Highlight
