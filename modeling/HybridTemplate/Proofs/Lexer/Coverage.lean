import HybridTemplate.Lexer.Basic
import HybridTemplate.Proofs.Token.Tiling

set_option autoImplicit false

namespace HybridTemplate.Lexer

open Token (Tiles)

theorem byteSize_ofList (cs : List Char) :
    (String.ofList cs).utf8ByteSize = Text.byteLength cs := by
  rw [← Text.byteLength_toList, String.toList_ofList]

theorem tiles_piece (whole : List Char) (first stop : Nat) (category : Category) :
    Tiles (Text.byteLength (whole.take first))
      (String.ofList ((whole.drop first).take (stop - first)))
      [piece whole first stop category] :=
  Tiles.single (piece whole first stop category)

theorem tiles_piece_append {whole : List Char} {first stop : Nat} (h : first ≤ stop)
    (category : Category) {ts : List Token}
    (rest : Tiles (Text.byteLength (whole.take stop)) (String.ofList (whole.drop stop)) ts) :
    Tiles (Text.byteLength (whole.take first)) (String.ofList (whole.drop first))
      (piece whole first stop category :: ts) := by
  have front : whole.take first ++ (whole.drop first).take (stop - first) = whole.take stop := by
    rw [List.take_drop, Nat.add_sub_of_le h]
    have prefix_eq : whole.take first = (whole.take stop).take first := by
      rw [List.take_take, Nat.min_eq_left h]
    rw [prefix_eq, List.take_append_drop]
  have back : (whole.drop first).take (stop - first) ++ whole.drop stop = whole.drop first := by
    have later : whole.drop stop = (whole.drop first).drop (stop - first) := by
      rw [List.drop_drop, Nat.add_sub_of_le h]
    rw [later, List.take_append_drop]
  rw [← front, Text.byteLength_append, ← byteSize_ofList ((whole.drop first).take _)] at rest
  have both := (tiles_piece whole first stop category).append rest
  rw [← String.ofList_append, back] at both
  exact both

theorem tiles_groupPieces {whole : List Char} {group? : Nat → Option (Nat × Nat)}
    (within : ∀ index first stop, group? index = some (first, stop) →
      first ≤ stop ∧ stop ≤ whole.length)
    (categories : List Category) (index cursor : Nat) (last : Category)
    (h : cursor ≤ whole.length) :
    Tiles (Text.byteLength (whole.take cursor)) (String.ofList (whole.drop cursor))
      (groupPieces whole group? categories index cursor last) := by
  induction categories generalizing index cursor last with
  | nil =>
    refine tiles_piece_append h last ?_
    rw [List.drop_length]
    exact Tiles.nil _
  | cons category rest ih =>
    rw [groupPieces]
    split
    · exact ih _ _ _ h
    · rename_i first stop found
      obtain ⟨ordered, ends⟩ := within index first stop found
      split
      · exact ih _ _ _ h
      · rename_i ahead
        have tail := tiles_piece_append ordered category (ih (index + 1) stop category ends)
        exact tiles_piece_append (Nat.le_of_not_lt ahead) last tail

theorem tiles_pieces_of_match (a : Action) {rest : List Char} {m : Pattern.Match}
    (h : m.Within rest.length) :
    Tiles 0 (String.ofList (rest.take m.length)) (a.pieces (rest.take m.length) m.group?) := by
  cases a with
  | token category =>
    have whole := tiles_piece_append (Nat.zero_le (rest.take m.length).length) category
      (by rw [List.drop_length]; exact Tiles.nil _)
    exact whole
  | groups categories =>
    refine tiles_groupPieces ?_ categories 1 0 _ (Nat.zero_le _)
    intro index first stop found
    rw [List.length_take, Nat.min_eq_left h.1]
    exact h.of_group? found

theorem tiles_firstMatch? {stack : List String} {rest : List Char} {rules : List Rule} {s : Step}
    (h : firstMatch? stack rest rules = some s) :
    Tiles 0 (String.ofList (rest.take s.length)) s.pieces := by
  induction rules with
  | nil => simp [firstMatch?] at h
  | cons rule rules ih =>
    rw [firstMatch?] at h
    split at h
    · exact ih h
    · rename_i m found
      split at h
      · exact ih h
      · cases h
        exact tiles_pieces_of_match rule.action (rule.matcher.within rest m found)

theorem tiles_recovery (stack : List String) (c : Char) (cs : List Char) :
    Tiles 0 (String.ofList ((c :: cs).take (recovery stack c).length))
      (recovery stack c).pieces := by
  unfold recovery
  split <;> exact tiles_piece [c] 0 1 _

/-- The pieces of a step tile the text that it passes. -/
theorem tiles_step (l : Lexer) (stack : List String) (c : Char) (cs : List Char) :
    Tiles 0 (String.ofList ((c :: cs).take (l.step stack c cs).length))
      (l.step stack c cs).pieces := by
  unfold step
  cases found : firstMatch? stack (c :: cs) (l.rules (stack.headD "root")) with
  | none => exact tiles_recovery stack c cs
  | some s => exact tiles_firstMatch? found

theorem tiles_pieces (l : Lexer) (stack : List String) (offset : Nat) (text : List Char) :
    Tiles offset (String.ofList text) (l.pieces stack offset text) := by
  fun_induction l.pieces stack offset text with
  | case1 => exact Tiles.nil _
  | case2 stack offset c cs s ih =>
    have here := (l.tiles_step stack c cs).shift offset
    rw [← byteSize_ofList] at ih
    have both := here.append ih
    rw [← String.ofList_append, List.take_append_drop, byteSize_ofList] at both
    exact both

theorem tiles_tokensFrom (l : Lexer) (initial text : String) :
    Tiles 0 text (l.tokensFrom initial text) := by
  have tiled := (l.tiles_pieces [initial] 0 text.toList).coalesce
  rw [String.ofList_toList] at tiled
  exact tiled

/-- Whatever the lexer, the state and the text are, the tokens are not empty, stand one behind
another between characters of the text, spell it, and neighbours differ in category. -/
theorem tokensFrom_covers (l : Lexer) (initial text : String) :
    let ts := l.tokensFrom initial text
    (∀ t ∈ ts, t.text ≠ "") ∧
      Token.Contiguous 0 ts ∧
      Token.concat ts = text ∧
      (∀ t ∈ ts, String.Pos.Raw.IsValid text ⟨t.offset⟩ ∧ String.Pos.Raw.IsValid text ⟨t.stop⟩) ∧
      ts.IsChain fun s t => s.category ≠ t.category := by
  intro ts
  have tiled : Tiles 0 text ts := l.tiles_tokensFrom initial text
  refine ⟨fun t => Token.text_ne_of_mem_coalesce, tiled.contiguous, tiled.concat_eq, ?_,
    Token.isChain_coalesce _⟩
  intro t ht
  obtain ⟨before, after, whole, starts⟩ := tiled.split ht
  rw [Nat.zero_add] at starts
  constructor
  · rw [String.Pos.Raw.isValid_iff_exists_append]
    refine ⟨before, t.text ++ after, ?_, ?_⟩
    · rw [whole, String.append_assoc]
    · rw [starts]
      rfl
  · rw [String.Pos.Raw.isValid_iff_exists_append]
    refine ⟨before ++ t.text, after, whole, ?_⟩
    rw [Token.stop, starts, ← String.utf8ByteSize_append]
    rfl

end HybridTemplate.Lexer
