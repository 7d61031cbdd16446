import HybridTemplate.Proofs.Highlight.Lossless
import HybridTemplate.Proofs.Highlight.Meaning
import HybridTemplate.Proofs.Lexer.Literals

set_option autoImplicit false

namespace HybridTemplate.Highlight

open Lexer
open Lexer.FormatString (startState Complete)

variable {lexers : Lexers}

theorem bytewise_expandRun (lexers : Lexers) (offset : Nat) (r : Run TokenKind) :
    Token.bytewise (expandRun lexers offset r) = Token.bytewise (expandRun lexers 0 r) := by
  unfold expandRun
  split
  · rfl
  · split
    · rw [Token.bytewise_shift, Token.bytewise_shift]
    · rfl

theorem bytewise_expand (lexers : Lexers) (offset : Nat) (rs : List (Run TokenKind)) :
    Token.bytewise (expand lexers offset rs) =
      rs.flatMap fun r => Token.bytewise (expandRun lexers 0 r) := by
  induction rs generalizing offset with
  | nil => rfl
  | cons r rs ih =>
    rw [expand, Token.bytewise_append, ih, List.flatMap_cons, bytewise_expandRun]

theorem length_bytewise_expand (covering : Covering lexers) (offset : Nat)
    (rs : List (Run TokenKind)) :
    (Token.bytewise (expand lexers offset rs)).length = (Run.concat rs).utf8ByteSize := by
  rw [Token.length_bytewise, (tiles_expand covering offset rs).concat_eq]

/-- A row of runs in one language, with what stands before and behind it. -/
structure Row (language : SubLanguage) (rs front row back : List (Run TokenKind)) : Prop where
  split : rs = front ++ row ++ back
  kind : ∀ r ∈ row, r.kind = .embedded language
  before : ∀ r ∈ front.getLast?, r.kind ≠ .embedded language
  behind : ∀ r ∈ back.head?, r.kind ≠ .embedded language

theorem Row.coalesce {language : SubLanguage} {rs front row back : List (Run TokenKind)}
    (h : Row language rs front row back) (filled : ∀ r ∈ rs, r.text ≠ "") (some : row ≠ []) :
    Run.coalesce rs =
      Run.coalesce front ++ ⟨.embedded language, Run.concat row⟩ :: Run.coalesce back := by
  obtain ⟨rfl, kind, before, behind⟩ := h
  obtain ⟨filled, filled_back⟩ := List.forall_mem_append.mp filled
  obtain ⟨filled_front, filled_row⟩ := List.forall_mem_append.mp filled
  have first (r : Run TokenKind) (hr : r ∈ row.head?) : r.kind = .embedded language :=
    kind r (List.mem_of_mem_head? hr)
  have last (r : Run TokenKind) (hr : r ∈ row.getLast?) : r.kind = .embedded language :=
    kind r (List.mem_of_getLast? hr)
  have whole : Run.concat row ≠ "" := by
    obtain ⟨r, rest, rfl⟩ := List.exists_cons_of_ne_nil some
    rw [Run.concat_cons]
    simp [filled_row r List.mem_cons_self]
  have meets : ∀ r ∈ front.getLast?, ∀ s ∈ (row ++ back).head?, r.kind ≠ s.kind := by
    intro r hr s hs
    rw [List.head?_append_of_ne_nil _ some] at hs
    rw [first s hs]
    exact before r hr
  have leaves : ∀ r ∈ row.getLast?, ∀ s ∈ back.head?, r.kind ≠ s.kind := by
    intro r hr s hs
    rw [last r hr]
    exact (behind s hs).symm
  rw [List.append_assoc, Run.coalesce_append filled_front
      (List.forall_mem_append.mpr ⟨filled_row, filled_back⟩) meets,
    Run.coalesce_append filled_row filled_back leaves, Run.coalesce_of_kind kind whole]
  rfl

/-- What is said about a literal of a row, between what is said about the texts before it and
behind it. -/
theorem Row.bytewise_literal {rs front before after back : List (Run TokenKind)}
    {literal : Run TokenKind} {state : String}
    (row : Row .formatString (rs.filter fun r => r.text ≠ "") front
      (before ++ literal :: after) back)
    (fits : startState (Run.concat (before ++ literal :: after)) = state)
    (complete : ∀ r ∈ before, Complete state r.text)
    (ends : after = [] ∨ Complete state literal.text) (offset : Nat) :
    ∃ passed behind, passed.length = (Run.concat (front ++ before)).utf8ByteSize ∧
      Token.bytewise (expand builtinLexers offset (Run.coalesce rs)) =
        passed ++
          (Token.bytewise (FormatString.lexer.tokensFrom state literal.text) ++ behind) := by
  have textual : FormatString.Textual state := fits ▸ FormatString.textual_startState _
  have joined : Run.concat (before ++ literal :: after) =
      String.join (before.map Run.text ++ literal.text :: after.map Run.text) := by
    rw [Run.concat, List.map_append, List.map_cons]
  obtain ⟨behind, read⟩ := FormatString.bytewise_row textual (List.forall_mem_map.mpr complete)
    (ends.imp_left (List.map_eq_nil_iff (f := Run.text)).mpr)
  have lexed : Token.bytewise (expandRun builtinLexers 0
      ⟨.embedded .formatString, Run.concat (before ++ literal :: after)⟩) =
        (before.map Run.text).flatMap (fun t => FormatString.lexer.categories [state] t.toList) ++
          (FormatString.lexer.categories [state] literal.text.toList ++ behind) := by
    rw [← read, ← joined, ← fits]
    exact Token.bytewise_shift 0 (FormatString.tokens _)
  have whole := row.coalesce (by simp) (by simp)
  rw [Run.coalesce_filter] at whole
  refine ⟨Token.bytewise (expand builtinLexers 0 (Run.coalesce front)) ++
      (before.map Run.text).flatMap fun t => FormatString.lexer.categories [state] t.toList,
    behind ++ Token.bytewise (expand builtinLexers 0 (Run.coalesce back)), ?_, ?_⟩
  · rw [List.length_append, length_bytewise_expand covering_builtinLexers, Run.concat_coalesce,
      length_flatMap_categories, Run.concat_append, String.utf8ByteSize_append]
    rfl
  · rw [bytewise_expand, whole, List.flatMap_append, List.flatMap_cons,
      ← bytewise_expand builtinLexers 0, ← bytewise_expand builtinLexers 0, lexed,
      bytewise_tokensFrom]
    simp only [List.append_assoc]

theorem tokensOfTree_of_typed {tree : Node} (typed : untyped tree = []) :
    tokensOfTree builtinLexers tree =
      .ok (expand builtinLexers tree.start (Run.coalesce (spans tree))) := by
  have done : runs tree = .ok (Run.coalesce (spans tree)) :=
    runs_eq_ok_iff.mpr ⟨typed, Run.eq_coalesce_iff.mp rfl⟩
  have resolved : firstUnresolved? builtinLexers (Run.coalesce (spans tree)) = none := by
    refine List.findSome?_eq_none_iff.mpr fun r _ => ?_
    split
    · rename_i language _
      cases language <;> rfl
    · rfl
  rw [tokensOfTree, done]
  dsimp only [bind, Except.bind]
  rw [resolved]

/-- Where each literal of a row but the last is complete, each is read as if it stood alone, from
the state that fits the row. -/
theorem tokensOfTree_reads_rows {tree : Node} (typed : untyped tree = []) :
    ∃ ts, tokensOfTree builtinLexers tree = .ok ts ∧
      ∀ front before literal after back,
        Row .formatString ((spans tree).filter fun r => r.text ≠ "") front
          (before ++ literal :: after) back →
        let state := startState (Run.concat (before ++ literal :: after))
        let own := ((Token.bytewise ts).drop (Run.concat (front ++ before)).utf8ByteSize).take
          literal.text.utf8ByteSize
        (∀ r ∈ before, Complete state r.text) → (after = [] ∨ Complete state literal.text) →
          own = Token.bytewise (FormatString.lexer.tokensFrom state literal.text) ∧
          (startState literal.text = state →
            own = Token.bytewise (FormatString.tokens literal.text)) := by
  refine ⟨_, tokensOfTree_of_typed typed, fun front before literal after back row => ?_⟩
  intro state own complete ends
  obtain ⟨passed, behind, size, bytes⟩ := row.bytewise_literal rfl complete ends tree.start
  have alone : own = Token.bytewise (FormatString.lexer.tokensFrom state literal.text) := by
    have long : literal.text.utf8ByteSize =
        (Token.bytewise (FormatString.lexer.tokensFrom state literal.text)).length := by
      rw [bytewise_tokensFrom, length_categories, Text.byteLength_toList]
    dsimp only [own]
    rw [bytes, ← size, List.drop_left, long, List.take_left]
  refine ⟨alone, fun fits => ?_⟩
  rw [alone, FormatString.tokens, fits]

theorem tokensOfTree_reads_rows_interpolated :
    let tree : Node := ⟨.serverEmbed, 4, "\x7bf'\x7bx\x7d''b'\x7d",
      [⟨.serverEmbedDelim, 4, "\x7b", []⟩, ⟨.formatString, 5, "f'\x7bx\x7d'", []⟩,
        ⟨.formatString, 11, "", []⟩, ⟨.formatString, 11, "'b'", []⟩,
        ⟨.serverEmbedDelim, 14, "\x7d", []⟩]⟩
    untyped tree = [] ∧ Complete "single" "f'\x7bx\x7d'" ∧
      ∃ ts, tokensOfTree builtinLexers tree = .ok ts ∧
        ((Token.bytewise ts).drop 7).take 3 =
          Token.bytewise (FormatString.lexer.tokensFrom "single" "'b'") ∧
        ((Token.bytewise ts).drop 7).take 3 = Token.bytewise (FormatString.tokens "'b'") := by
  intro tree
  have steps : FormatString.lexer.run ⟨["single"], 0, "f'\x7bx\x7d'".toList⟩ =
      [⟨["single"], 0, "f'\x7bx\x7d'".toList⟩, ⟨["single"], 2, ['\x7b', 'x', '\x7d', '\'']⟩,
        ⟨["interp", "single"], 3, ['x', '\x7d', '\'']⟩, ⟨["interp", "single"], 4, ['\x7d', '\'']⟩,
        ⟨["single"], 5, ['\'']⟩, ⟨["single"], 6, []⟩] :=
    run_eq_of_isChain _ (by decide +kernel) (by decide +kernel)
  have settled : ∀ p ∈ FormatString.lexer.run ⟨["single"], 0, "f'\x7bx\x7d'".toList⟩,
      1 < p.stack.length → Host.settled p.rest = true := by
    rw [steps]
    decide +kernel
  have complete : Complete "single" "f'\x7bx\x7d'" := by
    refine ⟨⟨'\'', .inr rfl, rfl⟩, fun p last => ?_, settled⟩
    rw [steps] at last
    cases last
    rfl
  have row : Row .formatString ((spans tree).filter fun r => r.text ≠ "")
      [⟨.terminal .serverEmbedPunctuation, "\x7b"⟩]
      ([⟨.embedded .formatString, "f'\x7bx\x7d'"⟩] ++ ⟨.embedded .formatString, "'b'"⟩ :: [])
      [⟨.terminal .serverEmbedPunctuation, "\x7d"⟩] :=
    ⟨by decide +kernel, by decide, by decide, by decide⟩
  obtain ⟨ts, done, read⟩ := tokensOfTree_reads_rows (show untyped tree = [] from rfl)
  have own := read _ _ _ _ _ row (List.forall_mem_singleton.mpr complete) (.inl rfl)
  exact ⟨rfl, complete, ts, done, own.1, own.2 rfl⟩

/-- A literal in three quotes is not read as one where a literal in single quotes stands in front
of it: its line break is no part of the string. -/
theorem triple_behind_single_breaks :
    let tree : Node := ⟨.serverEmbed, 0, "\x7bf'a'f'''b\nc'''\x7d",
      [⟨.serverEmbedDelim, 0, "\x7b", []⟩, ⟨.formatString, 1, "f'a'", []⟩,
        ⟨.formatString, 5, "f'''b\nc'''", []⟩, ⟨.serverEmbedDelim, 15, "\x7d", []⟩]⟩
    Complete (startState "f'a'") "f'a'" ∧
      Complete (startState "f'''b\nc'''") "f'''b\nc'''" ∧
      startState "f'''b\nc'''" = "triple" ∧
      ∃ ts, tokensOfTree builtinLexers tree = .ok ts ∧
        ((Token.bytewise ts).drop 5).take 10 =
          .stringAffix :: List.replicate 4 .string ++ .whitespace :: List.replicate 4 .string ∧
        Token.bytewise (FormatString.tokens "f'''b\nc'''") =
          .stringAffix :: List.replicate 9 .string := by
  intro tree
  have single : Complete (startState "f'a'") "f'a'" :=
    FormatString.complete_of_plain (.inl rfl) ⟨'\'', .inr rfl, rfl⟩ (by decide)
  have triple : Complete (startState "f'''b\nc'''") "f'''b\nc'''" :=
    FormatString.complete_of_plain (.inr rfl) ⟨'\'', .inr rfl, rfl⟩ (by decide)
  have alone : Token.bytewise (FormatString.tokens "f'''b\nc'''") =
      .stringAffix :: List.replicate 9 .string := by
    have steps : FormatString.lexer.run ⟨["triple"], 0, "f'''b\nc'''".toList⟩ =
        [⟨["triple"], 0, "f'''b\nc'''".toList⟩, ⟨["triple"], 4, "b\nc'''".toList⟩,
          ⟨["triple"], 7, "'''".toList⟩, ⟨["triple"], 10, []⟩] :=
      run_eq_of_isChain _ (by decide +kernel) (by decide +kernel)
    have state : startState "f'''b\nc'''" = "triple" := rfl
    rw [FormatString.tokens, state, bytewise_tokensFrom, categories_eq_run, steps]
    decide +kernel
  have together : FormatString.lexer.categories ["single"] "f'a'f'''b\nc'''".toList =
      .stringAffix :: List.replicate 3 .string ++
        (.stringAffix :: List.replicate 4 .string ++
          .whitespace :: List.replicate 4 .string) := by
    have steps : FormatString.lexer.run ⟨["single"], 0, "f'a'f'''b\nc'''".toList⟩ =
        [⟨["single"], 0, "f'a'f'''b\nc'''".toList⟩, ⟨["single"], 2, "a'f'''b\nc'''".toList⟩,
          ⟨["single"], 3, "'f'''b\nc'''".toList⟩, ⟨["single"], 4, "f'''b\nc'''".toList⟩,
          ⟨["single"], 8, "b\nc'''".toList⟩, ⟨["single"], 9, "\nc'''".toList⟩,
          ⟨["single"], 10, "c'''".toList⟩, ⟨["single"], 11, "'''".toList⟩,
          ⟨["single"], 14, []⟩] :=
      run_eq_of_isChain _ (by decide +kernel) (by decide +kernel)
    rw [categories_eq_run, steps]
    decide +kernel
  refine ⟨single, triple, rfl, _, tokensOfTree_of_typed rfl, ?_, alone⟩
  have runs : Run.coalesce (spans tree) = [⟨.terminal .serverEmbedPunctuation, "\x7b"⟩,
      ⟨.embedded .formatString, "f'a'f'''b\nc'''"⟩,
      ⟨.terminal .serverEmbedPunctuation, "\x7d"⟩] := by
    decide +kernel
  have lexed : Token.bytewise (expandRun builtinLexers 0
      ⟨.embedded .formatString, "f'a'f'''b\nc'''"⟩) =
        FormatString.lexer.categories ["single"] "f'a'f'''b\nc'''".toList :=
    (Token.bytewise_shift 0 _).trans (bytewise_tokensFrom _ _ _)
  rw [bytewise_expand, runs]
  simp only [List.flatMap_cons, lexed, together]
  decide +kernel

end HybridTemplate.Highlight
