import HybridTemplate.Component.Module
import HybridTemplate.Proofs.Lexer.Overruns

set_option autoImplicit false

namespace HybridTemplate.Component

open Lexer (categories_stretch bytewise_tokensFrom)
open Lexer.Script

def opening : String :=
  "\nexport const setup = async function () \x7b\n    \n    \n    this.weftEmbeds = "

def closing : String := "];\n\x7d;\n"

def follow : List String → List Char
  | [] => closing.toList
  | e :: es => ',' :: ' ' :: (e.toList ++ follow es)

def row : List String → List Char
  | [] => follow []
  | e :: es => e.toList ++ follow es

theorem intercalate_embeds (es : List String) :
    (String.intercalate ", " es).toList ++ closing.toList = row es := by
  cases es with
  | nil =>
    rw [String.intercalate_nil]
    rfl
  | cons e es =>
    induction es generalizing e with
    | nil =>
      rw [String.intercalate_singleton]
      rfl
    | cons f fs ih =>
      have rest := ih f
      simp only [row, follow] at rest ⊢
      rw [String.intercalate_cons_cons, String.toList_append, String.toList_append,
        List.append_assoc, List.append_assoc, rest]
      rfl

theorem toList_render {d : Descriptor} (script : d.script = "") (imports : d.imports = [])
    (args : d.args = []) : d.render.toList = opening.toList ++ '[' :: row d.embeds := by
  have none : d.argsLine = "" := by rw [Descriptor.argsLine, args]; rfl
  have front : String.intercalate "\n" [] ++
      "\nexport const setup = async function () \x7b\n    " ++ "" ++ "\n    " ++ "" ++
      "\n    " ++ "this.weftEmbeds = [" = opening ++ "[" := by
    rw [String.intercalate_nil]
    rfl
  have back : "];" ++ "\n\x7d;\n" = closing := rfl
  have whole : d.render = opening ++ ("[" ++ (String.intercalate ", " d.embeds ++ closing)) := by
    rw [← back, ← String.append_assoc, ← front]
    unfold Descriptor.render Descriptor.embedsLine
    rw [none, script, imports]
    repeat rw [String.append_assoc]
  rw [whole, String.toList_append, String.toList_append, String.toList_append, intercalate_embeds]
  rfl

theorem exists_follow (es : List String) :
    ∃ s more, follow es = s :: more ∧ IsSeparator s := by
  cases es with
  | nil => exact ⟨']', ";\n\x7d;\n".toList, rfl, .inr (.inr rfl)⟩
  | cons e es => exact ⟨',', _, rfl, .inl rfl⟩

theorem closes_follow (es : List String) : Closes (follow es) ↔ ∃ e ∈ es, Closes e.toList := by
  induction es with
  | nil =>
    have none : ¬ Closes (follow []) := by decide
    simp [none]
  | cons e es ih =>
    obtain ⟨s, more, text, sep⟩ := exists_follow es
    have other : s ≠ '*' ∧ s ≠ '/' := by rcases sep with rfl | rfl | rfl <;> decide
    have comma := closes_append (x := ',') (by decide) [] (' ' :: (e.toList ++ follow es))
    have blank := closes_append (x := ' ') (by decide) [] (e.toList ++ follow es)
    have none : ¬ Closes [] := by decide
    have behind := (closes_append other [] more).symm
    simp only [List.nil_append, none, false_or] at comma blank behind
    rw [follow, comma, blank, text, closes_append other, behind, ← text, ih]
    simp

def EndsInLine (text : String) : Prop :=
  ∃ p ∈ lexer.run ⟨["root"], 0, text.toList⟩, OpensLine p

/-- Something in the text would be a comment if the text behind it closed it. -/
def LeavesOpen (text : String) : Prop :=
  ∃ p ∈ lexer.run ⟨["root"], 0, text.toList⟩, OpensBlock p

/-- No embed ends in a comment of one line, and what an embed leaves open no later one closes. -/
def Separable (es : List String) : Prop :=
  (∀ e ∈ es, ¬ EndsInLine e) ∧ es.Pairwise fun e f => ¬ (LeavesOpen e ∧ Closes f.toList)

instance (text : String) : Decidable (EndsInLine text) := inferInstanceAs (Decidable (∃ _ ∈ _, _))

instance (text : String) : Decidable (LeavesOpen text) := inferInstanceAs (Decidable (∃ _ ∈ _, _))

instance (es : List String) : Decidable (Separable es) := inferInstanceAs (Decidable (_ ∧ _))

theorem overruns_iff {e : String} {es : List String} :
    (∃ p ∈ lexer.run ⟨["root"], 0, e.toList⟩, Overruns (follow es) p) ↔
      EndsInLine e ∨ LeavesOpen e ∧ ∃ f ∈ es, Closes f.toList := by
  rw [← closes_follow]
  constructor
  · rintro ⟨p, hp, line | ⟨block, closes⟩⟩
    · exact .inl ⟨p, hp, line⟩
    · exact .inr ⟨⟨p, hp, block⟩, closes⟩
  · rintro (⟨p, hp, line⟩ | ⟨⟨p, hp, block⟩, closes⟩)
    · exact ⟨p, hp, .inl line⟩
    · exact ⟨p, hp, .inr ⟨block, closes⟩⟩

theorem separable_cons {e : String} {es : List String} :
    Separable (e :: es) ↔
      (∀ p ∈ lexer.run ⟨["root"], 0, e.toList⟩, ¬ Overruns (follow es) p) ∧ Separable es := by
  have within : (∀ p ∈ lexer.run ⟨["root"], 0, e.toList⟩, ¬ Overruns (follow es) p) ↔
      ¬ EndsInLine e ∧ ∀ f ∈ es, ¬ (LeavesOpen e ∧ Closes f.toList) := by
    have either : (¬ ∃ p ∈ lexer.run ⟨["root"], 0, e.toList⟩, Overruns (follow es) p) ↔ _ :=
      not_congr overruns_iff
    simp only [not_exists, not_or, not_and] at either ⊢
    rw [either]
    exact and_congr_right' ⟨fun h f hf opens => h opens f hf, fun h opens f hf => h f hf opens⟩
  rw [within, Separable, Separable, List.forall_mem_cons, List.pairwise_cons]
  tauto

def reading (text : String) : List Category := Token.bytewise (lexer.tokens text)

theorem reading_eq (text : String) : reading text = lexer.categories ["root"] text.toList :=
  bytewise_tokensFrom lexer "root" text

/-- The categories of a row whose embeds are read as they are alone, with what stands between them
and behind them as punctuation and blanks. -/
def apart (es : List String) : List Category :=
  [.punctuation, .whitespace].intercalate (es.map reading) ++
    ([.punctuation, .punctuation] ++ reading "\n\x7d;\n")

/-- The embeds of a module are read one by one, and before each character of a separator the lexer
stands in its first state. -/
structure Descriptor.ReadApart (d : Descriptor) : Prop where
  categories : reading d.render = reading (opening ++ "[") ++ apart d.embeds
  places : ∀ es, es <:+ d.embeds.tail → ∀ k < 2,
    ∃ n, ⟨["root"], n, (follow es).drop k⟩ ∈ lexer.run ⟨["root"], 0, d.render.toList⟩

def behind : List String → List Category
  | [] => apart []
  | e :: es => .punctuation :: .whitespace :: apart (e :: es)

theorem apart_cons (e : String) (es : List String) :
    apart (e :: es) = reading e ++ behind es := by
  cases es with
  | nil => simp [apart, behind]
  | cons f fs => simp [apart, behind, List.intercalate_cons_cons]

theorem categories_follow (e : String) (es : List String) :
    lexer.categories ["root"] (follow (e :: es)) =
      .punctuation :: .whitespace :: lexer.categories ["root"] (row (e :: es)) := by
  have first : lexer.rules "root" =
      [] ++ .token (Pattern.many1 (.one Text.isBlank)) .whitespace :: rules.tail := rfl
  have blank := categories_stretch ["root"] first (fun _ _ _ => nofun) (w := [' '])
    (List.forall_mem_singleton.mpr rfl) (row (e :: es))
  have comma : lexer.categories ["root"] (',' :: ' ' :: row (e :: es)) = _ :=
    categories_punctuation (IsSeparator.punctuates (.inl rfl)) _
  exact comma.trans (congrArg (Category.punctuation :: ·) blank)

theorem head?_behind (es : List String) : (behind es).head? = some .punctuation := by
  cases es <;> rfl

section

variable {e : String} {es : List String}

theorem categories_append_follow (here : ReadsAlone e)
    (none : ∀ p ∈ lexer.run ⟨["root"], 0, e.toList⟩, ¬ Overruns (follow es) p) :
    lexer.categories ["root"] (e.toList ++ follow es) =
      reading e ++ lexer.categories ["root"] (follow es) := by
  obtain ⟨s, more, text, sep⟩ := exists_follow es
  rw [reading_eq, text]
  exact here.sound.passes sep (text ▸ none)

/-- The first byte behind the embed shows the difference. -/
theorem categories_ne_of_overruns (here : ReadsAlone e)
    (overrun : ∃ p ∈ lexer.run ⟨["root"], 0, e.toList⟩, Overruns (follow es) p) :
    lexer.categories ["root"] (e.toList ++ follow es) ≠ reading e ++ behind es := by
  intro same
  obtain ⟨s, more, text, sep⟩ := exists_follow es
  have swallowed : Swallows (s :: more) ⟨["root"], 0, e.toList⟩ :=
    here.sound.swallows sep (text ▸ overrun)
  obtain ⟨category, comment, found⟩ := swallowed
  have length : (reading e).length = Text.byteLength e.toList := by
    rw [reading_eq, Lexer.length_categories]
  dsimp only at found
  rw [← text, same, ← length, List.getElem?_append_right (Nat.le_refl _), Nat.sub_self,
    ← List.head?_eq_getElem?, head?_behind] at found
  cases found
  exact absurd comment (by decide)

end

/-- The embeds of a row are read one by one where no comment goes on, and only there. -/
theorem categories_row_iff {es : List String} (alone : ∀ e ∈ es, ReadsAlone e) :
    lexer.categories ["root"] (row es) = apart es ↔ Separable es := by
  induction es with
  | nil =>
    have closed : lexer.categories ["root"] (row []) = apart [] := by
      rw [apart, reading_eq, Lexer.categories_eq_run, Lexer.categories_eq_run]
      decide +kernel
    simp [closed, Separable]
  | cons e es ih =>
    obtain ⟨here, later⟩ := List.forall_mem_cons.mp alone
    rw [separable_cons, row, apart_cons, ← ih later]
    by_cases overrun : ∃ p ∈ lexer.run ⟨["root"], 0, e.toList⟩, Overruns (follow es) p
    · obtain ⟨p, hp, goes⟩ := overrun
      exact iff_of_false (categories_ne_of_overruns here ⟨p, hp, goes⟩) fun h => h.1 p hp goes
    · have none : ∀ p ∈ lexer.run ⟨["root"], 0, e.toList⟩, ¬ Overruns (follow es) p :=
        fun p hp goes => overrun ⟨p, hp, goes⟩
      rw [categories_append_follow here none, List.append_cancel_left_eq, and_iff_right none]
      cases es with
      | nil => exact Iff.rfl
      | cons f fs => rw [categories_follow, behind, List.cons_inj_right, List.cons_inj_right]

theorem leads_follow {e : String} {es : List String} (here : ReadsAlone e)
    (none : ∀ p ∈ lexer.run ⟨["root"], 0, e.toList⟩, ¬ Overruns (follow es) p) :
    Leads (e.toList ++ follow es) (follow es) := by
  obtain ⟨s, more, text, sep⟩ := exists_follow es
  rw [text] at none ⊢
  exact here.sound.arrives sep none

/-- The lexer comes to all that stands behind an embed of a row. -/
theorem leads_of_separable {e : String} {es fs : List String}
    (alone : ∀ f ∈ e :: es, ReadsAlone f) (separable : Separable (e :: es)) (later : fs <:+ es) :
    Leads (row (e :: es)) (follow fs) := by
  induction es generalizing e with
  | nil =>
    rw [List.suffix_nil.mp later]
    exact leads_follow (List.forall_mem_cons.mp alone).1 (separable_cons.mp separable).1
  | cons f es ih =>
    obtain ⟨here, rest⟩ := List.forall_mem_cons.mp alone
    obtain ⟨none, others⟩ := separable_cons.mp separable
    have first := leads_follow here none
    rcases List.suffix_cons_iff.mp later with rfl | later
    · exact first
    · have next := ih rest others later
      obtain ⟨s, more, text, sep⟩ := exists_follow fs
      have filled : ∀ y, (follow fs).head? = some y → Text.isBlank y = false := by
        rw [text]
        rintro y same
        obtain rfl := Option.some.inj same
        rcases sep with rfl | rfl | rfl <;> rfl
      have blank : Leads (' ' :: row (f :: es)) (follow fs) := leads_blank rfl filled next
      exact first.trans ((leads_punctuation (IsSeparator.punctuates (.inl rfl)) _).trans blank)

section

variable {text : String}

theorem not_overruns_of_plain (plain : '/' ∉ text.toList) (more : List Char) :
    ∀ p ∈ lexer.run ⟨["root"], 0, text.toList⟩, ¬ Overruns more p :=
  fun _ hp goes => plain ((Lexer.rest_suffix_of_mem_run hp).subset goes.slash)

theorem categories_bracket (h : ReadsAlone text) (plain : '/' ∉ text.toList) (cs : List Char) :
    lexer.categories ["root"] (text.toList ++ '[' :: cs) =
      reading text ++ .punctuation :: lexer.categories ["root"] cs := by
  have bracket : lexer.categories ["root"] ('[' :: cs) = _ :=
    categories_punctuation (IsSeparator.punctuates (.inr (.inl rfl))) cs
  rw [reading_eq, ← bracket]
  exact h.sound.passes (.inr (.inl rfl)) (not_overruns_of_plain plain _)

theorem leads_bracket (h : ReadsAlone text) (plain : '/' ∉ text.toList) (cs : List Char) :
    Leads (text.toList ++ '[' :: cs) cs :=
  Leads.trans (h.sound.arrives (.inr (.inl rfl)) (not_overruns_of_plain plain _))
    (leads_punctuation (IsSeparator.punctuates (.inr (.inl rfl))) cs)

end

theorem opening_reads : ReadsAlone opening ∧ '/' ∉ opening.toList := by decide +kernel

section

variable {d : Descriptor}

theorem reading_render (script : d.script = "") (imports : d.imports = []) (args : d.args = []) :
    reading d.render = reading (opening ++ "[") ++ lexer.categories ["root"] (row d.embeds) := by
  have front : reading (opening ++ "[") = reading opening ++ [.punctuation] := by
    rw [reading_eq, String.toList_append, ← Lexer.categories_nil lexer ["root"]]
    exact categories_bracket opening_reads.1 opening_reads.2 []
  rw [front, reading_eq, toList_render script imports args,
    categories_bracket opening_reads.1 opening_reads.2, List.append_assoc, List.singleton_append]

theorem Descriptor.ReadApart.separable (h : d.ReadApart) (script : d.script = "")
    (imports : d.imports = []) (args : d.args = []) (alone : ∀ e ∈ d.embeds, ReadsAlone e) :
    Separable d.embeds := by
  have same := (reading_render script imports args).symm.trans h.categories
  exact (categories_row_iff alone).mp (List.append_cancel_left same)

/-- Embeds that can be read alone are read one by one in the module, with the commas between them
and the bracket behind them as punctuation, where no comment in one of them goes on, and only
there. -/
theorem Descriptor.readApart_iff (script : d.script = "") (imports : d.imports = [])
    (args : d.args = []) (alone : ∀ e ∈ d.embeds, ReadsAlone e) :
    d.ReadApart ↔ Separable d.embeds := by
  refine ⟨fun h => h.separable script imports args alone, fun separable => ⟨?_, ?_⟩⟩
  · rw [reading_render script imports args, (categories_row_iff alone).mpr separable]
  · intro es later k small
    have stands : Leads (row d.embeds) (follow es) := by
      cases embeds : d.embeds with
      | nil =>
        rw [embeds] at later
        rw [List.suffix_nil.mp later]
        exact Leads.refl _
      | cons e es =>
        rw [embeds] at alone separable later
        exact leads_of_separable alone separable later
    have first : Leads d.render.toList (follow es) :=
      toList_render script imports args ▸
        (leads_bracket opening_reads.1 opening_reads.2 _).trans stands
    obtain rfl | rfl : k = 0 ∨ k = 1 := by omega
    · exact first 0
    · obtain ⟨s, more, text, sep⟩ := exists_follow es
      rw [text] at first ⊢
      exact first.trans (leads_punctuation sep.punctuates more) 0

end

theorem readApart_comments_closed :
    (Descriptor.mk "Card" "card" [] ["a /* b, */ + 1", "\x60\x24\x7bc\x7d\x60 // d\n", "e /* f"] []
      "").ReadApart :=
  (Descriptor.readApart_iff rfl rfl rfl (by decide +kernel)).mpr (by decide +kernel)

/-- The comment at the end of the first embed takes the second one and the end of the array. -/
theorem comment_takes_next_embed :
    ∃ d : Descriptor, d.script = "" ∧ d.imports = [] ∧ d.args = [] ∧
      (∀ e ∈ d.embeds, ReadsAlone e) ∧
        ⟨77, .commentSingle, "// c, b];"⟩ ∈ lexer.tokens d.render ∧ ¬ d.ReadApart := by
  have alone : ∀ e ∈ ["a // c", "b"], ReadsAlone e := by decide +kernel
  have joined : ¬ Separable ["a // c", "b"] := by decide +kernel
  refine ⟨⟨"Card", "card", [], ["a // c", "b"], [], ""⟩, rfl, rfl, rfl, alone, ?_,
    fun h => joined (h.separable rfl rfl rfl alone)⟩
  have loop (text : String) : lexer.tokens text =
      Token.coalesce ((lexer.run ⟨["root"], 0, text.toList⟩).flatMap lexer.piecesAt) :=
    congrArg Token.coalesce (lexer.pieces_eq_run ⟨["root"], 0, text.toList⟩)
  rw [loop]
  decide +kernel

end HybridTemplate.Component
