import HybridTemplate.Proofs.Highlight.Structure
import Mathlib.Data.List.Infix

set_option autoImplicit false

namespace HybridTemplate.Highlight

/-- Whether the first of a line covers: it has a meaning and none of those above it has. -/
def covers : List Node → Bool
  | [] => false
  | n :: above => table.handles n.kind && above.all fun m => !table.handles m.kind

/-- What a covering node gives. -/
def span? (l : Node × List Node) : Option (Run TokenKind) :=
  if covers (l.1 :: l.2) then (tokenKind? l.1.kind l.1.text).map fun k => ⟨k, l.1.text⟩ else none

/-- A leaf with a text that neither covers nor stands below a node that does. -/
def isUntyped (l : Node × List Node) : Bool :=
  l.1.isLeaf && l.1.text != "" && !(l.1 :: l.2).tails.any covers

def spans (tree : Node) : List (Run TokenKind) := (tree.lines []).filterMap span?

def untyped (tree : Node) : List Node := ((tree.lines []).filter isUntyped).map Prod.fst

def unresolved? (lexers : Lexers) : TokenKind → Option SubLanguage
  | .embedded language => if (lexers language).isNone then some language else none
  | .terminal _ => none

def unresolved (lexers : Lexers) (tree : Node) : List SubLanguage :=
  ((spans tree).filter fun r => r.text ≠ "").filterMap fun r => unresolved? lexers r.kind

theorem handles_eq (kind : Kind) (text : String) :
    table.handles kind = (tokenKind? kind text).isSome := by
  rw [tokenKind?_isSome_text kind text ""]
  cases h : (tokenKind? kind "").isSome <;> simp [Table.handles, table, h]

/-- A covering node is on a line as soon as a node with a meaning is: the highest of them. -/
theorem any_covers_tails (line : List Node) :
    line.tails.any covers = line.any fun n => table.handles n.kind := by
  induction line with
  | nil => rfl
  | cons n above ih =>
    rw [List.tails_cons, List.any_cons, ih, List.any_cons, covers, ← List.not_any_eq_all_not]
    cases table.handles n.kind <;> cases above.any fun m => table.handles m.kind <;> rfl

theorem hidden {above : List Node} (ns : List Node)
    (h : ∃ m ∈ above, table.handles m.kind = true) :
    (Node.linesAll above ns).filterMap span? = [] ∧
      (Node.linesAll above ns).filter isUntyped = [] := by
  have marked : ∀ l ∈ Node.linesAll above ns, ∃ m ∈ l.2, table.handles m.kind = true := by
    intro l hl
    obtain ⟨m, hm, handled⟩ := h
    exact ⟨m, (Node.suffix_of_mem_linesAll hl).subset hm, handled⟩
  constructor
  · refine List.filterMap_eq_nil_iff.mpr fun l hl => ?_
    obtain ⟨m, hm, handled⟩ := marked l hl
    have not : covers (l.1 :: l.2) = false := by
      rw [covers, Bool.and_eq_false_iff]
      exact .inr (List.all_eq_false.mpr ⟨m, hm, by simp [handled]⟩)
    simp [span?, not]
  · refine List.filter_eq_nil_iff.mpr fun l hl => ?_
    obtain ⟨m, hm, handled⟩ := marked l hl
    have under : (l.1 :: l.2).tails.any covers = true := by
      rw [any_covers_tails]
      exact List.any_eq_true.mpr ⟨m, List.mem_cons_of_mem l.1 hm, handled⟩
    rw [isUntyped, under, Bool.not_true, Bool.and_false]
    exact Bool.false_ne_true

def Plain (above : List Node) : Prop := ∀ m ∈ above, table.handles m.kind = false

theorem plain_nil : Plain [] := fun _ hm => nomatch hm

theorem Plain.cons {above : List Node} (h : Plain above) {n : Node}
    (hn : table.handles n.kind = false) : Plain (n :: above) := by
  intro m hm
  rcases List.mem_cons.mp hm with rfl | later
  · exact hn
  · exact h m later

theorem Plain.span?_eq {above : List Node} (h : Plain above) (n : Node) :
    span? (n, above) = (tokenKind? n.kind n.text).map fun k => ⟨k, n.text⟩ := by
  have free : (above.all fun m => !table.handles m.kind) = true :=
    List.all_eq_true.mpr fun m hm => by simp [h m hm]
  rw [span?, covers, free, Bool.and_true, handles_eq n.kind n.text]
  cases tokenKind? n.kind n.text <;> rfl

theorem Plain.isUntyped_eq {above : List Node} (h : Plain above) (n : Node) :
    isUntyped (n, above) = (n.isLeaf && n.text != "" && !table.handles n.kind) := by
  have free : (above.any fun m => table.handles m.kind) = false :=
    List.any_eq_false.mpr fun m hm => by simp [h m hm]
  rw [isUntyped, any_covers_tails, List.any_cons, free, Bool.or_false]

mutual

/-- What a node hands up where nothing above it has a meaning. -/
theorem shape_eq (n : Node) {above : List Node} (h : Plain above) :
    (shape n).items = (n.lines above).filterMap span? ∧
      (shape n).texts.filter (· ≠ "") =
        ((n.lines above).filter isUntyped).map fun l => l.1.text := by
  match n with
  | ⟨kind, start, text, children⟩ =>
    have handles := handles_eq kind text
    rw [Node.lines, List.filterMap_cons, h.span?_eq, List.filter_cons, h.isUntyped_eq, shape]
    split
    · rename_i k known
      rw [known] at handles
      have marked : ∃ m ∈ (⟨kind, start, text, children⟩ : Node) :: above,
          table.handles m.kind = true := ⟨_, List.mem_cons_self, handles⟩
      obtain ⟨none, typed⟩ := hidden children marked
      simp [known, handles, none, typed, Value.items, Value.texts]
    · rename_i unknown
      rw [unknown] at handles
      have plain := h.cons (n := ⟨kind, start, text, children⟩) handles
      match children with
      | [] =>
        rw [unknown]
        by_cases void : text = "" <;>
          simp [handles, void, shapes, Table.passOn, Node.linesAll, Node.isLeaf, Value.items,
            Value.texts]
      | c :: cs =>
        obtain ⟨items, texts⟩ := shapes_eq (c :: cs) plain
        rw [← items]
        constructor
        · simp [unknown, shapes, Table.passOn, Value.items]
        · simpa [Node.isLeaf, shapes, Table.passOn, Value.texts] using texts

theorem shapes_eq (ns : List Node) {above : List Node} (h : Plain above) :
    Value.itemsAll (shapes ns) = (Node.linesAll above ns).filterMap span? ∧
      (Value.textsAll (shapes ns)).filter (· ≠ "") =
        ((Node.linesAll above ns).filter isUntyped).map fun l => l.1.text := by
  match ns with
  | [] => exact ⟨rfl, rfl⟩
  | n :: ns =>
    obtain ⟨items, texts⟩ := shape_eq n h
    obtain ⟨itemsAll, textsAll⟩ := shapes_eq ns h
    rw [shapes, Value.itemsAll, Value.textsAll, Node.linesAll, List.filterMap_append,
      List.filter_append, List.filter_append, List.map_append, items, texts, itemsAll, textsAll]
    exact ⟨rfl, rfl⟩

end

theorem items_shape (tree : Node) : (shape tree).items = spans tree :=
  (shape_eq tree plain_nil).1

theorem firstText?_shape (tree : Node) :
    (shape tree).firstText? = (untyped tree).head?.map Node.text := by
  have texts := (shape_eq tree plain_nil).2
  rw [Value.firstText?, ← List.head?_filter, texts, untyped, List.head?_map, List.head?_map,
    Option.map_map]
  rfl

theorem runs_eq_error_iff {tree : Node} {e : CompileError} :
    runs tree = .error e ↔
      ∃ n, (untyped tree).head? = some n ∧ e = .untypedFragment n.text := by
  rw [runs_eq_merge, merge_eq_error_iff, firstText?_shape]
  constructor
  · rintro ⟨s, found, rfl⟩
    obtain ⟨n, first, rfl⟩ := Option.map_eq_some_iff.mp found
    exact ⟨n, first, rfl⟩
  · rintro ⟨n, first, rfl⟩
    exact ⟨n.text, by rw [first]; rfl, rfl⟩

theorem runs_eq_ok_iff {tree : Node} {rs : List (Run TokenKind)} :
    runs tree = .ok rs ↔
      untyped tree = [] ∧ Run.Canonical rs ∧ Run.expansion rs = Run.expansion (spans tree) := by
  have typed : (∀ s ∈ (shape tree).texts, s = "") ↔ untyped tree = [] := by
    have first := firstText?_shape tree
    rw [Value.firstText?] at first
    rw [← List.head?_eq_none_iff, ← Option.map_eq_none_iff (f := Node.text), ← first,
      List.find?_eq_none]
    simp
  rw [runs_eq_merge, merge_eq_ok_iff, typed, items_shape, Run.eq_coalesce_iff]

theorem firstUnresolved?_eq {lexers : Lexers} {tree : Node} {rs : List (Run TokenKind)}
    (h : runs tree = .ok rs) : firstUnresolved? lexers rs = (unresolved lexers tree).head? := by
  obtain ⟨-, canonical, same⟩ := runs_eq_ok_iff.mp h
  have filled : (rs.filter fun r => r.text ≠ "") = rs :=
    List.filter_eq_self.mpr fun r hr => by simpa using canonical.filled r hr
  have kinds : firstUnresolved? lexers rs = rs.findSome? fun r => unresolved? lexers r.kind := rfl
  calc
    firstUnresolved? lexers rs = (rs.filter fun r => r.text ≠ "").findSome? fun r =>
        unresolved? lexers r.kind := by rw [kinds, filled]
    _ = ((spans tree).filter fun r => r.text ≠ "").findSome? fun r =>
        unresolved? lexers r.kind := by
      rw [← Run.findSome?_expansion, same, Run.findSome?_expansion]
    _ = (unresolved lexers tree).head? := (List.head?_filterMap).symm

theorem tokensOfTree_eq_error_iff {lexers : Lexers} {tree : Node} {e : CompileError} :
    tokensOfTree lexers tree = .error e ↔
      runs tree = .error e ∨ untyped tree = [] ∧
        ∃ language, (unresolved lexers tree).head? = some language ∧
          e = .unresolvedSubLanguage language := by
  unfold tokensOfTree
  cases structural : runs tree with
  | error e' =>
    obtain ⟨n, first, -⟩ := runs_eq_error_iff.mp structural
    have some : untyped tree ≠ [] := fun none => by simp [none] at first
    simp [bind, Except.bind, some]
  | ok rs =>
    have typed := (runs_eq_ok_iff.mp structural).1
    dsimp only [bind, Except.bind]
    rw [firstUnresolved?_eq structural]
    cases (unresolved lexers tree).head? with
    | none => simp
    | some language => simp [typed, eq_comm]

/-- The tokens are known from the start of a tree and the kinds of its characters. -/
theorem tokensOfTree_congr {tree other : Node} (lexers : Lexers) (start : other.start = tree.start)
    (typed : untyped tree = []) (typed' : untyped other = [])
    (same : Run.expansion (spans other) = Run.expansion (spans tree)) :
    tokensOfTree lexers other = tokensOfTree lexers tree := by
  have runs : runs other = runs tree := by
    have done : runs tree = .ok (Run.coalesce (spans tree)) :=
      runs_eq_ok_iff.mpr ⟨typed, Run.eq_coalesce_iff.mp rfl⟩
    obtain ⟨canonical, expands⟩ := Run.eq_coalesce_iff.mp (rfl : Run.coalesce (spans tree) = _)
    rw [done]
    exact runs_eq_ok_iff.mpr ⟨typed', canonical, expands.trans same.symm⟩
  rw [tokensOfTree, tokensOfTree, runs, start]

/-- The structural pass fails at the first text without a meaning, and otherwise gives the only
canonical runs of what covers the tree. Highlighting fails as the pass does, or for the first
language that has no lexer, and sees no more of a tree than its start and the kinds of its
characters. -/
theorem structural_pass_exact (lexers : Lexers) (tree : Node) :
    (∀ e, runs tree = .error e ↔
      ∃ n, (untyped tree).head? = some n ∧ e = .untypedFragment n.text) ∧
    (∀ rs, runs tree = .ok rs ↔
      untyped tree = [] ∧ Run.Canonical rs ∧ Run.expansion rs = Run.expansion (spans tree)) ∧
    (∀ e, tokensOfTree lexers tree = .error e ↔
      runs tree = .error e ∨ untyped tree = [] ∧
        ∃ language, (unresolved lexers tree).head? = some language ∧
          e = .unresolvedSubLanguage language) ∧
    ∀ other : Node, other.start = tree.start → untyped tree = [] → untyped other = [] →
      Run.expansion (spans other) = Run.expansion (spans tree) →
        tokensOfTree lexers other = tokensOfTree lexers tree :=
  ⟨fun _ => runs_eq_error_iff, fun _ => runs_eq_ok_iff, fun _ => tokensOfTree_eq_error_iff,
    fun _ start typed typed' same => tokensOfTree_congr lexers start typed typed' same⟩

theorem structural_pass_exact_nested :
    let tree : Node := ⟨.document, 3, "let x", [⟨.scriptCode, 3, "let x", []⟩]⟩
    let other : Node := ⟨.document, 3, "", [⟨.staticImport, 8, "le", [⟨.other "path", 1, "?", []⟩]⟩,
      ⟨.attributes, 0, "", []⟩,
      ⟨.other "group", 5, "", [⟨.scriptCode, 2, "t x", [⟨.operator, 0, "t", []⟩]⟩]⟩]⟩
    untyped tree = [] ∧ untyped other = [] ∧
      tokensOfTree builtinLexers other = tokensOfTree builtinLexers tree := by
  intro tree other
  have same : Run.expansion (spans other) = Run.expansion (spans tree) := by decide +kernel
  exact ⟨rfl, rfl, (structural_pass_exact builtinLexers tree).2.2.2 other rfl rfl rfl same⟩

end HybridTemplate.Highlight
