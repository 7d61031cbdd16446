import HybridTemplate.Proofs.Component.Hoisting
import HybridTemplate.Proofs.Component.Strays

set_option autoImplicit false

/-! The warnings of a document are counted by its stretches outside components. What is gathered
of a node is pending when the node ends, so a node counts for the stretch in which it ends: the
embeds among the children of an element that a component stands in are warned of behind the
component. -/
namespace HybridTemplate.Component

open Visit (outcome)

def isStray (m : Node) : Bool :=
  (bindingKind? m).isSome || !(collectedBy m).isEmpty ||
    (isScript m && (!Text.isAllBlank (bodyText m) || !(argumentNames m).isEmpty))

/-- Whether behind each import, in front of the next component, stands the script that it is in. -/
def Hoisted : List Node → Prop
  | [] => True
  | n :: ns =>
    (isImport n = true → ∃ s ∈ ns.takeWhile fun m => !m.isComponent,
      isScript s = true ∧ n ∈ bodyNodes s) ∧ Hoisted ns

theorem mem_takeWhile_append {α : Type} {p : α → Bool} {a : α} {as : List α}
    (h : a ∈ as.takeWhile p) (bs : List α) : a ∈ (as ++ bs).takeWhile p := by
  rw [List.takeWhile_append]
  split
  · exact List.mem_append_left _ ((List.takeWhile_sublist p).mem h)
  · exact h

theorem hoisted_append {ms ns : List Node} (hm : Hoisted ms) (hn : Hoisted ns) :
    Hoisted (ms ++ ns) := by
  induction ms with
  | nil => exact hn
  | cons m ms ih =>
    refine ⟨fun imported => ?_, ih hm.2⟩
    obtain ⟨s, hs, script⟩ := hm.1 imported
    exact ⟨s, mem_takeWhile_append hs ns, script⟩

theorem hoisted_flatMap {ms : List Node} {f : Node → List Node} (h : ∀ m ∈ ms, Hoisted (f m)) :
    Hoisted (ms.flatMap f) := by
  induction ms with
  | nil => trivial
  | cons m ms ih =>
    obtain ⟨first, rest⟩ := List.forall_mem_cons.mp h
    rw [List.flatMap_cons]
    exact hoisted_append first (ih rest)

theorem hoisted_singleton {n : Node} (h : n.kind ≠ .staticImport) : Hoisted [n] :=
  ⟨fun imported => absurd (isImport_iff.mp imported) h, trivial⟩

/-- A script that ends behind what stands in its body hoists the imports there. -/
theorem hoisted_concat {ms : List Node} {s : Node} (hs : s.kind = .webScript)
    (free : ∀ m ∈ ms, m.kind ≠ .component)
    (body : ∀ m ∈ ms, isImport m = true → m ∈ bodyNodes s) : Hoisted (ms ++ [s]) := by
  induction ms with
  | nil => exact hoisted_singleton (by simp [hs])
  | cons m ms ih =>
    obtain ⟨-, free⟩ := List.forall_mem_cons.mp free
    obtain ⟨own, body⟩ := List.forall_mem_cons.mp body
    refine ⟨fun imported => ⟨s, ?_, isScript_iff.mpr hs, own imported⟩, ih free body⟩
    have pass : ∀ n ∈ ms ++ [s], (!n.isComponent) = true := by
      intro n hn
      rw [Bool.not_eq_true', Node.not_isComponent_iff]
      rcases List.mem_append.mp hn with inside | last
      · exact free n inside
      · simp [List.mem_singleton.mp last, hs]
    have stretch : ((ms ++ [s]).takeWhile fun m => !m.isComponent) = ms ++ [s] :=
      List.takeWhile_eq_self_iff.mpr pass
    exact stretch.symm ▸ List.mem_append_right ms (List.mem_singleton_self s)

theorem not_component_of_scriptBody {b m : Node} (h : b.Conforms) (hb : b.kind = .scriptBody)
    (hm : m ∈ b.preorder) : m.kind ≠ .component := by
  rcases Node.mem_preorder.mp hm with rfl | ⟨c, hc, below⟩
  · simp [hb]
  have conforms := h.child hc
  rcases h.follows.scriptBody hb c hc with code | hoisted
  · rw [conforms.preorder_of_leaf (by rw [code]; rfl), List.mem_singleton] at below
    simp [below, code]
  · exact conforms.kind_ne_of_leaves (conforms.follows.staticImport hoisted) below
      (by simp [hoisted]) rfl

theorem mem_children_of_import {b m : Node} (h : b.Conforms) (hb : b.kind = .scriptBody)
    (hm : m ∈ b.preorder) (imported : isImport m = true) : m ∈ b.children := by
  have found : m ∈ importsIn b := List.mem_filter.mpr ⟨hm, imported⟩
  rw [importsIn_scriptBody h hb] at found
  exact (List.mem_filter.mp found).1

/-- In the body of a script and behind it, no component stands and the imports are the script's. -/
theorem body_of_webScript {n : Node} (h : n.Conforms) (hn : n.kind = .webScript) :
    ∃ front b e, n.children = front ++ [b, e] ∧ (∀ c ∈ front, c.kind ≠ .scriptBody) ∧
      (∀ c ∈ front, c.kind ≠ .staticImport) ∧
      ∀ m ∈ b.outline ++ e.outline,
        m.kind ≠ .component ∧ (isImport m = true → m ∈ bodyNodes n) := by
  obtain ⟨x, y, a, s, z, b, e, eq, hx, hy, ha, hs, hz, hb, he⟩ := h.follows.webScript hn
  have body : bodyNodes n = b.children := by
    simp [bodyNodes, Node.child?, eq, hx, hy, ha, hs, hz, hb]
  have cb : b.Conforms := h.child (by simp [eq])
  have ce : e.Conforms := h.child (by simp [eq])
  refine ⟨[x, y, a, s, z], b, e, eq, by simp [hx, hy, ha, hs, hz], by simp [hx, hy, ha, hs, hz], ?_⟩
  intro m hm
  rcases List.mem_append.mp hm with inside | behind
  · have below := Node.preorder_of_outline inside
    refine ⟨not_component_of_scriptBody cb hb below, fun imported => ?_⟩
    rw [body]
    exact mem_children_of_import cb hb below imported
  · have below := Node.preorder_of_outline behind
    have leaves := ce.follows.endTag he
    have other : m.kind ≠ .staticImport := ce.kind_ne_of_leaves leaves below (by simp [he]) rfl
    exact ⟨ce.kind_ne_of_leaves leaves below (by simp [he]) rfl,
      fun imported => absurd (isImport_iff.mp imported) other⟩

theorem hoisted_outline {n : Node} (h : n.Conforms) (hb : n.kind ≠ .scriptBody)
    (hi : n.kind ≠ .staticImport) : Hoisted n.outline := by
  induction n using Node.children_induction with
  | node n ih =>
    by_cases hc : n.kind = .component
    · rw [Node.outline_of_component hc]
      exact hoisted_singleton hi
    rw [Node.outline_of_other hc, Node.interior, Node.outlineAll_eq]
    by_cases hs : n.kind = .webScript
    · obtain ⟨front, b, e, eq, bodies, imports, rest⟩ := body_of_webScript h hs
      have before : Hoisted (front.flatMap Node.outline) := hoisted_flatMap fun c hc => by
        have mem : c ∈ n.children := eq ▸ List.mem_append_left _ hc
        exact ih c mem (h.child mem) (bodies c hc) (imports c hc)
      have own : Hoisted (b.outline ++ e.outline ++ [n]) :=
        hoisted_concat hs (fun m hm => (rest m hm).1) fun m hm => (rest m hm).2
      rw [eq, List.flatMap_append, List.append_assoc]
      simpa using hoisted_append before own
    · refine hoisted_append (hoisted_flatMap fun c hc => ?_) (hoisted_singleton hi)
      exact ih c hc (h.child hc) (h.follows.child_ne (Kind.not_mentions_scriptBody hs) c hc)
        (h.follows.child_ne (Kind.not_mentions_staticImport hb) c hc)

theorem splitOnP_eq_cons {α : Type} (p : α → Bool) (as : List α) :
    ∃ ss, as.splitOnP p = (as.takeWhile fun a => !p a) :: ss := by
  induction as with
  | nil => exact ⟨[], rfl⟩
  | cons a as ih =>
    obtain ⟨ss, split⟩ := ih
    rw [List.splitOnP_cons_eq_if_modifyHead, split]
    cases ha : p a with
    | true => exact ⟨_, by simp [ha]; rfl⟩
    | false => exact ⟨ss, by simp [ha]⟩

/-- An import and its script stand in one stretch. -/
theorem script_of_import {ns : List Node} (h : Hoisted ns) :
    ∀ t ∈ ns.splitOnP Node.isComponent, ∀ i ∈ t, isImport i = true →
      ∃ s ∈ t, isScript s = true ∧ i ∈ bodyNodes s := by
  induction ns with
  | nil => simp
  | cons n ns ih =>
    have later := ih h.2
    obtain ⟨ss, split⟩ := splitOnP_eq_cons Node.isComponent ns
    rw [List.splitOnP_cons_eq_if_modifyHead]
    by_cases hn : n.isComponent = true
    · rw [if_pos hn]
      exact List.forall_mem_cons.mpr ⟨by simp, later⟩
    · rw [split, List.forall_mem_cons] at later
      rw [if_neg hn, split, List.modifyHead_cons]
      refine List.forall_mem_cons.mpr ⟨fun i hi imported => ?_, later.2⟩
      have found : ∃ s ∈ ns.takeWhile fun m => !m.isComponent,
          isScript s = true ∧ i ∈ bodyNodes s := by
        rcases List.mem_cons.mp hi with rfl | behind
        · exact h.1 imported
        · exact later.1 i behind imported
      obtain ⟨s, hs, script⟩ := found
      exact ⟨s, List.mem_cons_of_mem n hs, script⟩

theorem touched_iff {ms : List Node} (hoisted : ∀ i ∈ ms, isImport i = true →
      ∃ s ∈ ms, isScript s = true ∧ Text.isAllBlank (bodyText s) = false) :
    Touched ms ↔ ms.any isStray = true := by
  have any : ms.any isStray = true ↔ (∃ m ∈ ms, bindingKind? m ≠ none) ∨
      (∃ m ∈ ms, collectedBy m ≠ []) ∨ (∃ s ∈ ms, isScript s = true ∧
        (Text.isAllBlank (bodyText s) = false ∨ argumentNames s ≠ [])) := by
    simp only [List.any_eq_true, isStray, Bool.or_eq_true, Bool.and_eq_true, Bool.not_eq_true',
      Option.isSome_iff_ne_none, List.isEmpty_eq_false_iff, and_or_left, exists_or, or_assoc]
  rw [any]
  simp only [Touched, Active, List.mem_filter]
  constructor
  · rintro ((⟨s, ⟨hs, script⟩, shown⟩ | embeds | bound) | ⟨s, ⟨hs, script⟩, named⟩ |
      ⟨i, hi, imported⟩)
    · exact .inr (.inr ⟨s, hs, script, .inl shown⟩)
    · exact .inr (.inl embeds)
    · exact .inl bound
    · exact .inr (.inr ⟨s, hs, script, .inr named⟩)
    · obtain ⟨s, hs, script, shown⟩ := hoisted i hi imported
      exact .inr (.inr ⟨s, hs, script, .inl shown⟩)
  · rintro (bound | embeds | ⟨s, hs, script, shown | named⟩)
    · exact .inl (.inr (.inr bound))
    · exact .inl (.inr (.inl embeds))
    · exact .inl (.inl ⟨s, ⟨hs, script⟩, shown⟩)
    · exact .inr (.inl ⟨s, ⟨hs, script⟩, named⟩)

theorem flatten_warned {ss : List (List Node)} {parts : List (List Warning)}
    (h : List.Forall₂ Warned ss parts) (touched : ∀ s ∈ ss, Touched s ↔ s.any isStray = true) :
    parts.flatten = List.replicate (ss.countP fun s => s.any isStray) .strayScript := by
  induction h with
  | nil => rfl
  | @cons s ws ss parts warned _ ih =>
    obtain ⟨first, rest⟩ := List.forall_mem_cons.mp touched
    rw [List.flatten_cons, ih rest, List.countP_cons]
    by_cases stray : s.any isStray = true
    · rw [warned.given (first.mpr stray), if_pos stray, List.replicate_succ]
      rfl
    · rw [warned.silent (mt first.mp stray), if_neg stray]
      rfl

theorem touched_of_strays {tree : Node} (document : tree.kind = .document)
    (conforms : tree.Conforms) (shown : ∀ m ∈ importsIn tree, Text.isAllBlank m.text = false) :
    ∀ s ∈ tree.strays, Touched s ↔ s.any isStray = true := by
  intro t ht
  have hoisted : Hoisted tree.interior := by
    rw [Node.interior, Node.outlineAll_eq]
    refine hoisted_flatMap fun c hc => hoisted_outline (conforms.child hc) ?_ ?_
    · exact conforms.follows.child_ne (Kind.not_mentions_scriptBody (by simp [document])) c hc
    · exact conforms.follows.child_ne (Kind.not_mentions_staticImport (by simp [document])) c hc
  have inside {m : Node} (hm : m ∈ t) : m ∈ tree.preorder := by
    rw [Node.preorder_eq]
    exact List.mem_cons_of_mem _ (Node.mem_preorderAll_iff.mpr
      (.inr (List.mem_flatten.mpr ⟨t, ht, hm⟩)))
  refine touched_iff fun i hi imported => ?_
  obtain ⟨s, hs, script, part⟩ := script_of_import hoisted t ht i hi imported
  refine ⟨s, hs, script, ?_⟩
  rw [bodyText_eq (conforms.of_mem (inside hs)) (isScript_iff.mp script)]
  refine Bool.eq_false_iff.mpr fun blank => ?_
  have own := shown i (List.mem_filter.mpr ⟨inside hi, imported⟩)
  rw [isAllBlank_textOf.mp blank i part] at own
  cases own

namespace Extractor

/-- A document has as many warnings as it has stretches outside components in which something is
left that a warning is for. -/
theorem extract_warns_of_strays {tree : Node} (document : tree.kind = .document)
    (conforms : tree.Conforms) (apart : tree.ComponentsApart)
    (shown : ∀ m ∈ importsIn tree, Text.isAllBlank m.text = false) (calls : List Call)
    (source : String) (file : Option SourceFile) {ds : List Descriptor}
    (h : ((fresh.after calls).extract tree source file).1.result = .ok ds) :
    ((fresh.after calls).extract tree source file).1.warnings =
      List.replicate (tree.strays.countP fun s => s.any isStray) .strayScript := by
  rw [(extract_settled (settled_after calls) tree source file).1] at h ⊢
  rcases visited : outcome (table.visit tree) (atStart (.of source file) []) with ⟨d | v, y⟩
  · rw [extract_of_error settled_fresh visited] at h
    cases h
  · rw [extract_of_ok settled_fresh visited]
    obtain ⟨parts, given, warned⟩ := warned_of_document document conforms apart rfl visited
    exact given.trans (flatten_warned warned (touched_of_strays document conforms shown))

theorem extract_warns_of_strays_around_component :
    let script : String → Node := fun code => .scriptOf
      [.branch .staticImport [.leaf .scriptCode "import ", .leaf .moduleSpecifier "'m'"],
        .leaf .scriptCode code]
    let tree : Node := .branch .document
      [.elementOf "ref" "'a'", script "", .componentOf "Card" [script "run()"],
        .leaf .hostCode "\n", .componentOf "Card" [], .elementOf "refall" "'a'"]
    ∃ ds, tree.kind = .document ∧ tree.Conforms ∧ tree.ComponentsApart ∧
      (∀ m ∈ importsIn tree, Text.isAllBlank m.text = false) ∧
      ((fresh.after []).extract tree tree.text none).1.result = .ok ds ∧
      tree.strays.length = 3 ∧
      ((fresh.after []).extract tree tree.text none).1.warnings = [.strayScript, .strayScript] := by
  intro script tree
  have conforms : tree.Conforms := by decide +kernel
  have apart : tree.ComponentsApart := by
    unfold Node.ComponentsApart
    decide +kernel
  have shown : ∀ m ∈ importsIn tree, Text.isAllBlank m.text = false := by decide +kernel
  have one : (((fresh.after []).extract tree tree.text none).1.result.toOption.map fun ds =>
      ds.length) = some 1 := by decide +kernel
  obtain ⟨ds, read, -⟩ := exists_of_map_toOption one
  have warned := extract_warns_of_strays rfl conforms apart shown [] tree.text none read
  have two : (tree.strays.countP fun s => s.any isStray) = 2 := by decide +kernel
  exact ⟨ds, rfl, conforms, apart, shown, read, by decide +kernel, warned.trans (by rw [two]; rfl)⟩

/-- The stretches before, between and behind the components of a tree as they are written: the
nodes in document order, each with those above it. -/
def writtenStretches (n : Node) : List (List (Node × List Node)) :=
  ((n.lines []).filter fun l => !l.2.any Node.isComponent).splitOnP fun l => l.1.isComponent

/-- Whether an embed below those nodes is among the children of an element, the client part of a
joint embed or the value of an attribute that binds nothing. -/
def isCollectedBelow : List Node → Bool
  | p :: q :: _ => p.kind = .elementChildren || p.kind = .jointEmbed ||
    (p.kind = .attributeValue && q.kind = .kvAttribute && (bindingKind? q).isNone)
  | _ => false

def isWrittenStray (l : Node × List Node) : Bool :=
  (bindingKind? l.1).isSome || (l.1.kind = .clientEmbed && isCollectedBelow l.2) ||
    (isScript l.1 && (!Text.isAllBlank (bodyText l.1) || !(argumentNames l.1).isEmpty))

/-- Embeds before and behind a component in an element give one warning. -/
theorem element_spans_stretches :
    let embed : String → Node := fun code =>
      .branch .clientEmbed [.leaf .clientEmbedDelim "\x7b%", .leaf .clientExpr code,
        .leaf .clientEmbedDelim "%\x7d"]
    let tree : Node := .branch .document [.branch .element [.branch .fragment
      [.leaf .elementPunct "<>",
        .branch .elementChildren [embed "a", .componentOf "Card" [], embed "b"],
        .leaf .elementPunct "</>"]]]
    tree.kind = .document ∧ tree.Conforms ∧ tree.ComponentsApart ∧ importsIn tree = [] ∧
      ((writtenStretches tree).countP fun s => s.any isWrittenStray) = 2 ∧
      (fresh.extract tree tree.text none).1.result = .ok [] ∧
      (fresh.extract tree tree.text none).1.warnings = [.strayScript] := by
  intro embed tree
  have conforms : tree.Conforms := by decide +kernel
  have apart : tree.ComponentsApart := by
    unfold Node.ComponentsApart
    decide +kernel
  have unhoisted : importsIn tree = [] := by decide +kernel
  have two : ((writtenStretches tree).countP fun s => s.any isWrittenStray) = 2 := by
    decide +kernel
  have read : (fresh.extract tree tree.text none).1.result = .ok [] := by decide +kernel
  have warned : (fresh.extract tree tree.text none).1.warnings = [.strayScript] := by
    decide +kernel
  exact ⟨rfl, conforms, apart, unhoisted, two, read, warned⟩

end Extractor
end HybridTemplate.Component
