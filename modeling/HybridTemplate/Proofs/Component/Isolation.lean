import HybridTemplate.Proofs.Component.Parts
import HybridTemplate.Proofs.Component.Placement

set_option autoImplicit false

namespace HybridTemplate.Component

open Visit (outcome)

theorem finished_shift (k : Nat) (p : Pending) (c : Node) :
    finished (p.shift k) (c.shift k) = finished p c := by
  rw [finished, finished, Pending.isPresentational_shift, Pending.descriptor_shift,
    declaredName_shift, Node.shift_text]

/-- A component alone in a document of its own has those descriptors, wherever the document
comes from. -/
def GivesAlone (c : Node) (ds : List Descriptor) : Prop :=
  ∀ source file, (Extractor.fresh.extract (.branch .document [c]) source file).1.result = .ok ds

theorem branch_singleton (kind : Kind) (c : Node) :
    Node.branch kind [c] = ⟨kind, 0, Node.textOf [c], [c.rebase 0]⟩ := by
  rw [Node.branch, Node.rebase, Node.rebaseAll, Node.rebaseAll]

theorem givesAlone_rebase (c : Node) : GivesAlone (c.rebase 0) = GivesAlone c := by
  have same : Node.branch .document [c.rebase 0] = Node.branch .document [c] := by
    rw [branch_singleton, branch_singleton, Node.rebase_rebase, Node.textOf_cons, Node.textOf_cons,
      Node.rebase_text]
  unfold GivesAlone
  rw [same]

theorem forall₂_givesAlone_rebase {cs : List Node} {parts : List (List Descriptor)} :
    List.Forall₂ GivesAlone (cs.map (Node.rebase 0)) parts ↔ List.Forall₂ GivesAlone cs parts := by
  simp only [List.forall₂_map_left_iff, givesAlone_rebase]

theorem givesAlone_unique : Relator.RightUnique GivesAlone :=
  fun _ _ _ h k => Except.ok.inj ((h "" none).symm.trans (k "" none))

/-- The document of a component that stands alone is traversed as the component is. -/
theorem givesAlone_of_visitAll {c : Node} (hc : c.kind = .component) (laid : c.LaidOut)
    (bare : ∀ d ∈ c.children, d.components = []) {x z : Extractor} {vs : List (Value ScriptItem)}
    (hx : x.pending = .empty) (below : outcome (table.visitAll c.children) x = (.ok vs, z)) :
    GivesAlone c (finished z.pending c) := by
  intro source file
  let first := c.rebase 0
  let start := Extractor.atStart (.of source file) []
  have moved : first.shift c.start = c := laid.shift_eq
  have children : c.children = first.children.map (Node.shift c.start) := by
    rw [← Node.shift_children, moved]
  -- Alone the component stands at the beginning, here `c.start` bytes later.
  have apart := (treatsAlike_shift c.start).visitAll first.children x start.dropStray hx
  rw [← children, below] at apart
  obtain ⟨agree, gathered⟩ := apart
  have kind : first.kind = .component := (Node.rebase_kind 0 c).trans hc
  rcases run : outcome (table.visitAll first.children) start.dropStray with ⟨e | ws, w⟩
  · rw [run] at agree
    cases agree
  rw [run] at gathered
  have visited : outcome (table.visit first) start =
      (.ok .empty, w.finish (declaredName first) first.text) :=
    Table.visit_eq_ok.mpr ⟨_, ws, w, enter_component kind _, run, leave_component kind ws w⟩
  have document : outcome (table.visit (.branch .document [c])) start =
      (.ok .empty, (w.finish (declaredName first) first.text).dropStray) := by
    have other : Kind.document ≠ .component := by decide
    rw [branch_singleton]
    refine Table.visit_eq_ok.mpr
      ⟨start, [.empty], _, enter_other other _, ?_, leave_document rfl _ _⟩
    exact Table.visitAll_cons_eq_ok.mpr
      ⟨_, _, [], visited, Table.visitAll_nil_eq_ok.mpr ⟨rfl, rfl⟩, rfl⟩
  have none : w.components = [] := by
    refine establishes_unchanged.visitAll first.children _ ws w run fun d hd => ?_
    have there := bare (d.shift c.start) (children ▸ List.mem_map_of_mem hd)
    rw [Node.components_shift] at there
    exact List.map_eq_nil_iff.mp there
  have same : finished w.pending first = finished z.pending c := by
    have gathered : z.pending = w.pending.shift c.start := gathered
    rw [gathered, ← finished_shift c.start, moved]
  rw [Extractor.extract_of_ok settled_fresh document]
  refine congrArg Except.ok ?_
  change (w.finish (declaredName first) first.text).components = _
  rw [components_finish, none, List.nil_append, same]

theorem explains_givesAlone : Explains Node.LaidOut GivesAlone where
  child := fun _ _ laid hc => laid.child hc
  part := fun _ laid hc bare _ _ _ hx below => givesAlone_of_visitAll hc laid bare hx below

namespace Extractor

theorem extract_eq_ok {tree : Node} (built : tree.Built) (apart : tree.ComponentsApart)
    (calls : List Call) (source : String) (file : Option SourceFile) {ds : List Descriptor}
    (h : ((fresh.after calls).extract tree source file).1.result = .ok ds) :
    ∃ parts, ds = parts.flatten ∧ List.Forall₂ GivesAlone tree.components parts :=
  explains_givesAlone.extract_eq_ok built.laidOut apart calls source file h

/-- Each component gives what it gives in a document of its own, so two documents with the same
components give the same, whatever stands around these and whatever was extracted before. -/
theorem extract_isolated {tree : Node} (built : tree.Built) (apart : tree.ComponentsApart)
    (calls : List Call) (source : String) (file : Option SourceFile) {ds : List Descriptor}
    (h : ((fresh.after calls).extract tree source file).1.result = .ok ds) :
    (∃ parts, ds = parts.flatten ∧ List.Forall₂ GivesAlone tree.components parts) ∧
      ∀ other : Node, other.Built → other.ComponentsApart →
        other.components.map (Node.rebase 0) = tree.components.map (Node.rebase 0) →
        ∀ calls' source' file' es,
          ((fresh.after calls').extract other source' file').1.result = .ok es → es = ds := by
  obtain ⟨parts, rfl, alone⟩ := extract_eq_ok built apart calls source file h
  refine ⟨⟨parts, rfl, alone⟩, ?_⟩
  intro other built' apart' same calls' source' file' es h'
  obtain ⟨parts', rfl, alone'⟩ := extract_eq_ok built' apart' calls' source' file' h'
  rw [← forall₂_givesAlone_rebase] at alone alone'
  rw [same] at alone'
  rw [givesAlone_unique.forall₂ alone' alone]

theorem extract_isolated_amid_strays :
    let embed : String → Node := fun code =>
      .branch .jointEmbed [.branch .clientEmbed [.leaf .clientExpr code]]
    let tree : Node := .branch .document
      [embed "x", .branch .component [embed "a", embed "b"],
        embed "y", .branch .component [embed "c"]]
    ∃ ds, tree.Built ∧ tree.ComponentsApart ∧
      ((fresh.after []).extract tree "" none).1.result = .ok ds ∧ ds.length = 2 ∧
      ∃ parts, ds = parts.flatten ∧ List.Forall₂ GivesAlone tree.components parts := by
  intro embed tree
  have embedded : ∀ code, (embed code).Built := by
    intro code
    refine .branch _ _ (List.forall_mem_singleton.mpr ?_)
    exact .branch _ _ (List.forall_mem_singleton.mpr (.leaf _ _))
  have built : tree.Built := by
    have first : Node.Built (.branch .component [embed "a", embed "b"]) :=
      .branch _ _ (List.forall_mem_cons.mpr
        ⟨embedded "a", List.forall_mem_singleton.mpr (embedded "b")⟩)
    have second : Node.Built (.branch .component [embed "c"]) :=
      .branch _ _ (List.forall_mem_singleton.mpr (embedded "c"))
    refine .branch _ _ ?_
    simp only [List.forall_mem_cons]
    exact ⟨embedded "x", first, embedded "y", second, List.forall_mem_nil _⟩
  have apart : tree.ComponentsApart := by
    unfold Node.ComponentsApart
    decide
  refine ⟨_, built, apart, rfl, rfl, ?_⟩
  exact (extract_isolated built apart [] "" none rfl).1

end Extractor
end HybridTemplate.Component
