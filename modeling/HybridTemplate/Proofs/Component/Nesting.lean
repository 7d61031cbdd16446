import HybridTemplate.Proofs.Component.Meaning
import HybridTemplate.Proofs.Component.Passing

set_option autoImplicit false

namespace HybridTemplate.Component

open Visit (outcome)

/-- Whether descriptors are those of what stands in a component behind the last one in it. -/
structure Keeps (c : Node) (ds : List Descriptor) : Prop where
  emitted : Active c.tail → ∃ d, ds = [d] ∧ d.name = declaredName c ∧
    d.identifier = identifier (declaredName c) c.text ∧ Holds c.tail d
  silent : ¬ Active c.tail → ds = []
  whole : (∀ d ∈ c.children, d.components = []) →
    c.tail.Perm (Node.preorderAll c.children)

theorem keeps_finished {c : Node} {p : Pending} (adds : Adds c.tail .empty p) :
    Keeps c (finished p c) where
  emitted := by
    intro some
    have shown : ¬ p.isPresentational = true := fun none => (isPresentational_iff adds).mp none some
    rw [finished, if_neg shown]
    have holds := holds_descriptor adds (declaredName c) c.text
    exact ⟨p.descriptor (declaredName c) c.text, rfl, rfl, rfl, holds⟩
  silent := by
    intro none
    rw [finished, if_pos ((isPresentational_iff adds).mpr none)]
  whole := Node.tail_perm

theorem makes_keeps : Makes Node.Conforms Keeps where
  child := fun _ _ conforms hc => conforms.child hc
  part := by
    intro c conforms _ x vs z hx run
    exact keeps_finished (adds_passed (gatherable_interior conforms) hx (passed_of_visitAll run))

namespace Extractor

/-- A descriptor has what stands in its component behind the last component in it, and nothing of
what stands before. -/
theorem extract_keeps {tree : Node} (conforms : tree.Conforms) (calls : List Call)
    (source : String) (file : Option SourceFile) {ds : List Descriptor}
    (h : ((fresh.after calls).extract tree source file).1.result = .ok ds) :
    ∃ parts, ds = parts.flatten ∧ List.Forall₂ Keeps tree.ended parts :=
  makes_keeps.extract_eq_ok conforms calls source file h

theorem extract_keeps_nested :
    let embed : String → Node := fun code =>
      .branch .jointEmbed [.leaf .formatString "f''", .leaf .space "",
        .branch .clientEmbed [.leaf .clientEmbedDelim "<", .leaf .clientExpr code,
          .leaf .clientEmbedDelim ">"]]
    let tree : Node := .branch .document
      [.componentOf "Outer" [embed "a", .componentOf "Inner" [embed "b"], embed "c"]]
    ∃ ds, tree.Conforms ∧ ((fresh.after []).extract tree "" none).1.result = .ok ds ∧
      (ds.map fun d => (d.name, d.embeds)) = [("Inner", ["b"]), ("Outer", ["c"])] ∧
      ∃ parts, ds = parts.flatten ∧ List.Forall₂ Keeps tree.ended parts := by
  intro embed tree
  have conforms : tree.Conforms := by decide +kernel
  have shown : (((fresh.after []).extract tree "" none).1.result.toOption.map fun ds =>
      ds.map fun d => (d.name, d.embeds)) = some [("Inner", ["b"]), ("Outer", ["c"])] := by
    decide +kernel
  obtain ⟨ds, read, kept⟩ := exists_of_map_toOption shown
  exact ⟨ds, conforms, read, kept, extract_keeps conforms [] "" none read⟩

/-- A binding that a component makes in front of another one in it is lost. -/
theorem nested_component_drops_binding :
    let outer : Node := .componentOf "Outer"
      [.elementOf "ref" "'a'", .componentOf "Inner" [], .elementOf "ref" "'b'"]
    let tree : Node := .branch .document [outer]
    tree.Conforms ∧ boundNames .ref (outer.interior.filter fun n => !n.isComponent) = ["a", "b"] ∧
      ∃ d, (fresh.extract tree "" none).1.result = .ok [d] ∧ d.name = "Outer" ∧
        d.args = ["b"] := by
  intro outer tree
  have conforms : tree.Conforms := by decide +kernel
  have names : boundNames .ref (outer.interior.filter fun n => !n.isComponent) = ["a", "b"] := by
    decide +kernel
  have shown : ((fresh.extract tree "" none).1.result.toOption.map fun ds =>
      ds.map fun d => (d.name, d.args)) = some [("Outer", ["b"])] := by decide +kernel
  obtain ⟨ds, read, kept⟩ := exists_of_map_toOption shown
  obtain ⟨d, rfl, own⟩ := List.map_eq_singleton_iff.mp kept
  exact ⟨conforms, names, d, read, (Prod.mk.inj own).1, (Prod.mk.inj own).2⟩

end Extractor
end HybridTemplate.Component
