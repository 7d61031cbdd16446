import HybridTemplate.Proofs.Component.Embeds
import HybridTemplate.Proofs.Component.Meaning

set_option autoImplicit false

namespace HybridTemplate.Component

def embedsAmong (kind : Kind) (c : Node) : List Node :=
  c.preorder.flatMap fun m =>
    if m.kind = kind then m.children.filter fun e => e.kind = .clientEmbed else []

/-- The client embeds in a tree that are values of attributes that bind nothing. -/
def valueEmbeds (c : Node) : List Node :=
  c.preorder.flatMap fun m => if m.kind = .kvAttribute then collectedBy m else []

theorem collectedIn_perm (c : Node) :
    (collectedIn c).Perm
      (embedsAmong .elementChildren c ++ (embedsAmong .jointEmbed c ++ valueEmbeds c)) := by
  have parts (m : Node) : collectedBy m =
      (if m.kind = .elementChildren then m.children.filter fun e => e.kind = .clientEmbed
        else []) ++
        ((if m.kind = .jointEmbed then m.children.filter fun e => e.kind = .clientEmbed else []) ++
          if m.kind = .kvAttribute then collectedBy m else []) := by
    cases hm : m.kind <;> simp [collectedBy, hm]
  rw [collectedIn, funext parts]
  refine (List.flatMap_append_perm _ _ _).symm.trans (List.Perm.append_left _ ?_)
  exact (List.flatMap_append_perm _ _ _).symm

theorem mem_collectedIn_of_element {c e : Node} (he : e ∈ embedsAmong .elementChildren c) :
    e ∈ collectedIn c :=
  (collectedIn_perm c).mem_iff.mpr (List.mem_append_left _ he)

def Emits (ds : List Descriptor) (e : Node) : Prop := ∃ d, ds = [d] ∧ clientCode e ∈ d.embeds

/-- What becomes of the client embeds of a component. -/
structure EmitsItems (c : Node) (ds : List Descriptor) : Prop where
  inElement : ∀ e ∈ embedsAmong .elementChildren c, Emits ds e
  /-- Where one stands in the body, its code is emitted only if another embed has the same. -/
  inBody : ∀ e ∈ embedsAmong .componentBody c,
    Emits ds e ↔ ∃ f ∈ collectedIn c, clientCode f = clientCode e
  embeds : ∀ d ∈ ds, d.embeds.Perm ((embedsAmong .elementChildren c ++
    (embedsAmong .jointEmbed c ++ valueEmbeds c)).map clientCode)
  emitted : (∃ d, ds = [d]) ↔ HasBehaviour c

theorem emits_finished {c : Node} {p : Pending} (adds : Adds c.preorder .empty p) (e : Node) :
    Emits (finished p c) e ↔ ∃ f ∈ collectedIn c, clientCode f = clientCode e := by
  have codes :
      (p.descriptor (declaredName c) c.text).embeds.Perm ((collectedIn c).map clientCode) :=
    (holds_descriptor adds _ _).embeds
  rw [← List.mem_map, ← codes.mem_iff]
  unfold finished
  constructor
  · rintro ⟨d, one, mem⟩
    split at one
    · cases one
    · rw [List.singleton_inj.mp one]
      exact mem
  · intro mem
    obtain ⟨f, hf, -⟩ := List.mem_map.mp (codes.mem_iff.mp mem)
    obtain ⟨m, hm, collected⟩ := List.mem_flatMap.mp hf
    have active : Active c.preorder := .inr (.inl ⟨m, hm, List.ne_nil_of_mem collected⟩)
    rw [if_neg fun none => (isPresentational_iff adds).mp none active]
    exact ⟨_, rfl, mem⟩

theorem emitsItems_finished {c : Node} {p : Pending} (adds : Adds c.preorder .empty p) :
    EmitsItems c (finished p c) where
  inElement := fun e he => (emits_finished adds e).mpr ⟨e, mem_collectedIn_of_element he, rfl⟩
  inBody := fun e _ => emits_finished adds e
  embeds := by
    intro d hd
    have codes := (holds_descriptor adds (declaredName c) c.text).embeds
    unfold finished at hd
    split at hd
    · cases hd
    · rw [List.mem_singleton.mp hd]
      exact codes.trans ((collectedIn_perm c).map clientCode)
  emitted := by
    rw [hasBehaviour_iff, ← not_iff_not, ← isPresentational_iff adds, finished]
    split <;> simp [*]

theorem explains_emitsItems : Explains (fun n => ∀ c ∈ n.components, c.Conforms) EmitsItems where
  child := fun _ _ good hc d hd => good d (Node.mem_components_of_child hc hd)
  part := by
    intro c good hc bare x vs z hx run
    exact emitsItems_finished (adds_component (good c (Node.mem_components_self hc)) hc bare hx run)

namespace Extractor

/-- The client embeds among the children of elements are emitted, each once. One that stands in the
body of a component itself is emitted just where it is collected elsewhere. -/
theorem extract_emits_items {tree : Node} (apart : tree.ComponentsApart)
    (good : ∀ c ∈ tree.components, c.Conforms) (calls : List Call)
    (source : String) (file : Option SourceFile) {ds : List Descriptor}
    (h : ((fresh.after calls).extract tree source file).1.result = .ok ds) :
    ∃ parts, ds = parts.flatten ∧ List.Forall₂ EmitsItems tree.components parts :=
  explains_emitsItems.extract_eq_ok good apart calls source file h

theorem extract_emits_items_of_element :
    let embed : String → Node := fun code =>
      .branch .clientEmbed [.leaf .clientEmbedDelim "\x7b%", .leaf .clientExpr code,
        .leaf .clientEmbedDelim "%\x7d"]
    let within : List Node → Node := fun items =>
      .branch .element [.branch .fragment
        [.leaf .elementPunct "<>", .branch .elementChildren items, .leaf .elementPunct "</>"]]
    let tree : Node := .branch .document [.componentOf "Card" [embed "a", within [embed "b"]]]
    ∃ ds, tree.ComponentsApart ∧ (∀ c ∈ tree.components, c.Conforms) ∧
      ((fresh.after []).extract tree "" none).1.result = .ok ds ∧
      (ds.map fun d => d.embeds) = [["b"]] ∧
      ∃ parts, ds = parts.flatten ∧ List.Forall₂ EmitsItems tree.components parts := by
  intro embed within tree
  have apart : tree.ComponentsApart := by
    unfold Node.ComponentsApart
    decide +kernel
  have good : ∀ c ∈ tree.components, c.Conforms := by decide +kernel
  have shown : (((fresh.after []).extract tree "" none).1.result.toOption.map fun ds =>
      ds.map fun d => d.embeds) = some [["b"]] := by decide +kernel
  obtain ⟨ds, read, kept⟩ := exists_of_map_toOption shown
  exact ⟨ds, apart, good, read, kept, extract_emits_items apart good [] "" none read⟩

/-- A component whose one embed stands in its body is dropped. -/
theorem body_drops_embed :
    let card : Node := .componentOf "Card" [.branch .clientEmbed [.leaf .clientEmbedDelim "\x7b%",
      .leaf .clientExpr "a", .leaf .clientEmbedDelim "%\x7d"]]
    let tree : Node := .branch .document [card]
    tree.Conforms ∧ tree.ComponentsApart ∧ tree.components.length = 1 ∧
      (tree.components.flatMap (embedsAmong .componentBody)).map clientCode = ["a"] ∧
      (fresh.extract tree tree.text none).1.result = .ok [] := by
  intro card tree
  have conforms : tree.Conforms := by decide +kernel
  have apart : tree.ComponentsApart := by
    unfold Node.ComponentsApart
    decide +kernel
  have embeds : (tree.components.flatMap (embedsAmong .componentBody)).map clientCode = ["a"] := by
    decide +kernel
  have read : (fresh.extract tree tree.text none).1.result = .ok [] := by decide +kernel
  exact ⟨conforms, apart, rfl, embeds, read⟩

end Extractor
end HybridTemplate.Component
