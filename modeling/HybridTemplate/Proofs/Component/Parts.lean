import HybridTemplate.Proofs.Component.History
import HybridTemplate.Proofs.Tree.Outline

set_option autoImplicit false

namespace HybridTemplate.Component

open Visit (outcome)

def finished (p : Pending) (c : Node) : List Descriptor :=
  if p.isPresentational then [] else [p.descriptor (declaredName c) c.text]

theorem components_finish (x : Extractor) (c : Node) :
    (x.finish (declaredName c) c.text).components = x.components ++ finished x.pending c := by
  unfold Extractor.finish finished
  by_cases h : x.pending.isPresentational = true <;> simp [h]

theorem establishes_unchanged :
    table.Establishes (fun n x _ y => n.components = [] → y.components = x.components)
      (fun ns x _ y => (∀ n ∈ ns, n.components = []) → y.components = x.components) where
  node := by
    intro n x x₁ vs x₂ v y entered _ below left bare
    rw [Node.components_eq, List.append_eq_nil_iff, List.flatMap_eq_nil_iff] at bare
    have other : n.kind ≠ .component := by
      intro hc
      rw [if_pos hc] at bare
      exact List.cons_ne_nil n [] bare.1
    have leaving := (leave_touches n vs x₂).2.2 other
    rw [left] at leaving
    exact leaving.trans ((below bare.2).trans (enter_touches entered).2.2)
  nil := fun _ _ => rfl
  cons := by
    intro n ns x v x₁ vs y first rest bare
    obtain ⟨head, tail⟩ := List.forall_mem_cons.mp bare
    exact (rest tail).trans (first head)

/-- Descriptors are added component by component, and `R` holds of each component and its own. -/
def AddsParts (R : Node → List Descriptor → Prop) (cs : List Node) (x y : Extractor) : Prop :=
  ∃ parts, y.components = x.components ++ parts.flatten ∧ List.Forall₂ R cs parts

section

variable {R : Node → List Descriptor → Prop}

theorem addsParts_of_eq {x y : Extractor} (h : y.components = x.components) : AddsParts R [] x y :=
  ⟨[], by rw [List.flatten_nil, List.append_nil, h], .nil⟩

theorem AddsParts.trans {cs ds : List Node} {x y z : Extractor} (h : AddsParts R cs x y)
    (k : AddsParts R ds y z) : AddsParts R (cs ++ ds) x z := by
  obtain ⟨parts, added, related⟩ := h
  obtain ⟨more, added', related'⟩ := k
  refine ⟨parts ++ more, ?_, List.rel_append related related'⟩
  rw [added', added, List.flatten_append, List.append_assoc]

/-- Whether `R` holds of the components that satisfy `G` and of what they are made into at their
ends. -/
structure Makes (G : Node → Prop) (R : Node → List Descriptor → Prop) : Prop where
  child : ∀ n c, G n → c ∈ n.children → G c
  part : ∀ c, G c → c.kind = .component →
    ∀ x vs z, x.pending = .empty → outcome (table.visitAll c.children) x = (.ok vs, z) →
      R c (finished z.pending c)

variable {G : Node → Prop}

theorem Makes.establishes (hm : Makes G R) :
    table.Establishes (fun n x _ y => G n → AddsParts R n.ended x y)
      (fun ns x _ y => (∀ n ∈ ns, G n) → AddsParts R (ns.flatMap Node.ended) x y) where
  node := by
    intro n x x₁ vs x₂ v y entered run below left good
    have entering := addsParts_of_eq (R := R) (enter_touches entered).2.2
    have inner := entering.trans (below fun d hd => hm.child n d good hd)
    rw [Node.ended_eq, ← List.nil_append (List.flatMap _ _)]
    refine inner.trans ?_
    by_cases hc : n.kind = .component
    · rw [enter_component hc] at entered
      cases entered
      rw [leave_component hc] at left
      cases left
      have own := hm.part n good hc _ _ _ rfl run
      rw [if_pos hc]
      exact ⟨[finished x₂.pending n], by rw [components_finish, List.flatten_singleton],
        .cons own .nil⟩
    · have touched := (leave_touches n vs x₂).2.2 hc
      rw [left] at touched
      rw [if_neg hc]
      exact addsParts_of_eq touched
  nil := fun _ _ => addsParts_of_eq rfl
  cons := by
    intro n ns x v x₁ vs y first rest good
    obtain ⟨goodHead, goodTail⟩ := List.forall_mem_cons.mp good
    rw [List.flatMap_cons]
    exact (first goodHead).trans (rest goodTail)

open Extractor in
/-- The descriptors of a document are those of its components, in the order of their ends. -/
theorem Makes.extract_eq_ok (hm : Makes G R) {tree : Node} (good : G tree) (calls : List Call)
    (source : String) (file : Option SourceFile) {ds : List Descriptor}
    (h : ((fresh.after calls).extract tree source file).1.result = .ok ds) :
    ∃ parts, ds = parts.flatten ∧ List.Forall₂ R tree.ended parts := by
  rw [(extract_settled (settled_after calls) tree source file).1] at h
  rcases visited : outcome (table.visit tree) (atStart (.of source file) []) with ⟨e | v, y⟩
  · rw [extract_of_error settled_fresh visited] at h
    cases h
  · rw [extract_of_ok settled_fresh visited] at h
    have whole : y.components = ds := Except.ok.inj h
    obtain ⟨parts, added, related⟩ := hm.establishes.visit tree _ v y visited good
    refine ⟨parts, ?_, related⟩
    rw [← whole, added]
    rfl

structure Explains (G : Node → Prop) (R : Node → List Descriptor → Prop) : Prop where
  child : ∀ n c, G n → c ∈ n.children → G c
  part : ∀ c, G c → c.kind = .component → (∀ d ∈ c.children, d.components = []) →
    ∀ x vs z, x.pending = .empty → outcome (table.visitAll c.children) x = (.ok vs, z) →
      R c (finished z.pending c)

theorem Explains.makes (he : Explains G R) : Makes (fun n => G n ∧ n.ComponentsApart) R where
  child := fun n c good hc => ⟨he.child n c good.1 hc, good.2.child hc⟩
  part := fun c good hc => he.part c good.1 hc (good.2 c (Node.mem_components_self hc))

open Extractor in
/-- The descriptors of a document are those of its components, one component after another. -/
theorem Explains.extract_eq_ok (he : Explains G R) {tree : Node} (good : G tree)
    (apart : tree.ComponentsApart) (calls : List Call) (source : String)
    (file : Option SourceFile) {ds : List Descriptor}
    (h : ((fresh.after calls).extract tree source file).1.result = .ok ds) :
    ∃ parts, ds = parts.flatten ∧ List.Forall₂ R tree.components parts := by
  rw [← apart.ended_eq]
  exact he.makes.extract_eq_ok ⟨good, apart⟩ calls source file h

end

end HybridTemplate.Component
