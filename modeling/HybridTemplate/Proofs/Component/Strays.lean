import HybridTemplate.Proofs.Component.Meaning
import HybridTemplate.Proofs.Component.Passing

set_option autoImplicit false

namespace HybridTemplate.Component

open Visit (outcome)

def Touched (ms : List Node) : Prop :=
  Active ms ∨ (∃ s ∈ ms.filter isScript, argumentNames s ≠ []) ∨ ∃ m ∈ ms, isImport m = true

/-- Whether those are the warnings of a stretch outside components. -/
structure Warned (ms : List Node) (ws : List Warning) : Prop where
  given : Touched ms → ws = [.strayScript]
  silent : ¬ Touched ms → ws = []

theorem isUntouched_iff {ms : List Node} {p : Pending} (adds : Adds ms .empty p) :
    p.isUntouched = true ↔ ¬ Touched ms := by
  have imports : p.imports = importTexts ms := adds.imports
  have args : p.args.isEmpty = true ↔ ∀ s ∈ ms.filter isScript, argumentNames s = [] := by
    rw [(scripted_empty adds.script).1, List.isEmpty_iff, ← List.flatMap_eq_nil_iff]
    cases (ms.filter isScript).flatMap argumentNames <;> simp [List.eraseDups_cons]
  simp only [Pending.isUntouched, Bool.and_eq_true, isPresentational_iff adds, args, imports,
    Touched, not_or, not_exists, not_and, ne_eq, not_not, and_assoc]
  simp [importTexts, isImport]

theorem exists_warned {ms : List Node} {x : Extractor} (adds : Adds ms .empty x.pending) :
    ∃ ws, x.dropStray.warnings = x.warnings ++ ws ∧ Warned ms ws := by
  by_cases untouched : x.pending.isUntouched = true
  · refine ⟨[], by simp [Extractor.dropStray, untouched], ?_, fun _ => rfl⟩
    exact fun touched => absurd touched ((isUntouched_iff adds).mp untouched)
  · refine ⟨[.strayScript], by simp [Extractor.dropStray, untouched], fun _ => rfl, ?_⟩
    exact fun none => absurd ((isUntouched_iff adds).mpr none) untouched

theorem warnings_of_leave {n : Node} (hd : n.kind ≠ .document) (hc : n.kind ≠ .component)
    (vs : List (Value ScriptItem)) (x : Extractor) :
    (outcome (table.leave n vs) x).2.warnings = x.warnings := by
  by_cases hs : n.kind = .staticImport
  · rw [leave_staticImport hs]
    rfl
  · obtain ⟨p, left⟩ := (local_leave hd hc hs vs).frame x
    rw [left]

theorem warnings_of_pass {n : Node} (hd : n.kind ≠ .document) (hc : n.kind ≠ .component)
    {x y : Extractor} {u : Unit} (h : outcome (pass n) x = (.ok u, y)) :
    y.warnings = x.warnings := by
  obtain ⟨v, left⟩ := (pass_other hc).mp h
  have kept := warnings_of_leave hd hc (n.children.map handed) x
  rwa [left] at kept

/-- What stands in a component causes no warning. -/
theorem warnings_of_component {c : Node} (conforms : c.Conforms)
    (bare : ∀ d ∈ c.children, d.components = []) {x y : Extractor} {v : Value ScriptItem}
    (hc : c.kind = .component) (h : outcome (table.visit c) x = (.ok v, y)) :
    y.warnings = x.dropStray.warnings := by
  obtain ⟨z, vs, w, entered, run, left⟩ := Table.visit_eq_ok.mp h
  rw [enter_component hc] at entered
  rw [leave_component hc] at left
  cases entered
  cases left
  refine Visit.forM_keeps (fun z => z.warnings = x.dropStray.warnings) ?_ rfl
    (passed_of_visitAll run)
  intro n hn z u t before passed
  exact (warnings_of_pass (gatherable_interior conforms n hn).2 (Node.free_interior bare n hn)
    passed).trans before

theorem warned_of_passed {ns : List Node} (good : Gatherable ns)
    (bare : ∀ c ∈ ns, c.kind = .component → ∀ d ∈ c.children, d.components = [])
    {ms : List Node} {x y : Extractor} {u : Unit} (adds : Adds ms .empty x.pending)
    (h : outcome (forM ns pass) x = (.ok u, y)) :
    ∃ parts, y.dropStray.warnings = x.warnings ++ parts.flatten ∧
      List.Forall₂ Warned (Node.stretches ms ns) parts := by
  induction ns generalizing ms x with
  | nil =>
    cases h
    obtain ⟨ws, warned, own⟩ := exists_warned adds
    rw [Node.stretches_nil]
    exact ⟨[ws], by rw [List.flatten_singleton, warned], .cons own .nil⟩
  | cons n ns ih =>
    obtain ⟨⟨conforms, hd⟩, good⟩ := List.forall_mem_cons.mp good
    obtain ⟨bareHead, bare⟩ := List.forall_mem_cons.mp bare
    rw [List.forM_cons, Visit.outcome_bind_eq_ok] at h
    obtain ⟨_, z, first, rest⟩ := h
    have more := adds_pass conforms hd adds first
    by_cases hc : n.kind = .component
    · obtain ⟨v, visited, -⟩ := pass_component hc first
      obtain ⟨ws, warned, own⟩ := exists_warned adds
      rw [if_pos hc] at more
      obtain ⟨parts, shown, all⟩ := ih good bare more rest
      rw [Node.stretches_component hc]
      refine ⟨ws :: parts, ?_, .cons own all⟩
      rw [shown, warnings_of_component conforms (bareHead hc) hc visited, warned,
        List.flatten_cons, List.append_assoc]
    · rw [if_neg hc] at more
      obtain ⟨parts, shown, all⟩ := ih good bare more rest
      rw [Node.stretches_other hc]
      exact ⟨parts, by rw [shown, warnings_of_pass hd hc first], all⟩

theorem warned_of_document {tree : Node} (document : tree.kind = .document)
    (conforms : tree.Conforms) (apart : tree.ComponentsApart) {x y : Extractor}
    {v : Value ScriptItem} (hx : x.pending = .empty)
    (h : outcome (table.visit tree) x = (.ok v, y)) :
    ∃ parts, y.warnings = x.warnings ++ parts.flatten ∧ List.Forall₂ Warned tree.strays parts := by
  obtain ⟨z, vs, w, entered, run, left⟩ := Table.visit_eq_ok.mp h
  rw [enter_other (by simp [document])] at entered
  rw [leave_document document] at left
  cases entered
  cases left
  have none : Adds [] .empty x.pending := hx.symm ▸ adds_nil _
  rw [Node.strays_eq]
  exact warned_of_passed (gatherable_interior conforms) apart.of_interior none
    (passed_of_visitAll run)

end HybridTemplate.Component
