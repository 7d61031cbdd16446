import HybridTemplate.Proofs.Component.Gathering
import HybridTemplate.Proofs.Component.Parts
import HybridTemplate.Proofs.Tree.Outline

set_option autoImplicit false

namespace HybridTemplate.Component

open Visit (outcome outcome_bind outcome_bind_eq_ok outcome_bind_eq_error)

def pass (n : Node) : Visit CompileError Extractor Unit := do
  let _ ← if n.kind = .component then table.visit n else table.leave n (n.children.map handed)
  return ⟨⟩

theorem leave_eq (n : Node) (vs : List (Value ScriptItem)) :
    table.leave n vs = table.leave n vs >>= fun _ => pure (yields n vs) := by
  refine Visit.eq_of_outcome fun x => ?_
  rw [outcome_bind]
  rcases left : outcome (table.leave n vs) x with ⟨e | v, y⟩
  · rfl
  · rw [value_of_leave left]
    rfl

theorem visit_eq_handed (n : Node) :
    table.visit n = table.visit n >>= fun _ => pure (handed n) := by
  refine Visit.eq_of_outcome fun x => ?_
  rw [outcome_bind]
  rcases visited : outcome (table.visit n) x with ⟨e | v, y⟩
  · rfl
  · rw [establishes_handed.visit n x v y visited]
    rfl

mutual

theorem visit_eq_outline (n : Node) :
    table.visit n = (do forM n.outline pass; return handed n) := by
  match n with
  | ⟨kind, start, text, children⟩ =>
    by_cases hc : kind = .component
    · rw [Node.outline_of_component hc, List.forM_cons, List.forM_nil, pass, if_pos hc]
      conv_lhs => rw [visit_eq_handed]
      simp only [bind_assoc, pure_bind]
    · have entered : table.enter ⟨kind, start, text, children⟩ = pure ⟨⟩ :=
        Visit.eq_of_outcome (enter_other hc)
      rw [Table.visit_eq, entered, visitAll_eq_outline children, Node.outline_of_other hc,
        List.forM_append, Node.interior, List.forM_cons, List.forM_nil, pass, if_neg hc, handed_eq]
      simp only [bind_assoc, pure_bind]
      conv_lhs => rw [leave_eq]

theorem visitAll_eq_outline (ns : List Node) :
    table.visitAll ns = (do forM (Node.outlineAll ns) pass; return ns.map handed) := by
  match ns with
  | [] => rw [Table.visitAll, Node.outlineAll, List.forM_nil, pure_bind, List.map_nil]
  | n :: ns =>
    rw [Table.visitAll, Node.outlineAll, List.forM_append, visit_eq_outline n,
      visitAll_eq_outline ns]
    simp only [bind_assoc, pure_bind, List.map_cons]

end

theorem visitAll_eq_interior (n : Node) :
    table.visitAll n.children = (do forM n.interior pass; return n.children.map handed) :=
  visitAll_eq_outline n.children

theorem passed_of_visitAll {n : Node} {x y : Extractor} {vs : List (Value ScriptItem)}
    (h : outcome (table.visitAll n.children) x = (.ok vs, y)) :
    outcome (forM n.interior pass) x = (.ok ⟨⟩, y) := by
  rw [visitAll_eq_interior, outcome_bind_eq_ok] at h
  obtain ⟨_, z, passed, ended⟩ := h
  cases ended
  exact passed

theorem failed_of_visitAll {n : Node} {x y : Extractor} {e : CompileError}
    (h : outcome (table.visitAll n.children) x = (.error e, y)) :
    outcome (forM n.interior pass) x = (.error e, y) := by
  rw [visitAll_eq_interior, outcome_bind_eq_error] at h
  rcases h with failed | ⟨_, _, _, ended⟩
  · exact failed
  · cases ended

/-- Where a node is traversed that may be left from every state, the failure comes from what stands
in it. -/
theorem failed_of_visit {n : Node} {x y : Extractor} {e : CompileError}
    (left : ∀ vs z, ∃ v w, outcome (table.leave n vs) z = (.ok v, w))
    (h : outcome (table.visit n) x = (.error e, y)) :
    ∃ z, outcome (table.enter n) x = (.ok ⟨⟩, z) ∧
      outcome (forM n.interior pass) z = (.error e, y) := by
  have entered : ∃ z, outcome (table.enter n) x = (.ok ⟨⟩, z) := by
    by_cases hc : n.kind = .component
    · exact ⟨_, enter_component hc x⟩
    · exact ⟨_, enter_other hc x⟩
  obtain ⟨z, entered⟩ := entered
  rw [Table.visit_eq, outcome_bind, entered] at h
  refine ⟨z, entered, ?_⟩
  rcases outcome_bind_eq_error.mp h with below | ⟨vs, w, _, leaving⟩
  · exact failed_of_visitAll below
  · obtain ⟨v, u, ended⟩ := left vs w
    rw [ended] at leaving
    cases leaving

theorem failed_of_component {c : Node} (hc : c.kind = .component) {x y : Extractor}
    {e : CompileError} (h : outcome (table.visit c) x = (.error e, y)) :
    outcome (forM c.interior pass) x.dropStray = (.error e, y) := by
  obtain ⟨z, entered, failed⟩ := failed_of_visit (fun vs z => ⟨_, _, leave_component hc vs z⟩) h
  rw [enter_component hc] at entered
  cases entered
  exact failed

theorem failed_of_document {n : Node} (hd : n.kind = .document) {x y : Extractor}
    {e : CompileError} (h : outcome (table.visit n) x = (.error e, y)) :
    outcome (forM n.interior pass) x = (.error e, y) := by
  obtain ⟨z, entered, failed⟩ := failed_of_visit (fun vs z => ⟨_, _, leave_document hd vs z⟩) h
  rw [enter_other (by rw [hd]; decide)] at entered
  cases entered
  exact failed

theorem pass_other {n : Node} (hc : n.kind ≠ .component) {x y : Extractor} {u : Unit} :
    outcome (pass n) x = (.ok u, y) ↔
      ∃ v, outcome (table.leave n (n.children.map handed)) x = (.ok v, y) := by
  rw [pass, if_neg hc, outcome_bind_eq_ok]
  constructor
  · rintro ⟨v, z, left, ended⟩
    cases ended
    exact ⟨v, left⟩
  · rintro ⟨v, left⟩
    exact ⟨v, y, left, rfl⟩

theorem pass_eq_error {n : Node} {x y : Extractor} {e : CompileError} :
    outcome (pass n) x = (.error e, y) ↔
      if n.kind = .component then outcome (table.visit n) x = (.error e, y)
      else outcome (table.leave n (n.children.map handed)) x = (.error e, y) := by
  rw [pass]
  split <;> rw [outcome_bind_eq_error] <;> simp

theorem pass_component {n : Node} (hc : n.kind = .component) {x y : Extractor} {u : Unit}
    (h : outcome (pass n) x = (.ok u, y)) :
    ∃ v, outcome (table.visit n) x = (.ok v, y) ∧ y.pending = .empty := by
  rw [pass, if_pos hc, outcome_bind_eq_ok] at h
  obtain ⟨v, z, visited, ended⟩ := h
  cases ended
  obtain ⟨_, vs, w, _, _, left⟩ := Table.visit_eq_ok.mp visited
  rw [leave_component hc] at left
  cases left
  exact ⟨_, visited, rfl⟩

theorem pass_origin {n : Node} {x y : Extractor} {u : Unit}
    (h : outcome (pass n) x = (.ok u, y)) : y.origin = x.origin := by
  by_cases hc : n.kind = .component
  · obtain ⟨v, visited, _⟩ := pass_component hc h
    exact (establishes_addsDirs.visit n x v y visited).1
  · obtain ⟨v, left⟩ := (pass_other hc).mp h
    exact (leave_addsDirs left).1

def Gatherable (ns : List Node) : Prop := ∀ n ∈ ns, n.Conforms ∧ n.kind ≠ .document

theorem gatherable_interior {n : Node} (h : n.Conforms) : Gatherable n.interior := by
  intro m hm
  obtain ⟨c, hc, below⟩ := Node.preorder_of_interior hm
  exact ⟨(h.child hc).of_mem below, h.ne_document hc below⟩

theorem adds_pass {n : Node} (conforms : n.Conforms) (hd : n.kind ≠ .document) {ms : List Node}
    {x y : Extractor} {u : Unit} (adds : Adds ms .empty x.pending)
    (h : outcome (pass n) x = (.ok u, y)) :
    Adds (if n.kind = .component then [] else ms ++ [n]) .empty y.pending := by
  by_cases hc : n.kind = .component
  · obtain ⟨v, -, pending⟩ := pass_component hc h
    rw [if_pos hc, pending]
    exact adds_nil _
  · obtain ⟨v, left⟩ := (pass_other hc).mp h
    rw [if_neg hc]
    exact adds.trans (adds_of_left conforms (left_of_leave hd hc left))

/-- What is pending is what the nodes passed since the last component add to nothing. -/
theorem adds_passed {ns : List Node} (good : Gatherable ns) {x y : Extractor} {u : Unit}
    (hx : x.pending = .empty) (h : outcome (forM ns pass) x = (.ok u, y)) :
    Adds (Node.lastStretch ns) .empty y.pending := by
  induction ns using List.reverseRecOn generalizing y with
  | nil =>
    cases h
    rw [hx]
    exact adds_nil _
  | append_singleton ns n ih =>
    rw [List.forM_append, outcome_bind_eq_ok] at h
    obtain ⟨_, z, front, h⟩ := h
    rw [List.forM_cons, List.forM_nil, outcome_bind_eq_ok] at h
    obtain ⟨_, w, last, ended⟩ := h
    cases ended
    obtain ⟨conforms, hd⟩ := good n (List.mem_append_right _ (List.mem_singleton_self n))
    have before := ih (fun m hm => good m (List.mem_append_left _ hm)) front
    rw [Node.lastStretch_concat]
    exact adds_pass conforms hd before last

end HybridTemplate.Component
