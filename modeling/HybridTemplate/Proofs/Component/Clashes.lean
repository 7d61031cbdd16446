import HybridTemplate.Proofs.Component.Offences

set_option autoImplicit false

namespace HybridTemplate.Component

open Visit (outcome outcome_bind_eq_error)

/-- What some nodes may be refused for. Two nodes that clash are two occurrences among them. -/
inductive Refuses (o : Origin) (ms : List Node) : CompileError → Prop
  | unnamed {n : Node} {kind : BindingKind} (mem : n ∈ ms) (binds : bindingKind? n = some kind)
    (name : bindingName n = "") :
    Refuses o ms (.grammar o.file (o.location n.start) (.missingBindingName kind))
  | bound {m n : Node} {kind : BindingKind} (both : List.Subperm [m, n] ms)
    (before : bindingKind? m ≠ none) (binds : bindingKind? n = some kind)
    (same : bindingName m = bindingName n) :
    Refuses o ms (.duplicateBinding (bindingName n) kind o.file (o.location n.start))
  | scripts {m n : Node} (both : List.Subperm [m, n] ms) (first : isScript m = true)
    (second : isScript n = true) :
    Refuses o ms (.grammar o.file (o.location n.start) .secondScript)

theorem Refuses.mono {o : Origin} {ms ns : List Node} {e : CompileError} (h : Refuses o ms e)
    (sub : List.Subperm ms ns) : Refuses o ns e := by
  cases h with
  | unnamed mem binds name => exact .unnamed (sub.subset mem) binds name
  | bound both before binds same => exact .bound (both.trans sub) before binds same
  | scripts both first second => exact .scripts (both.trans sub) first second

theorem subperm_concat {m n : Node} {ms : List Node} (h : m ∈ ms) :
    List.Subperm [m, n] (ms ++ [n]) :=
  ((List.singleton_sublist.mpr h).append (List.Sublist.refl [n])).subperm

theorem Offends.refuses {o : Origin} {n : Node} {ms : List Node} {e : CompileError}
    (h : Offends o ms n e) : Refuses o (ms ++ [n]) e := by
  cases h with
  | unnamed binds name =>
    exact .unnamed (List.mem_append_right ms (List.mem_singleton_self n)) binds name
  | bound binds _ mem first same => exact .bound (subperm_concat mem) first binds same
  | second script mem first => exact .scripts (subperm_concat mem) first script

/-- Where an outline cannot be passed, a stretch of it is refused or a component fails. The nodes
`ms` are those of the stretch that is open. -/
theorem refuses_of_failed {ns : List Node} (good : Gatherable ns) {ms : List Node}
    {x y : Extractor} {e : CompileError} (adds : Adds ms .empty x.pending)
    (h : outcome (forM ns pass) x = (.error e, y)) :
    (∃ s ∈ Node.stretches ms ns, Refuses x.origin s e) ∨
      ∃ c ∈ ns, c.kind = .component ∧
        ∃ z, z.origin = x.origin ∧ outcome (table.visit c) z = (.error e, y) := by
  induction ns generalizing ms x with
  | nil => cases h
  | cons n ns ih =>
    obtain ⟨⟨conforms, hd⟩, good⟩ := List.forall_mem_cons.mp good
    rw [List.forM_cons, outcome_bind_eq_error] at h
    rcases h with failed | ⟨_, z, passed, rest⟩
    · rw [pass_eq_error] at failed
      by_cases hc : n.kind = .component
      · rw [if_pos hc] at failed
        exact .inr ⟨n, List.mem_cons_self, hc, x, rfl, failed⟩
      · rw [if_neg hc] at failed
        obtain ⟨s, ss, whole⟩ := Node.exists_stretches (ms ++ [n]) ns
        have refused := (offends_of_leave conforms adds failed).refuses
        rw [Node.stretches_other hc, whole]
        exact .inl ⟨_, List.mem_cons_self, refused.mono (List.sublist_append_left _ s).subperm⟩
    · have origin := pass_origin passed
      have more := adds_pass conforms hd adds passed
      rcases ih good more rest with ⟨s, hs, refused⟩ | ⟨c, mem, hc, w, same, failed⟩
      · refine .inl ⟨s, ?_, origin ▸ refused⟩
        by_cases hc : n.kind = .component
        · rw [if_pos hc] at hs
          rw [Node.stretches_component hc]
          exact List.mem_cons_of_mem ms hs
        · rw [if_neg hc] at hs
          rwa [Node.stretches_other hc]
      · exact .inr ⟨c, List.mem_cons_of_mem n mem, hc, w, same.trans origin, failed⟩

theorem refuses_of_component {c : Node} (conforms : c.Conforms) (hc : c.kind = .component)
    (bare : ∀ d ∈ c.children, d.components = []) {x y : Extractor} {e : CompileError}
    (h : outcome (table.visit c) x = (.error e, y)) : Refuses x.origin c.preorder e := by
  have free := Node.free_interior bare
  rcases refuses_of_failed (gatherable_interior conforms) (adds_nil _) (failed_of_component hc h)
    with ⟨s, hs, refused⟩ | ⟨d, mem, hd, -⟩
  · rw [Node.stretches_of_free free, List.nil_append, List.mem_singleton] at hs
    rw [hs] at refused
    exact refused.mono c.interior_subperm
  · exact absurd hd (free d mem)

theorem refuses_of_document {tree : Node} (document : tree.kind = .document)
    (conforms : tree.Conforms) (apart : tree.ComponentsApart) {x y : Extractor}
    {e : CompileError} (hx : x.pending = .empty)
    (h : outcome (table.visit tree) x = (.error e, y)) :
    (∃ c ∈ tree.components, Refuses x.origin c.preorder e) ∨
      ∃ s ∈ tree.strays, Refuses x.origin s e := by
  have none : Adds [] .empty x.pending := hx.symm ▸ adds_nil _
  have failed := failed_of_document document h
  rw [Node.strays_eq]
  rcases refuses_of_failed (gatherable_interior conforms) none failed with
    stray | ⟨c, hc, kind, z, origin, inside⟩
  · exact .inr stray
  · obtain ⟨d, hd, found⟩ := Node.mem_components_of_interior hc kind
    have mem := Node.mem_components_of_child hd found
    have refused := refuses_of_component (conforms.of_mem (List.mem_of_mem_filter mem)) kind
      (apart c mem) inside
    rw [origin] at refused
    exact .inl ⟨c, mem, refused⟩

namespace Extractor

/-- A document is refused for what stands in one of its components or in one stretch outside them,
and for nothing else. One that is not refused has the descriptors of its components, and warnings of
its stretches. -/
theorem extract_refuses {tree : Node} (document : tree.kind = .document)
    (conforms : tree.Conforms) (apart : tree.ComponentsApart) (calls : List Call)
    (source : String) (file : Option SourceFile) :
    let extraction := ((fresh.after calls).extract tree source file).1
    (∀ e, extraction.result = .error e →
      (∃ c ∈ tree.components, Refuses (.of source file) c.preorder e) ∨
        ∃ s ∈ tree.strays, Refuses (.of source file) s e) ∧
    ∀ ds, extraction.result = .ok ds →
      (∃ parts, ds = parts.flatten ∧ List.Forall₂ HasMeaning tree.components parts) ∧
        ∃ parts, extraction.warnings = parts.flatten ∧ List.Forall₂ Warned tree.strays parts := by
  intro extraction
  have new : extraction = (fresh.extract tree source file).1 :=
    (extract_settled (settled_after calls) tree source file).1
  rcases visited : outcome (table.visit tree) (atStart (.of source file) []) with ⟨d | v, y⟩
  · rw [new, extract_of_error settled_fresh visited]
    refine ⟨?_, fun ds read => by cases read⟩
    rintro e ⟨⟩
    exact refuses_of_document document conforms apart rfl visited
  · have good : ∀ c ∈ tree.components, c.Conforms :=
      fun c hc => conforms.of_mem (List.mem_of_mem_filter hc)
    refine ⟨fun e failed => ?_, fun ds read =>
      ⟨explains_hasMeaning.extract_eq_ok good apart calls source file read, ?_⟩⟩
    · rw [new, extract_of_ok settled_fresh visited] at failed
      cases failed
    · rw [new, extract_of_ok settled_fresh visited]
      exact warned_of_document document conforms apart rfl visited

theorem extract_refuses_amid_strays :
    let script : String → Node := fun code => .scriptOf [.leaf .scriptCode code]
    let tree : Node :=
      .branch .document [script "a()", .componentOf "Card" [script "b()", script "c()"]]
    let clash : CompileError := .grammar "<content>" ⟨1, 45⟩ .secondScript
    tree.kind = .document ∧ tree.Conforms ∧ tree.ComponentsApart ∧
      ((fresh.after []).extract tree tree.text none).1.result = .error clash ∧
      ((∃ c ∈ tree.components, Refuses (.of tree.text none) c.preorder clash) ∨
        ∃ s ∈ tree.strays, Refuses (.of tree.text none) s clash) := by
  intro script tree clash
  have conforms : tree.Conforms := by decide +kernel
  have apart : tree.ComponentsApart := by
    unfold Node.ComponentsApart
    decide +kernel
  have read : ((fresh.after []).extract tree tree.text none).1.result = .error clash := by
    decide +kernel
  have refused := (extract_refuses rfl conforms apart [] tree.text none).1 clash read
  exact ⟨rfl, conforms, apart, read, refused⟩

/-- Two attributes may clash in a document that has no component. -/
theorem stray_bindings_clash :
    let tree : Node := .branch .document [.elementOf "ref" "'x'", .elementOf "refall" "'x'"]
    tree.kind = .document ∧ tree.Conforms ∧ tree.components = [] ∧
      (fresh.extract tree tree.text none).1.result =
        .error (.duplicateBinding "x" .refAll "<content>" ⟨1, 17⟩) := by
  intro tree
  have conforms : tree.Conforms := by decide +kernel
  have bare : tree.components = [] := by decide +kernel
  have read : (fresh.extract tree tree.text none).1.result =
      .error (.duplicateBinding "x" .refAll "<content>" ⟨1, 17⟩) := by decide +kernel
  exact ⟨rfl, conforms, bare, read⟩

end Extractor
end HybridTemplate.Component
