import HybridTemplate.Proofs.Component.Meaning

set_option autoImplicit false

namespace HybridTemplate.Component

open Visit (outcome)

theorem imports_addArgs (p : Pending) (items : List ScriptItem) :
    (p.addArgs items).imports = p.imports := by
  unfold Pending.addArgs
  induction items generalizing p with
  | nil => rfl
  | cons item items ih =>
    rw [List.foldl_cons, ih]
    cases item with
    | embed _ _ => rfl
    | name s =>
      dsimp only
      unfold Pending.addArg
      split <;> rfl

theorem imports_gather (n : Node) (vs : List (Value ScriptItem)) (p : Pending) :
    (gather n vs p).imports =
      if isImport n then p.imports ++ [Text.trim n.text] else p.imports := by
  cases hn : n.kind
  case kvAttribute =>
    simp only [gather, isImport, hn, reduceCtorEq, decide_false, Bool.false_eq_true, if_false]
    cases bindingKind? n with
    | none => rw [addEmbed_eq]
    | some kind => cases kind <;> rfl
  case webScript =>
    simp only [gather, isImport, hn, reduceCtorEq, decide_false, Bool.false_eq_true, if_false]
    exact imports_addArgs p _
  all_goals simp [gather, isImport, hn, addEmbed_eq, addEmbeds_eq, Pending.addImport]

def AddsImports (ms : List Node) (x y : Extractor) : Prop :=
  ∀ t ∈ y.pending.imports, t ∈ x.pending.imports ∨ ∃ i ∈ ms, t = Text.trim i.text

theorem AddsImports.trans {ms ns : List Node} {x y z : Extractor} (h : AddsImports ms x y)
    (k : AddsImports ns y z) : AddsImports (ms ++ ns) x z := by
  intro t ht
  rcases k t ht with before | ⟨i, hi, same⟩
  · rcases h t before with first | ⟨i, hi, same⟩
    · exact .inl first
    · exact .inr ⟨i, List.mem_append_left ns hi, same⟩
  · exact .inr ⟨i, List.mem_append_right ms hi, same⟩

theorem enter_addsImports {n : Node} {x y : Extractor}
    (h : outcome (table.enter n) x = (.ok ⟨⟩, y)) : AddsImports [] x y := by
  by_cases hc : n.kind = .component
  · rw [enter_component hc] at h
    cases h
    exact fun t none => absurd none List.not_mem_nil
  · rw [enter_other hc] at h
    cases h
    exact fun t before => .inl before

theorem leave_addsImports {n : Node} {vs : List (Value ScriptItem)} {x y : Extractor}
    {v : Value ScriptItem} (h : outcome (table.leave n vs) x = (.ok v, y)) :
    AddsImports ([n].filter isImport) x y := by
  by_cases hd : n.kind = .document
  · rw [leave_document hd] at h
    cases h
    exact fun t none => absurd none List.not_mem_nil
  by_cases hc : n.kind = .component
  · rw [leave_component hc] at h
    cases h
    exact fun t none => absurd none List.not_mem_nil
  · intro t ht
    rw [(left_of_leave hd hc h).pending, imports_gather] at ht
    by_cases hi : isImport n = true
    · rw [if_pos hi] at ht
      rcases List.mem_append.mp ht with before | new
      · exact .inl before
      · exact .inr ⟨n, List.mem_filter.mpr ⟨List.mem_cons_self, hi⟩, List.mem_singleton.mp new⟩
    · rw [if_neg hi] at ht
      exact .inl ht

theorem establishes_addsImports :
    table.Establishes (fun n x _ y => AddsImports (importsIn n) x y)
      (fun ns x _ y => AddsImports (ns.flatMap importsIn) x y) where
  node := by
    intro n x x₁ vs x₂ v y entered _ below left t ht
    have whole := ((enter_addsImports entered).trans below).trans (leave_addsImports left)
    rcases whole t ht with before | ⟨i, hi, same⟩
    · exact .inl before
    · refine .inr ⟨i, ?_, same⟩
      rw [importsIn_eq]
      exact (List.perm_append_comm.mem_iff).mp hi
  nil := fun _ _ before => .inl before
  cons := by
    intro n ns x v x₁ vs y first rest
    rw [List.flatMap_cons]
    exact first.trans rest

structure Describes (c : Node) (d : Descriptor) : Prop where
  name : d.name = declaredName c
  identifier : d.identifier = identifier d.name c.text
  imports : ∀ t ∈ d.imports, ∃ i ∈ importsIn c, t = Text.trim i.text

theorem makes_describes : Makes (fun _ => True) fun c ds => ∀ d ∈ ds, Describes c d where
  child := fun _ _ _ _ => trivial
  part := by
    intro c _ hc x vs z hx run d hd
    have adds := establishes_addsImports.visitAll c.children x vs z run
    unfold finished at hd
    split at hd
    · cases hd
    · obtain rfl := List.mem_singleton.mp hd
      refine ⟨rfl, rfl, fun t ht => ?_⟩
      rcases adds t ht with before | ⟨i, hi, same⟩
      · rw [hx] at before
        cases before
      · exact ⟨i, by rw [importsIn_eq]; exact List.mem_append_right _ hi, same⟩

theorem preorder_of_ended {n m : Node} (h : m ∈ n.ended) :
    m ∈ n.preorder ∧ m.kind = .component := by
  induction n using Node.children_induction with
  | node n ih =>
    rw [Node.ended_eq, List.mem_append, List.mem_flatMap] at h
    rcases h with ⟨c, hc, inside⟩ | own
    · obtain ⟨mem, kind⟩ := ih c hc inside
      exact ⟨Node.mem_preorder.mpr (.inr ⟨c, hc, mem⟩), kind⟩
    · split at own
      · rename_i kind
        obtain rfl := List.mem_singleton.mp own
        exact ⟨Node.mem_preorder.mpr (.inl rfl), kind⟩
      · cases own

/-- Each descriptor of a document is of one of its components. -/
theorem Extractor.exists_describes {tree : Node} {source : String} {file : Option SourceFile}
    {ds : List Descriptor} (h : (fresh.extract tree source file).1.result = .ok ds) {d : Descriptor}
    (hd : d ∈ ds) : ∃ c ∈ tree.preorder, c.kind = .component ∧ Describes c d := by
  obtain ⟨parts, rfl, related⟩ := makes_describes.extract_eq_ok trivial [] source file h
  obtain ⟨part, mem, inside⟩ := List.mem_flatten.mp hd
  obtain ⟨k, bound, rfl⟩ := List.getElem_of_mem mem
  have long : k < tree.ended.length := related.length_eq ▸ bound
  obtain ⟨whole, kind⟩ := preorder_of_ended (List.getElem_mem long)
  exact ⟨_, whole, kind, related.get long bound d inside⟩

end HybridTemplate.Component
