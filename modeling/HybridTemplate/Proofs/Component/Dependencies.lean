import HybridTemplate.Proofs.Component.Handlers
import HybridTemplate.Proofs.Tree.Shape

set_option autoImplicit false

namespace HybridTemplate.Component

namespace Dependency

def In (d : Dependency) (ds : List Dependency) : Prop := ∃ e ∈ ds, d.same e = true

def Distinct (ds : List Dependency) : Prop := ds.Pairwise fun a b => b.same a = false

theorem same_iff (d e : Dependency) :
    d.same e = true ↔
      d.dir.components = e.dir.components ∧ d.root.components = e.root.components := by
  simp [same, Path.same]

theorem in_of_mem {d : Dependency} {ds : List Dependency} (h : d ∈ ds) : d.In ds :=
  ⟨d, h, (same_iff d d).mpr ⟨rfl, rfl⟩⟩

theorem same_trans {c d e : Dependency} (h : c.same d = true) (k : d.same e = true) :
    c.same e = true := by
  rw [same_iff] at h k ⊢
  exact ⟨h.1.trans k.1, h.2.trans k.2⟩

@[simp] theorem in_nil (d : Dependency) : d.In [] ↔ False := by simp [In]

@[simp] theorem in_append (d : Dependency) (ds es : List Dependency) :
    d.In (ds ++ es) ↔ d.In ds ∨ d.In es := by
  simp [In, or_and_right, exists_or]

@[simp] theorem in_singleton (d e : Dependency) : d.In [e] ↔ d.same e = true := by simp [In]

theorem in_add (d e : Dependency) (ds : List Dependency) :
    d.In (add ds e) ↔ d.In ds ∨ d.same e = true := by
  unfold add
  split
  · rename_i known
    obtain ⟨f, hf, same⟩ := List.any_eq_true.mp known
    constructor
    · exact Or.inl
    · rintro (h | h)
      · exact h
      · exact ⟨f, hf, same_trans h same⟩
  · rw [in_append, in_singleton]

theorem in_addAll (d : Dependency) (ds es : List Dependency) :
    d.In (addAll ds es) ↔ d.In ds ∨ d.In es := by
  unfold addAll
  induction es generalizing ds with
  | nil => simp
  | cons e es ih =>
    rw [List.foldl_cons, ih, in_add, ← List.singleton_append, in_append, in_singleton, or_assoc]

theorem distinct_add {ds : List Dependency} (h : Distinct ds) (e : Dependency) :
    Distinct (add ds e) := by
  unfold add
  split
  · exact h
  · rename_i fresh
    refine List.pairwise_append.mpr ⟨h, List.pairwise_singleton _ _, ?_⟩
    intro a ha b hb
    obtain rfl := List.mem_singleton.mp hb
    exact Bool.eq_false_iff.mpr fun same => fresh (List.any_eq_true.mpr ⟨a, ha, same⟩)

theorem distinct_addAll {ds : List Dependency} (h : Distinct ds) (es : List Dependency) :
    Distinct (addAll ds es) := by
  unfold addAll
  induction es generalizing ds with
  | nil => exact h
  | cons e es ih => exact ih (distinct_add h e)

end Dependency

def importedDirs (o : Origin) (n : Node) : List Dependency :=
  n.preorder.flatMap fun m => if m.kind = .staticImport then (importDir? o m).toList else []

theorem importedDirs_eq (o : Origin) (n : Node) :
    importedDirs o n =
      (if n.kind = .staticImport then (importDir? o n).toList else []) ++
        n.children.flatMap (importedDirs o) := by
  rw [importedDirs, Node.preorder_eq, Node.preorderAll_eq, List.flatMap_cons, List.flatMap_assoc]
  rfl

open Visit (outcome)

/-- The invariant behind the traversal: the document stays the same, and the directories are
those from before together with those of what has been traversed. -/
def AddsDirs (dirs : Origin → List Dependency) (x y : Extractor) : Prop :=
  y.origin = x.origin ∧
    ∀ d : Dependency, d.In y.importedDirs ↔ d.In x.importedDirs ∨ d.In (dirs x.origin)

theorem leave_addsDirs {n : Node} {vs : List (Value ScriptItem)} {x y : Extractor}
    {v : Value ScriptItem} (h : outcome (table.leave n vs) x = (.ok v, y)) :
    AddsDirs (fun o => if n.kind = .staticImport then (importDir? o n).toList else []) x y := by
  obtain ⟨origin, dirs, _⟩ := leave_touches n vs x
  rw [h] at origin dirs
  refine ⟨origin, fun d => ?_⟩
  dsimp only at dirs ⊢
  rw [dirs]
  split
  · cases importDir? x.origin n with
    | none => simp
    | some e => simp [Dependency.in_add]
  · simp

theorem establishes_addsDirs :
    table.Establishes (fun n x _ y => AddsDirs (fun o => importedDirs o n) x y)
      (fun ns x _ y => AddsDirs (fun o => ns.flatMap (importedDirs o)) x y) where
  node := by
    intro n x x₁ vs x₂ v y entered _ below left
    obtain ⟨origin, dirs, _⟩ := enter_touches entered
    have leaving := leave_addsDirs left
    have same : x₂.origin = x.origin := below.1.trans origin
    refine ⟨leaving.1.trans same, fun d => ?_⟩
    rw [leaving.2, below.2, origin, dirs, same]
    dsimp only
    rw [importedDirs_eq, Dependency.in_append, or_assoc]
    exact or_congr_right or_comm
  nil := fun x => ⟨rfl, fun d => by simp⟩
  cons := by
    intro n ns x v x₁ vs y first rest
    refine ⟨rest.1.trans first.1, fun d => ?_⟩
    rw [rest.2, first.2, first.1]
    dsimp only
    rw [List.flatMap_cons, Dependency.in_append, or_assoc]

theorem in_importedDirs_of_visit {tree : Node} {x y : Extractor} {v : Value ScriptItem}
    (h : outcome (table.visit tree) x = (.ok v, y)) (d : Dependency) :
    d.In y.importedDirs ↔ d.In x.importedDirs ∨ d.In (importedDirs x.origin tree) :=
  (establishes_addsDirs.visit tree x v y h).2 d

end HybridTemplate.Component
