import HybridTemplate.Proofs.Component.History

set_option autoImplicit false

namespace HybridTemplate.Component

open Visit (outcome Alike alike_pure alike_throw alike_modify alike_get_bind)

/-- Whether a step fails with errors that belong to one file only. -/
def FailsPerFile {β : Type} (m : Visit CompileError Extractor β) : Prop :=
  Alike Eq (fun e _ => e.isPerFile = true) Eq m m

section

variable {β : Type}

theorem FailsPerFile.bind {γ : Type} {m : Visit CompileError Extractor β}
    {k : β → Visit CompileError Extractor γ} (hm : FailsPerFile m) (hk : ∀ b, FailsPerFile (k b)) :
    FailsPerFile (m >>= k) :=
  Alike.bind hm fun b _ same => same ▸ hk b

theorem failsPerFile_pure (b : β) : FailsPerFile (pure b) := alike_pure rfl

theorem failsPerFile_modify (f : Extractor → Extractor) : FailsPerFile (modify f) :=
  alike_modify fun _ _ same => same ▸ rfl

theorem failsPerFile_get_bind {k : Extractor → Visit CompileError Extractor β}
    (h : ∀ x, FailsPerFile (k x)) : FailsPerFile (get >>= k) :=
  alike_get_bind fun x _ same => same ▸ h x

end

theorem failsPerFile_failIf (refused : Pending → Bool) {error : Origin → CompileError}
    (h : ∀ o, (error o).isPerFile = true) : FailsPerFile (failIf refused error) := by
  refine failsPerFile_get_bind fun x => ?_
  split
  · exact alike_throw (h x.origin)
  · exact failsPerFile_pure _

theorem failsPerFile_bindTarget (kind : BindingKind) (offset : Nat) (target : String) :
    FailsPerFile (bindTarget kind offset target) :=
  (failsPerFile_failIf _ fun _ => rfl).bind fun _ =>
    (failsPerFile_failIf _ fun _ => rfl).bind fun _ => failsPerFile_modify _

theorem failsPerFile_handler {kind : Kind} {handler : ScriptHandler}
    (h : table.handler? kind = some handler) (n : Node) (vs : List (Value ScriptItem)) :
    FailsPerFile (handler n vs) := by
  simp only [table] at h
  split at h <;> first | contradiction | cases h
  · exact (failsPerFile_modify _).bind fun _ => failsPerFile_pure _
  · exact (failsPerFile_modify _).bind fun _ => failsPerFile_pure _
  · unfold keyValue
    dsimp only
    split
    · exact (failsPerFile_bindTarget _ _ _).bind fun _ => failsPerFile_pure _
    · exact (failsPerFile_modify _).bind fun _ => failsPerFile_pure _
  · exact failsPerFile_pure _
  · exact failsPerFile_pure _
  · exact failsPerFile_pure _
  · exact (failsPerFile_modify _).bind fun _ => failsPerFile_pure _
  · exact (failsPerFile_modify _).bind fun _ => failsPerFile_pure _
  · exact (failsPerFile_failIf _ fun _ => rfl).bind fun _ =>
      (failsPerFile_modify _).bind fun _ => failsPerFile_pure _
  · exact failsPerFile_pure _
  · exact (failsPerFile_modify _).bind fun _ => failsPerFile_pure _
  · exact failsPerFile_pure _
  · exact failsPerFile_pure _
  · exact failsPerFile_pure _
  · exact failsPerFile_pure _
  · exact failsPerFile_pure _

theorem treatsAlike_perFile :
    table.TreatsAlike Eq (fun e _ => e.isPerFile = true) Eq id where
  children := fun n => (List.map_id n.children).symm
  enter := by
    intro n x y same
    subst same
    by_cases hc : n.kind = .component
    · rw [id, enter_component hc]
      exact ⟨.ok trivial, rfl⟩
    · rw [id, enter_other hc]
      exact ⟨.ok trivial, rfl⟩
  leave := by
    intro n vs ws h
    obtain rfl := List.forall₂_eq_eq_eq ▸ h
    unfold Table.leave
    rw [id]
    split
    · rename_i handler found
      exact failsPerFile_handler found n vs
    · exact failsPerFile_pure _

namespace Extractor

theorem isPerFile_of_extract {x : Extractor} {tree : Node} {source : String}
    {file : Option SourceFile} {e : CompileError}
    (h : (x.extract tree source file).1.result = .error e) : e.isPerFile = true := by
  have visited := (treatsAlike_perFile.visit tree
    { x with origin := .of source file, warnings := [] } _ rfl).1
  unfold extract at h
  rcases traversed : outcome (table.visit tree) { x with origin := .of source file, warnings := [] }
    with ⟨d | v, y⟩
  · rw [id, traversed] at visited
    rw [traversed] at h
    cases h
    cases visited with
    | error perFile => exact perFile
  · rw [traversed] at h
    cases h

theorem isPerFile_of_read {x : Extractor} {d : Document} {e : CompileError}
    (h : (x.read d).1.result = .error e) : e.isPerFile = true := by
  cases d with
  | tree tree source file => exact isPerFile_of_extract h
  | text grammar source file =>
    rw [read, extractSource] at h
    cases parsed : grammar source with
    | error p =>
      rw [parsed] at h
      cases h
      rfl
    | ok tree =>
      rw [parsed] at h
      exact isPerFile_of_extract h

theorem extract_same {x y : Extractor} (hx : Settled x) (hy : Settled y)
    (same : y.dependencies = x.dependencies) (tree : Node) (source : String)
    (file : Option SourceFile) :
    (y.extract tree source file).1 = (x.extract tree source file).1 ∧
      (y.extract tree source file).2.dependencies =
        (x.extract tree source file).2.dependencies := by
  rcases visited : outcome (table.visit tree) (atStart (.of source file) []) with ⟨e | v, z⟩
  · rw [extract_of_error hx visited, extract_of_error hy visited]
    exact ⟨rfl, same⟩
  · rw [extract_of_ok hx visited, extract_of_ok hy visited]
    exact ⟨rfl, congrArg (Dependency.addAll · z.importedDirs) same⟩

/-- Settled extractors that agree on the dependencies read alike and agree still. -/
theorem read_same {x y : Extractor} (hx : Settled x) (hy : Settled y)
    (same : y.dependencies = x.dependencies) (d : Document) :
    (y.read d).1 = (x.read d).1 ∧ (y.read d).2.dependencies = (x.read d).2.dependencies := by
  cases d with
  | tree tree source file => exact extract_same hx hy same tree source file
  | text grammar source file =>
    simp only [read, extractSource]
    cases grammar source with
    | error e => exact ⟨rfl, same⟩
    | ok tree => exact extract_same hx hy same tree source file

end Extractor
end HybridTemplate.Component
