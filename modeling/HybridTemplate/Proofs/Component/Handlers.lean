import HybridTemplate.Component.Extraction
import HybridTemplate.Proofs.Traversal.Runs

set_option autoImplicit false

namespace HybridTemplate.Component

open Visit (outcome outcome_bind)

/-- Whether a step depends on no more than the document and what is pending, and changes
no more than what is pending. -/
def Local {β : Type} (m : Visit CompileError Extractor β) : Prop :=
  ∃ f : Origin → Pending → Except CompileError β × Pending, ∀ x,
    outcome m x = ((f x.origin x.pending).1, { x with pending := (f x.origin x.pending).2 })

theorem local_pure {β : Type} (b : β) : Local (pure b) := ⟨fun _ p => (.ok b, p), fun _ => rfl⟩

theorem local_onPending (f : Pending → Pending) :
    Local (modify fun x : Extractor => x.onPending f) :=
  ⟨fun _ p => (.ok ⟨⟩, f p), fun _ => rfl⟩

theorem outcome_failIf (refused : Pending → Bool) (error : Origin → CompileError)
    (x : Extractor) :
    outcome (failIf refused error) x =
      (if refused x.pending then .error (error x.origin) else .ok ⟨⟩, x) := by
  unfold failIf
  by_cases h : refused x.pending = true <;> simp [outcome_bind, h]

theorem local_failIf (refused : Pending → Bool) (error : Origin → CompileError) :
    Local (failIf refused error) :=
  ⟨fun o p => (if refused p then .error (error o) else .ok ⟨⟩, p), outcome_failIf refused error⟩

theorem Local.bind {β γ : Type} {m : Visit CompileError Extractor β}
    {k : β → Visit CompileError Extractor γ} (hm : Local m) (hk : ∀ b, Local (k b)) :
    Local (m >>= k) := by
  obtain ⟨f, hf⟩ := hm
  choose g hg using hk
  refine ⟨fun o p => match f o p with
    | (.ok b, q) => g b o q
    | (.error e, q) => (.error e, q), ?_⟩
  intro x
  rw [outcome_bind, hf]
  rcases h : f x.origin x.pending with ⟨e | b, q⟩
  · simp only [h]
  · simp only [h, hg]

theorem local_bindTarget (kind : BindingKind) (offset : Nat) (target : String) :
    Local (bindTarget kind offset target) :=
  (local_failIf _ _).bind fun _ => (local_failIf _ _).bind fun _ => local_onPending _

theorem local_keyValue (n : Node) (vs : List (Value ScriptItem)) : Local (keyValue n vs) := by
  unfold keyValue
  dsimp only
  split
  · exact (local_bindTarget _ _ _).bind fun _ => local_pure _
  · exact (local_onPending _).bind fun _ => local_pure _

theorem local_webScript (n : Node) (vs : List (Value ScriptItem)) : Local (webScript n vs) :=
  (local_failIf _ _).bind fun _ => (local_onPending _).bind fun _ => local_pure _

theorem local_handler {kind : Kind} {handler : ScriptHandler}
    (h : table.handler? kind = some handler) (hd : kind ≠ .document) (hc : kind ≠ .component)
    (hs : kind ≠ .staticImport) (n : Node) (vs : List (Value ScriptItem)) :
    Local (handler n vs) := by
  simp only [table] at h
  split at h <;> first | contradiction | cases h
  · exact local_keyValue n vs
  · exact local_pure _
  · exact local_pure _
  · exact local_pure _
  · exact (local_onPending _).bind fun _ => local_pure _
  · exact (local_onPending _).bind fun _ => local_pure _
  · exact local_webScript n vs
  · exact local_pure _
  · exact local_pure _
  · exact local_pure _
  · exact local_pure _
  · exact local_pure _
  · exact local_pure _

theorem local_leave {n : Node} (hd : n.kind ≠ .document) (hc : n.kind ≠ .component)
    (hs : n.kind ≠ .staticImport) (vs : List (Value ScriptItem)) : Local (table.leave n vs) := by
  unfold Table.leave
  split
  · rename_i handler h
    exact local_handler h hd hc hs n vs
  · exact local_pure _

theorem enter_component {n : Node} (h : n.kind = .component) (x : Extractor) :
    outcome (table.enter n) x = (.ok ⟨⟩, x.dropStray) := by
  simp [Table.enter, table, h]

theorem enter_other {n : Node} (h : n.kind ≠ .component) (x : Extractor) :
    outcome (table.enter n) x = (.ok ⟨⟩, x) := by
  simp [Table.enter, table]

theorem enter_touches {n : Node} {x y : Extractor}
    (h : outcome (table.enter n) x = (.ok ⟨⟩, y)) :
    y.origin = x.origin ∧ y.importedDirs = x.importedDirs ∧ y.components = x.components := by
  by_cases hc : n.kind = .component
  · rw [enter_component hc] at h
    cases h
    exact ⟨rfl, rfl, rfl⟩
  · rw [enter_other hc] at h
    cases h
    exact ⟨rfl, rfl, rfl⟩

theorem leave_document {n : Node} (h : n.kind = .document) (vs : List (Value ScriptItem))
    (x : Extractor) : outcome (table.leave n vs) x = (.ok .empty, x.dropStray) := by
  simp only [Table.leave, table, h]
  rfl

theorem leave_component {n : Node} (h : n.kind = .component) (vs : List (Value ScriptItem))
    (x : Extractor) :
    outcome (table.leave n vs) x = (.ok .empty, x.finish (declaredName n) n.text) := by
  simp only [Table.leave, table, h]
  rfl

def importDir? (o : Origin) (n : Node) : Option Dependency :=
  (n.find? .moduleSpecifier).bind fun s => o.importedDir? s.text

/-- A relative import is resolved from the directory of its file or from the one above. -/
theorem Origin.importedDir?_eq_some {text specifier : String} {file : SourceFile} {d : Dependency}
    (h : (Origin.of text (some file)).importedDir? specifier = some d) :
    d.root = file.root ∧ (d.dir = file.dir ∨ file.dir.parent? = some d.dir) := by
  simp only [importedDir?, Origin.of, Option.bind_some] at h
  split at h
  · cases h
    exact ⟨rfl, .inl rfl⟩
  · obtain ⟨above, parent, rfl⟩ := Option.map_eq_some_iff.mp h
    exact ⟨rfl, .inr parent⟩
  · cases h

theorem leave_staticImport {n : Node} (h : n.kind = .staticImport) (vs : List (Value ScriptItem))
    (x : Extractor) :
    outcome (table.leave n vs) x =
      (.ok (.text ""), x.addImport (Text.trim n.text) (importDir? x.origin n)) := by
  simp only [Table.leave, table, h]
  rfl

theorem Local.frame {β : Type} {m : Visit CompileError Extractor β} (h : Local m) (x : Extractor) :
    ∃ p, (outcome m x).2 = { x with pending := p } := by
  obtain ⟨f, hf⟩ := h
  exact ⟨_, congrArg Prod.snd (hf x)⟩

/-- What leaving a node does to all but what is pending and what is warned of. -/
theorem leave_touches (n : Node) (vs : List (Value ScriptItem)) (x : Extractor) :
    let y := (outcome (table.leave n vs) x).2
    y.origin = x.origin ∧
      y.importedDirs = (if n.kind = .staticImport then
        (importDir? x.origin n).elim x.importedDirs (Dependency.add x.importedDirs)
        else x.importedDirs) ∧
      (n.kind ≠ .component → y.components = x.components) := by
  intro y
  by_cases hd : n.kind = .document
  · have left : y = x.dropStray := congrArg Prod.snd (leave_document hd vs x)
    rw [left, hd]
    exact ⟨rfl, rfl, fun _ => rfl⟩
  by_cases hc : n.kind = .component
  · have left : y = x.finish (declaredName n) n.text := congrArg Prod.snd (leave_component hc vs x)
    rw [left, hc]
    exact ⟨rfl, rfl, fun ne => absurd rfl ne⟩
  by_cases hs : n.kind = .staticImport
  · have left : y = x.addImport (Text.trim n.text) (importDir? x.origin n) :=
      congrArg Prod.snd (leave_staticImport hs vs x)
    rw [left, if_pos hs]
    exact ⟨rfl, rfl, fun _ => rfl⟩
  · obtain ⟨p, left⟩ := (local_leave hd hc hs vs).frame x
    have left : y = { x with pending := p } := left
    rw [left, if_neg hs]
    exact ⟨rfl, rfl, fun _ => rfl⟩

end HybridTemplate.Component
