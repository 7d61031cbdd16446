import HybridTemplate.Proofs.Component.Dependencies
import Mathlib.Data.List.Induction

set_option autoImplicit false

namespace HybridTemplate.Component

open Visit (outcome Alike Agree)

/-- Two extractors that differ in the dependencies of earlier documents at most. -/
def SameButDependencies (ds es : List Dependency) (x y : Extractor) : Prop :=
  x.dependencies = ds ∧ y = { x with dependencies := es }

theorem Local.alike {β : Type} {m : Visit CompileError Extractor β} (h : Local m)
    (ds es : List Dependency) : Alike (SameButDependencies ds es) Eq Eq m m := by
  obtain ⟨f, hf⟩ := h
  rintro x _ ⟨hx, rfl⟩
  rw [hf, hf]
  dsimp only
  constructor
  · rcases (f x.origin x.pending).1 with e | b
    · exact .error rfl
    · exact .ok rfl
  · exact ⟨hx, rfl⟩

theorem alike_of_outcome {β : Type} {m : Visit CompileError Extractor β} {b : β}
    {f : Extractor → Extractor} (h : ∀ x, outcome m x = (.ok b, f x)) {ds es : List Dependency}
    (hf : ∀ x, (f x).dependencies = x.dependencies ∧
      f { x with dependencies := es } = { f x with dependencies := es }) :
    Alike (SameButDependencies ds es) Eq Eq m m := by
  rintro x _ ⟨hx, rfl⟩
  rw [h, h]
  exact ⟨.ok rfl, (hf x).1.trans hx, (hf x).2⟩

theorem treatsAlike_dependencies (ds es : List Dependency) :
    table.TreatsAlike (SameButDependencies ds es) Eq Eq id where
  children := fun n => (List.map_id n.children).symm
  enter := by
    intro n
    have same : Alike (SameButDependencies ds es) Eq Eq (table.enter n) (table.enter n) := by
      by_cases hc : n.kind = .component
      · exact alike_of_outcome (enter_component hc) fun x => ⟨rfl, rfl⟩
      · exact alike_of_outcome (enter_other hc) fun x => ⟨rfl, rfl⟩
    intro x y hxy
    obtain ⟨agree, states⟩ := same x y hxy
    exact ⟨agree.mono fun _ _ _ => trivial, states⟩
  leave := by
    intro n vs ws h
    obtain rfl := List.forall₂_eq_eq_eq ▸ h
    by_cases hd : n.kind = .document
    · exact alike_of_outcome (leave_document hd vs) fun x => ⟨rfl, rfl⟩
    by_cases hc : n.kind = .component
    · exact alike_of_outcome (leave_component hc vs) fun x => ⟨rfl, rfl⟩
    by_cases hs : n.kind = .staticImport
    · exact alike_of_outcome (leave_staticImport hs vs) fun x => ⟨rfl, rfl⟩
    · exact (local_leave hd hc hs vs).alike ds es

/-- Whether nothing of a document is left. -/
structure Settled (x : Extractor) : Prop where
  pending : x.pending = .empty
  components : x.components = []
  importedDirs : x.importedDirs = []

theorem settled_fresh : Settled .fresh := ⟨rfl, rfl, rfl⟩

namespace Extractor

def atStart (o : Origin) (ds : List Dependency) : Extractor := ⟨o, .empty, [], [], ds, []⟩

/-- A settled extractor traverses a document as a new one does. -/
theorem visit_settled {x : Extractor} (hx : Settled x) (tree : Node) (o : Origin) :
    let new := outcome (table.visit tree) (atStart o [])
    outcome (table.visit tree) { x with origin := o, warnings := [] } =
      (new.1, { new.2 with dependencies := x.dependencies }) := by
  have start : SameButDependencies [] x.dependencies (atStart o [])
      { x with origin := o, warnings := [] } := by
    refine ⟨rfl, ?_⟩
    rw [atStart, hx.pending, hx.components, hx.importedDirs]
  obtain ⟨agree, _, states⟩ := (treatsAlike_dependencies [] x.dependencies).visit tree _ _ start
  exact Prod.ext agree.eq.symm states

section

variable {x : Extractor} {tree : Node} {source : String} {file : Option SourceFile} {y : Extractor}

theorem extract_of_error (hx : Settled x) {e : CompileError}
    (h : outcome (table.visit tree) (atStart (.of source file) []) = (.error e, y)) :
    x.extract tree source file =
      (⟨.error e, y.warnings⟩, { y.settle with dependencies := x.dependencies }) := by
  have here := visit_settled hx tree (.of source file)
  dsimp only at here
  rw [h] at here
  unfold extract
  rw [here]
  rfl

theorem extract_of_ok (hx : Settled x) {v : Value ScriptItem}
    (h : outcome (table.visit tree) (atStart (.of source file) []) = (.ok v, y)) :
    x.extract tree source file =
      (⟨.ok y.components, y.warnings⟩,
        { y.settle with dependencies := Dependency.addAll x.dependencies y.importedDirs }) := by
  have here := visit_settled hx tree (.of source file)
  dsimp only at here
  rw [h] at here
  unfold extract
  rw [here]
  rfl

end

theorem extract_settled {x : Extractor} (hx : Settled x) (tree : Node) (source : String)
    (file : Option SourceFile) :
    let after := (x.extract tree source file).2
    (x.extract tree source file).1 = (fresh.extract tree source file).1 ∧ Settled after ∧
      match (x.extract tree source file).1.result with
      | .error _ => after.dependencies = x.dependencies
      | .ok _ => ∃ dirs, after.dependencies = Dependency.addAll x.dependencies dirs ∧
        ∀ d : Dependency, d.In dirs ↔ d.In (Component.importedDirs (.of source file) tree) := by
  intro after
  rcases visited : outcome (table.visit tree) (atStart (.of source file) []) with ⟨e | v, y⟩
  · have here := extract_of_error hx visited
    have new := extract_of_error settled_fresh visited
    simp only [after, here, new]
    exact ⟨trivial, ⟨rfl, rfl, rfl⟩, trivial⟩
  · have here := extract_of_ok hx visited
    have new := extract_of_ok settled_fresh visited
    simp only [after, here, new]
    refine ⟨trivial, ⟨rfl, rfl, rfl⟩, y.importedDirs, rfl, fun d => ?_⟩
    rw [in_importedDirs_of_visit visited]
    simp [atStart]

end Extractor

inductive Document where
  | tree (tree : Node) (source : String) (file : Option SourceFile)
  | text (grammar : Grammar) (source : String) (file : Option SourceFile)

namespace Document

def importedDirs : Document → List Dependency
  | tree t source file => Component.importedDirs (.of source file) t
  | text grammar source file =>
    match grammar source with
    | .ok t => Component.importedDirs (.of source file) t
    | .error _ => []

end Document

inductive Call where
  | read (d : Document)
  | takeDependencies

namespace Extractor

def read (x : Extractor) : Document → Extraction × Extractor
  | .tree t source file => x.extract t source file
  | .text grammar source file => x.extractSource grammar source file

def after (x : Extractor) (calls : List Call) : Extractor :=
  calls.foldl (fun x call =>
    match call with
    | .read d => (x.read d).2
    | .takeDependencies => x.takeDependencies.2) x

end Extractor

def Document.Succeeds (d : Document) : Prop := ∃ ds, (Extractor.fresh.read d).1.result = .ok ds

/-- The documents that were read since the dependencies were last handed over. -/
def sinceTaken (calls : List Call) : List Document :=
  calls.foldl (fun read call =>
    match call with
    | .read d => read ++ [d]
    | .takeDependencies => []) []

namespace Extractor

theorem read_settled {x : Extractor} (hx : Settled x) (d : Document) :
    (x.read d).1 = (fresh.read d).1 ∧ Settled (x.read d).2 ∧
      match (x.read d).1.result with
      | .error _ => (x.read d).2.dependencies = x.dependencies
      | .ok _ => ∃ dirs, (x.read d).2.dependencies = Dependency.addAll x.dependencies dirs ∧
        ∀ e : Dependency, e.In dirs ↔ e.In d.importedDirs := by
  cases d with
  | tree t source file => exact extract_settled hx t source file
  | text grammar source file =>
    simp only [read, extractSource, Document.importedDirs]
    cases grammar source with
    | error e => exact ⟨rfl, hx, rfl⟩
    | ok t => exact extract_settled hx t source file

theorem settled_after (calls : List Call) : Settled (fresh.after calls) := by
  induction calls using List.reverseRecOn with
  | nil => exact settled_fresh
  | append_singleton calls call ih =>
    rw [after, List.foldl_append]
    cases call with
    | read d => exact (read_settled ih d).2.1
    | takeDependencies => exact ⟨ih.pending, ih.components, ih.importedDirs⟩

theorem dependencies_after (calls : List Call) :
    Dependency.Distinct (fresh.after calls).dependencies ∧
      ∀ d : Dependency, d.In (fresh.after calls).dependencies ↔
        ∃ r ∈ sinceTaken calls, r.Succeeds ∧ d.In r.importedDirs := by
  induction calls using List.reverseRecOn with
  | nil => exact ⟨.nil, fun d => by simp [after, fresh, sinceTaken]⟩
  | append_singleton calls call ih =>
    cases call with
    | takeDependencies =>
      rw [after, sinceTaken, List.foldl_append, List.foldl_append]
      exact ⟨.nil, fun d => by simp [takeDependencies]⟩
    | read r =>
      have step : fresh.after (calls ++ [.read r]) = ((fresh.after calls).read r).2 := by
        rw [after, List.foldl_append]
        rfl
      have taken : sinceTaken (calls ++ [.read r]) = sinceTaken calls ++ [r] := by
        rw [sinceTaken, List.foldl_append]
        rfl
      obtain ⟨same, _, added⟩ := read_settled (settled_after calls) r
      rw [step, taken]
      cases result : ((fresh.after calls).read r).1.result with
      | error e =>
        rw [result] at added
        have fails : ¬ r.Succeeds := by
          rintro ⟨ds, h⟩
          rw [← same, result] at h
          cases h
        rw [added]
        refine ⟨ih.1, fun d => ?_⟩
        rw [ih.2]
        simp [or_and_right, exists_or, fails]
      | ok ds =>
        rw [result] at added
        have succeeds : r.Succeeds := ⟨ds, same ▸ result⟩
        obtain ⟨dirs, added, mem⟩ := added
        rw [added]
        refine ⟨Dependency.distinct_addAll ih.1 dirs, fun d => ?_⟩
        rw [Dependency.in_addAll, ih.2, mem]
        simp [or_and_right, exists_or, succeeds]

/-- What a document gives does not depend on the documents before it. One that is refused leaves the
dependencies as they are, and these are just the directories of the documents read since they were
last handed over. -/
theorem read_after (calls : List Call) (d : Document) :
    let x := fresh.after calls
    (x.read d).1 = (fresh.read d).1 ∧
      (∀ e, (x.read d).1.result = .error e → (x.read d).2.dependencies = x.dependencies) ∧
      Dependency.Distinct x.dependencies ∧
      ∀ dep : Dependency, dep.In x.dependencies ↔
        ∃ r ∈ sinceTaken calls, r.Succeeds ∧ dep.In r.importedDirs := by
  intro x
  obtain ⟨same, _, added⟩ := read_settled (settled_after calls) d
  refine ⟨same, ?_, dependencies_after calls⟩
  intro e failed
  have failed : ((fresh.after calls).read d).1.result = .error e := failed
  rw [failed] at added
  exact added

end Extractor
end HybridTemplate.Component
