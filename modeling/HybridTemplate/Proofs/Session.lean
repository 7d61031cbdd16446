import HybridTemplate.Proofs.Traversal.Runs
import HybridTemplate.Workspace

set_option autoImplicit false

namespace HybridTemplate

open Visit (outcome outcome_bind outcome_bind_eq_ok outcome_pure outcome_throw
  outcome_get_bind outcome_modify outcome_modify_bind Alike alike_pure alike_throw alike_modify
  alike_get_bind Ends ends_pure ends_throw ends_get_bind ends_modify
  ends_modify_bind)

def CompileError.IsIo (e : CompileError) : Prop := ∃ path cause, e = .io path cause

def SameButWarnings (w v : Workspace) : Prop :=
  v.files = w.files ∧ v.environment = w.environment

theorem SameButWarnings.refl (w : Workspace) : SameButWarnings w w := ⟨rfl, rfl⟩

theorem SameButWarnings.symm {w v : Workspace} (h : SameButWarnings w v) : SameButWarnings v w :=
  ⟨h.1.symm, h.2.symm⟩

theorem SameButWarnings.trans {u w v : Workspace} (h : SameButWarnings u w)
    (k : SameButWarnings w v) : SameButWarnings u v :=
  ⟨k.1.trans h.1, k.2.trans h.2⟩

namespace Session

variable {β : Type} {p : Path} {w w' : Workspace} {done : Unit}

theorem lift_eq_ok {r : Except Files.OsError β} {b : β} :
    outcome (lift p r) w = (.ok b, w') ↔ r = .ok b ∧ w' = w := by
  unfold lift
  cases r with
  | error e => simp
  | ok c => simp [eq_comm]

theorem checkPath_eq_ok :
    outcome (checkPath p) w = (.ok done, w') ↔ '\x00' ∉ p.text.toList ∧ w' = w := by
  unfold checkPath
  by_cases zero : '\x00' ∈ p.text.toList
  · simp [zero]
  · simp [zero, eq_comm]

theorem changeFiles_eq_ok {f : Files.System → Except Files.OsError Files.System} :
    outcome (changeFiles p f) w = (.ok done, w') ↔
      '\x00' ∉ p.text.toList ∧ ∃ files, f w.files = .ok files ∧ w' = { w with files } := by
  unfold changeFiles
  simp only [outcome_bind_eq_ok, checkPath_eq_ok, outcome_get_bind, lift_eq_ok, outcome_modify]
  constructor
  · rintro ⟨-, _, ⟨clean, rfl⟩, files, _, ⟨changed, rfl⟩, ended⟩
    cases ended
    exact ⟨clean, files, changed, rfl⟩
  · rintro ⟨clean, files, changed, rfl⟩
    exact ⟨⟨⟩, w, ⟨clean, rfl⟩, files, w, ⟨changed, rfl⟩, rfl⟩

theorem readText_eq_ok {text : String} :
    outcome (readText p) w = (.ok text, w') ↔
      '\x00' ∉ p.text.toList ∧
        (∃ bytes, w.files.read p = .ok bytes ∧ Text.decode? bytes = some text) ∧ w' = w := by
  unfold readText
  simp only [outcome_bind_eq_ok, checkPath_eq_ok, outcome_get_bind, lift_eq_ok]
  constructor
  · rintro ⟨-, _, ⟨clean, rfl⟩, bytes, _, ⟨read, rfl⟩, decoded⟩
    cases decodes : Text.decode? bytes with
    | none =>
      rw [decodes, outcome_throw] at decoded
      cases decoded
    | some t =>
      rw [decodes, outcome_pure] at decoded
      cases decoded
      exact ⟨clean, ⟨bytes, read, decodes⟩, rfl⟩
  · rintro ⟨clean, ⟨bytes, read, decodes⟩, rfl⟩
    exact ⟨⟨⟩, w', ⟨clean, rfl⟩, bytes, w', ⟨read, rfl⟩, by rw [decodes]; rfl⟩

theorem writeText_eq_ok {text : String} :
    outcome (writeText p text) w = (.ok done, w') ↔
      '\x00' ∉ p.text.toList ∧
        ∃ files, w.files.write p (Text.encode text) = .ok files ∧ w' = { w with files } :=
  changeFiles_eq_ok

theorem makeDirectories_eq_ok :
    outcome (makeDirectories p) w = (.ok done, w') ↔
      '\x00' ∉ p.text.toList ∧
        ∃ files, w.files.makeDirectories p = (files, none) ∧ w' = { w with files } := by
  unfold makeDirectories
  rw [outcome_bind_eq_ok]
  simp only [checkPath_eq_ok, outcome_get_bind, outcome_modify_bind]
  constructor
  · rintro ⟨-, v, ⟨clean, rfl⟩, ended⟩
    rcases made : v.files.makeDirectories p with ⟨files, _ | e⟩
    · rw [made] at ended
      cases ended
      exact ⟨clean, files, rfl, rfl⟩
    · rw [made] at ended
      cases ended
  · rintro ⟨clean, files, made, rfl⟩
    refine ⟨⟨⟩, w, ⟨clean, rfl⟩, ?_⟩
    rw [made]
    rfl

section

variable {E : Workspace → Prop}

theorem ends_checkPath {Q : Unit → Workspace → Prop} (ok : Q ⟨⟩ w) (error : E w) :
    Ends Q E (checkPath p) w := by
  unfold checkPath
  split
  · exact ends_throw error
  · exact ends_pure ok

theorem ends_lift {Q : β → Workspace → Prop} {r : Except Files.OsError β}
    (ok : ∀ b, r = .ok b → Q b w) (error : E w) : Ends Q E (lift p r) w := by
  cases r with
  | error e => exact ends_throw error
  | ok b => exact ends_pure (ok b rfl)

theorem ends_changeFiles {Q : Unit → Workspace → Prop}
    {f : Files.System → Except Files.OsError Files.System}
    (ok : ∀ files, f w.files = .ok files → Q ⟨⟩ { w with files }) (error : E w) :
    Ends Q E (changeFiles p f) w := by
  refine Ends.bind (Q := fun _ u => w = u) (ends_checkPath rfl error) ?_
  rintro - _ rfl
  refine ends_get_bind (Ends.bind (Q := fun files u => Q ⟨⟩ { u with files })
    (ends_lift (fun files changed => ?_) error) fun files u changed => ends_modify changed)
  exact ok files changed

theorem ends_readText {Q : String → Workspace → Prop} (ok : ∀ text, Q text w) (error : E w) :
    Ends Q E (readText p) w := by
  refine Ends.bind (Q := fun _ u => w = u) (ends_checkPath rfl error) ?_
  rintro - _ rfl
  refine ends_get_bind (Ends.bind (Q := fun _ u => w = u) (ends_lift (fun _ _ => rfl) error) ?_)
  rintro bytes _ rfl
  cases Text.decode? bytes with
  | none => exact ends_throw error
  | some text => exact ends_pure (ok text)

theorem ends_makeDirectories {Q : Unit → Workspace → Prop}
    (ok : Q ⟨⟩ { w with files := (w.files.makeDirectories p).1 })
    (error : E { w with files := (w.files.makeDirectories p).1 }) (refused : E w) :
    Ends Q E (makeDirectories p) w := by
  refine Ends.bind (Q := fun _ u => w = u) (ends_checkPath rfl refused) ?_
  rintro - _ rfl
  refine ends_get_bind ?_
  dsimp only
  rcases made : w.files.makeDirectories p with ⟨files, _ | e⟩
  · rw [made] at ok
    exact ends_modify_bind (ends_pure ok)
  · rw [made] at error
    exact ends_modify_bind (ends_throw error)

end

/-- Whether a step does not look at the warnings, and fails with errors of one kind only. -/
def Steady (P : CompileError → Prop) (m : Session β) : Prop :=
  Alike SameButWarnings (fun e f => f = e ∧ P e) Eq m m

variable {P : CompileError → Prop}

theorem Steady.mono {Q : CompileError → Prop} {m : Session β} (h : Steady P m)
    (hQ : ∀ e, P e → Q e) : Steady Q m :=
  Alike.mono h fun e _ same => ⟨same.1, hQ e same.2⟩

theorem Steady.bind {γ : Type} {m : Session β} {k : β → Session γ} (h : Steady P m)
    (hk : ∀ b, Steady P (k b)) : Steady P (m >>= k) :=
  Alike.bind h fun b _ same => same ▸ hk b

theorem steady_pure (b : β) : Steady P (pure b) := alike_pure rfl

theorem steady_throw {e : CompileError} (h : P e) : Steady P (throw e : Session β) :=
  alike_throw ⟨rfl, h⟩

theorem steady_warn (warning : Warning) : Steady P (warn warning) :=
  alike_modify fun _ _ same => same

theorem steady_modifyFiles (f : Files.System → Files.System) :
    Steady P (modify fun s : Workspace => { s with files := f s.files }) :=
  alike_modify fun _ _ same => ⟨congrArg f same.1, same.2⟩

/-- A step that goes on with the files and the environment does not look at the warnings. -/
theorem steady_get_bind {k : Workspace → Session β} (h : ∀ w, Steady P (k w))
    (same : ∀ w v, SameButWarnings w v → k v = k w) : Steady P (get >>= k) :=
  alike_get_bind fun w v hs => (same w v hs).symm ▸ h w

variable (io : ∀ path cause, P (.io path cause))

include io

theorem steady_lift (p : Path) (r : Except Files.OsError β) : Steady P (lift p r) := by
  cases r with
  | error e => exact steady_throw (io p.text (.os e))
  | ok b => exact steady_pure b

theorem steady_checkPath (p : Path) : Steady P (checkPath p) := by
  unfold checkPath
  split
  · exact steady_throw (io _ _)
  · exact steady_pure _

theorem steady_changeFiles (p : Path) (f : Files.System → Except Files.OsError Files.System) :
    Steady P (changeFiles p f) := by
  refine (steady_checkPath io p).bind fun _ => steady_get_bind (fun w => ?_) fun w v same => ?_
  · exact (steady_lift io p (f w.files)).bind fun changed => steady_modifyFiles fun _ => changed
  · simp only [same.1]

theorem steady_readText (p : Path) : Steady P (readText p) := by
  refine (steady_checkPath io p).bind fun _ => steady_get_bind (fun w => ?_) fun w v same => ?_
  · refine (steady_lift io p (w.files.read p)).bind fun bytes => ?_
    split
    · exact steady_pure _
    · exact steady_throw (io _ _)
  · simp only [same.1]

theorem steady_writeText (p : Path) (text : String) : Steady P (writeText p text) :=
  steady_changeFiles io p _

theorem steady_makeDirectories (p : Path) : Steady P (makeDirectories p) := by
  refine (steady_checkPath io p).bind fun _ => steady_get_bind (fun w => ?_) fun w v same => ?_
  · refine (steady_modifyFiles fun _ => (w.files.makeDirectories p).1).bind fun _ => ?_
    split
    · exact steady_throw (io _ _)
    · exact steady_pure _
  · simp only [same.1]

end Session
end HybridTemplate
