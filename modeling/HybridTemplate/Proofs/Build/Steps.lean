import HybridTemplate.Build
import HybridTemplate.Proofs.Session

set_option autoImplicit false

namespace HybridTemplate

open Session

namespace CompileError

def IsTool (e : CompileError) : Prop := ∃ tool cause, e = .externalTool tool cause

theorem isIo_io (path : String) (cause : IoCause) : (io path cause).IsIo := ⟨path, cause, rfl⟩

end CompileError

open CompileError (IsIo IsTool isIo_io)

namespace Bundle

theorem steady_copyScript (scratch root : Path) (copied : Copied) (file : Path) :
    Steady IsIo (copyScript scratch root copied file) := by
  refine steady_get_bind (fun w => ?_) fun w v same => by simp only [same.1]
  split
  · exact steady_pure _
  split
  · rename_i parent name _ _
    split
    · exact (steady_warn _).bind fun _ => steady_pure _
    · rename_i relative _
      dsimp only
      split
      · exact (steady_warn _).bind fun _ => steady_pure _
      split
      · exact steady_pure _
      · exact (steady_makeDirectories isIo_io _).bind fun _ =>
          (steady_changeFiles isIo_io _ _).bind fun _ => steady_pure _
  · exact steady_pure _

theorem steady_copyDependency (scratch : Path) (copied : Copied) (d : Component.Dependency) :
    Steady IsIo (copyDependency scratch copied d) := by
  refine steady_get_bind (fun w => ?_) fun w v same => by simp only [same.1]
  dsimp only
  split
  · exact Visit.alike_foldlM (steady_copyScript scratch d.root) _ _
  · exact (steady_warn _).bind fun _ => steady_pure _

theorem steady_copyDependencies (ds : List Component.Dependency) (scratch : Path) :
    Steady IsIo (copyDependencies ds scratch) :=
  Steady.bind (Visit.alike_foldlM (steady_copyDependency scratch) _ _) fun _ => steady_pure _

theorem steady_writeEntry (scratch : Path) (written : List Path) :
    Steady IsIo (writeEntry scratch written) := by
  refine steady_get_bind (fun w => ?_) fun w v same => by simp only [same.1]
  dsimp only
  split
  · exact steady_pure _
  · exact (steady_writeText isIo_io _ _).bind fun _ => steady_pure _

theorem steady_environmentValue? {P : CompileError → Prop} (name : String) :
    Steady P (environmentValue? name) :=
  steady_get_bind (fun _ => steady_pure _) fun w v same => by rw [same.2]

theorem steady_programOf (programs : Programs) (config : Config.BundlerConfig) :
    Steady IsTool (programOf programs config) := by
  unfold programOf
  split
  · exact steady_pure _
  refine steady_get_bind (fun w => ?_) fun w v same => by simp only [same.1, same.2]
  split
  · exact steady_pure _
  · exact steady_throw ⟨_, _, rfl⟩

theorem steady_runBundler (programs : Programs) (config : Config.BundlerConfig)
    (runtimeDir entry output : Path) :
    Steady IsTool (runBundler programs config runtimeDir entry output) := by
  have invoking : Steady IsTool (invocation programs config runtimeDir entry output) :=
    (steady_programOf programs config).bind fun _ =>
      (steady_environmentValue? _).bind fun _ => steady_pure _
  refine invoking.bind fun i => ?_
  extract_lets run
  have running : ∀ valid, Steady IsTool (run valid) := by
    intro valid
    refine Visit.alike_get_bind fun w v same => ?_
    rw [same.1, same.2]
    split
    · exact Visit.alike_throw ⟨rfl, _, _, rfl⟩
    · refine Visit.Alike.bind (Visit.alike_set ⟨rfl, rfl⟩) fun _ _ _ => ?_
      split
      · exact steady_pure _
      · exact steady_throw ⟨_, _, rfl⟩
  split
  · exact running ()
  · exact Steady.bind (steady_throw ⟨_, _, rfl⟩) running

theorem steady_bundle (programs : Programs) (scratch : Path) (written : List Path)
    (ds : List Component.Dependency) (config : Config.BuildConfig) :
    Steady (fun e => e.IsIo ∨ e.IsTool) (bundle programs scratch written ds config) := by
  refine steady_get_bind (fun w => ?_) fun w v same => by simp only [same.1]
  split
  · exact (steady_warn _).bind fun _ => steady_pure _
  refine ((steady_copyDependencies ds scratch).mono fun _ => Or.inl).bind fun copied => ?_
  refine ((steady_writeEntry scratch written).mono fun _ => Or.inl).bind fun written => ?_
  split
  · exact steady_pure _
  · exact ((steady_runBundler _ _ _ _ _).mono fun _ => Or.inr).bind fun _ => steady_pure _

end Bundle

namespace Build

open HybridTemplate.Bundle (Programs BundleOutcome)
open Config (BuildConfig)

theorem steady_removeStale (p : Path) : Steady IsIo (removeStale p) := by
  refine steady_get_bind (fun w => ?_) fun w v same => by simp only [same.1]
  split
  · exact steady_changeFiles isIo_io _ _
  · exact steady_pure _

theorem steady_prepareOutput (config : BuildConfig) : Steady IsIo (prepareOutput config) := by
  have cleaning : Steady IsIo (do
      if config.clean then
        removeStale config.outputFile
        removeStale ⟨config.outputFile.text ++ ".map"⟩) := by
    split
    · exact (steady_removeStale _).bind fun _ => steady_removeStale _
    · exact steady_pure _
  unfold prepareOutput
  dsimp only
  split
  · exact cleaning
  · exact (steady_makeDirectories isIo_io _).bind fun _ => cleaning

theorem steady_changeScratch (p scratch : Path)
    (f : Files.System → Except Files.OsError Files.System) :
    Steady IsIo (changeScratch p scratch f) := by
  unfold changeScratch
  split
  · exact steady_throw (isIo_io _ _)
  · refine steady_get_bind (fun w => ?_) fun w v same => by simp only [same.1]
    cases f w.files with
    | error e => exact steady_throw (isIo_io _ _)
    | ok files => exact steady_modifyFiles fun _ => files

theorem steady_makeScratch (config : BuildConfig) : Steady IsIo (makeScratch config) := by
  refine (steady_makeDirectories isIo_io _).bind fun _ => ?_
  refine steady_get_bind (fun w => ?_) fun w v same => by simp only [same.1]
  exact (steady_changeScratch _ _ _).bind fun _ => steady_pure _

theorem steady_writeModules (source : SourceFile) (scratch : Path)
    (components : List Component.Descriptor) :
    Steady IsIo (writeModules source scratch components) := by
  unfold writeModules
  split
  · exact steady_pure _
  · exact (steady_makeDirectories isIo_io _).bind fun _ =>
      Visit.alike_mapM (fun d => (steady_writeText isIo_io _ _).bind fun _ => steady_pure _) _

theorem steady_bundleOutcome {bundling : Session BundleOutcome}
    (h : Steady (fun e => e.IsIo ∨ e.IsTool) bundling) :
    Steady IsIo (bundleOutcome bundling) := by
  refine fun w v same => Visit.AlikeFrom.tryCatch (h w v same) ?_
  rintro e _ ⟨rfl, kind⟩
  rcases kind with ⟨path, cause, rfl⟩ | ⟨tool, cause, rfl⟩
  · exact steady_throw ⟨path, cause, rfl⟩
  · exact steady_pure _

theorem steady_closeScratch (scratch : Path) : Steady IsIo (closeScratch scratch) :=
  steady_changeScratch _ _ _

theorem steady_dropScratch {P : CompileError → Prop} (scratch : Path) :
    Steady P (dropScratch scratch) :=
  steady_modifyFiles fun files => (files.removeTree scratch).toOption.getD files

end Build
end HybridTemplate
