import HybridTemplate.Bundle.Bundler
import HybridTemplate.Component.Extraction
import HybridTemplate.Highlight
import HybridTemplate.Utility.MarkupScan
import HybridTemplate.Utility.TreeWalk

set_option autoImplicit false

/-! A build reads its sources, writes a wrapper module for every component with client behaviour
into a scratch directory of its own, and bundles that directory. An error in one source is
reported and the others go on; any other error ends the build. The scratch directory is removed at
the end; that it cannot be is an error where there is no other. -/
namespace HybridTemplate.Build

open HybridTemplate.Bundle (BundleOutcome Programs)
open Component (Descriptor Extractor)
open Config (BuildConfig)
open Utility (AttributeSet HtmlTable)

structure WrittenModule where
  source : Path
  component : String
  identifier : String
  path : Path
deriving Repr

structure FileFailure where
  file : Path
  error : CompileError
deriving Repr

structure Report where
  modules : List WrittenModule
  failures : List FileFailure
  bundle : BundleOutcome

namespace Report

def isSuccess (r : Report) : Bool := r.failures.isEmpty && !r.bundle.isFailed

end Report

def removeStale (p : Path) : Session Unit := do
  if (← get).files.isFile p then
    Session.changeFiles p fun fs => fs.removeFile p

def prepareOutput (config : BuildConfig) : Session Unit := do
  unless config.outputDir.text.isEmpty do
    Session.makeDirectories config.outputDir
  if config.clean then
    removeStale config.outputFile
    removeStale ⟨config.outputFile.text ++ ".map"⟩

/-- A name behind the stem that is not yet taken in the directory. -/
def freshPath (fs : Files.System) (dir : Path) (stem : String) : (tries : Nat) → Path
  | 0 => dir.join ⟨stem ++ "000000"⟩
  | tries + 1 =>
    let p := dir.join ⟨stem ++ String.ofList (Nat.toDigits 10 (1000000 + tries)).tail⟩
    if (fs.entryAt false p).toOption.isSome then freshPath fs dir stem tries else p

/-- Changes the files at the scratch directory; a failure is reported under a path, and its
cause names the scratch directory. -/
def changeScratch (p scratch : Path) (f : Files.System → Except Files.OsError Files.System) :
    Session Unit := do
  if scratch.text.toList.contains '\x00' then
    throw (.io p.text (.atPath scratch.text .nulInPath))
  else
    match f (← get).files with
    | .ok files => modify fun s => { s with files }
    | .error e => throw (.io p.text (.atPath scratch.text (.os e)))

def makeScratch (config : BuildConfig) : Session Path := do
  Session.makeDirectories config.scratchParent
  let fs := (← get).files
  let parent := (Files.System.placePath fs.cwd).join config.scratchParent
  let scratch := freshPath fs parent config.scratchPrefix (fs.top.count + 1)
  changeScratch config.scratchParent scratch fun fs => fs.makeDirectory scratch
  return scratch

def closeScratch (scratch : Path) : Session Unit :=
  changeScratch scratch scratch fun fs => fs.removeTree scratch

/-- Removes the scratch directory if it can be. -/
def dropScratch (scratch : Path) : Session Unit :=
  modify fun s => { s with files := (s.files.removeTree scratch).toOption.getD s.files }

def writeModules (source : SourceFile) (scratch : Path) (components : List Descriptor) :
    Session (List WrittenModule) := do
  if components.isEmpty then return []
  let dir := scratch.join source.relativeDir
  Session.makeDirectories dir
  components.mapM fun d => do
    Session.writeText (dir.join ⟨d.fileName⟩) d.render
    return ⟨source.path, d.name, d.identifier, source.relativeDir.join ⟨d.fileName⟩⟩

def compileFile (grammar : Grammar) (scratch : Path) (x : Extractor) (source : SourceFile) :
    Session (Extractor × Except CompileError (List WrittenModule)) := do
  let text ← Session.readText source.path
  let (extraction, x) := x.extractSource grammar text (some source)
  modify fun s => { s with warnings := s.warnings ++ extraction.warnings }
  match extraction.result with
  | .error e => if e.isPerFile then return (x, .error e) else throw e
  | .ok components => return (x, .ok (← writeModules source scratch components))

structure Progress where
  extractor : Extractor
  modules : List WrittenModule
  failures : List FileFailure

def compileNext (grammar : Grammar) (scratch : Path) (p : Progress) (source : SourceFile) :
    Session Progress := do
  let (extractor, result) ← compileFile grammar scratch p.extractor source
  match result with
  | .ok modules => return { p with extractor, modules := p.modules ++ modules }
  | .error error => return { p with extractor, failures := p.failures ++ [⟨source.path, error⟩] }

def compileAll (grammar : Grammar) (scratch : Path) (sources : List SourceFile) :
    Session Progress :=
  sources.foldlM (compileNext grammar scratch) ⟨.fresh, [], []⟩

/-- A bundler that fails is an outcome of the build; any other error ends it. -/
def bundleOutcome (bundling : Session BundleOutcome) : Session BundleOutcome :=
  tryCatch bundling fun e =>
    match e with
    | .externalTool .. => return .failed e
    | e => throw e

def runIn (programs : Programs) (grammar : Grammar) (config : BuildConfig) (scratch : Path)
    (sources : List SourceFile) : Session Report := do
  let p ← compileAll grammar scratch sources
  let written := p.modules.map fun m => scratch.join m.path
  let outcome ← bundleOutcome
    (Bundle.bundle programs scratch written p.extractor.takeDependencies.1 config)
  return ⟨p.modules, p.failures, outcome⟩

def run (programs : Programs) (grammar : Grammar) (config : BuildConfig)
    (sources : List SourceFile) : Session Report := do
  prepareOutput config
  let scratch ← makeScratch config
  let report ← tryCatch (runIn programs grammar config scratch sources) fun e => do
    dropScratch scratch
    throw e
  closeScratch scratch
  return report

def runDir (programs : Programs) (grammar : Grammar) (config : BuildConfig) (root : Path) :
    Session Report := do
  run programs grammar config (Discovery.sources (← get).files root config.sourceExtensions)

def readConfig (runtimeDir p : Path) : Session BuildConfig := do
  match BuildConfig.ofText? runtimeDir (← Session.readText p) with
  | some config =>
    let environment := (← get).environment
    return config.withEnvironment fun name => environment.lookup name
  | none => throw (.io p.text .invalidConfig)

def collectFiles (collect : String → AttributeSet → String → Except CompileError AttributeSet)
    (paths : List Path) : Session AttributeSet :=
  paths.foldlM (fun set p => do
    match collect p.text set (← Session.readText p) with
    | .ok set => return set
    | .error e => throw e) .empty

def collectTemplates (grammar : Grammar) (isHtml : HtmlTable) (paths : List Path) :
    Session AttributeSet :=
  collectFiles (Utility.TreeWalk.collect grammar isHtml) paths

def collectMarkup (paths : List Path) : Session AttributeSet :=
  collectFiles (fun _ set source => .ok (Utility.MarkupScan.collect set source)) paths

end HybridTemplate.Build
