import HybridTemplate.Bundle.Dependencies
import HybridTemplate.Config.Basic
import HybridTemplate.Text.Blank

set_option autoImplicit false

/-! The bundler is a program of its own. It is told where the entry module is and where the bundle
goes, and finds the runtime through the module path. What running a program does and where it is
found are parameters here. -/
namespace HybridTemplate.Bundle

open Component (Dependency)
open Config (BundlerConfig BuildConfig)

structure Invocation where
  program : String
  args : List String
  assignments : List (String × String)
deriving DecidableEq, Repr

structure Outcome where
  status : ExitStatus
  complaint : Text.Bytes
  files : Files.System

/-- The programs of the machine: what running one does, and how one is found by its name
alone. A name that is not found is reported with the reason. -/
structure Programs where
  run : (program : String) → (args : List String) → (environment : List (String × String)) →
    Files.System → Except Files.OsError Outcome
  find : (name : String) → (environment : List (String × String)) → Files.System →
    Except String Path

/-- The module path: what is set already, then the runtime directory. A directory with a
colon in its name cannot be part of a list, and stands alone. -/
def modulePath (existing : Option String) (runtimeDir : Path) : String :=
  if runtimeDir.text.toList.contains ':' then runtimeDir.text
  else
    match existing with
    | some value => value ++ ":" ++ runtimeDir.text
    | none => runtimeDir.text

/-- The program and its first arguments. Without a configured program, the package runner
is looked up and told to run the bundler. -/
def programOf (programs : Programs) (config : BundlerConfig) :
    Session (String × List String) := do
  match config.program with
  | some program => return (program.text, config.leadingArgs)
  | none =>
    let s ← get
    match programs.find "npx" s.environment s.files with
    | .ok npx => return (npx.text, "esbuild" :: config.leadingArgs)
    | .error reason => throw (.externalTool "npx" (.notFound reason))

def invocation (programs : Programs) (config : BundlerConfig) (runtimeDir entry output : Path) :
    Session Invocation := do
  let (program, args) ← programOf programs config
  let existing ← Session.environmentValue? config.modulePathEnv
  return {
    program
    args := args ++ ["--format=esm", "--bundle", "--minify", "--sourcemap",
      "--outfile=" ++ output.text, entry.text]
    assignments := [(config.modulePathEnv, modulePath existing runtimeDir)] }

def Invocation.isValid (i : Invocation) : Bool :=
  (i.program :: i.args ++ i.assignments.flatMap fun v => [v.1, v.2]).all fun s =>
    !s.toList.contains '\x00'

def setIn (environment assignments : List (String × String)) : List (String × String) :=
  assignments ++ environment.filter fun v => (assignments.lookup v.1).isNone

def runBundler (programs : Programs) (config : BundlerConfig) (runtimeDir entry output : Path) :
    Session Unit := do
  let i ← invocation programs config runtimeDir entry output
  unless i.isValid do throw (.externalTool i.program .zeroByte)
  let s ← get
  match programs.run i.program i.args (setIn s.environment i.assignments) s.files with
  | .error e => throw (.externalTool i.program (.notStarted (.os e)))
  | .ok outcome =>
    set { s with files := outcome.files }
    unless outcome.status.isSuccess do
      throw (.externalTool i.program
        (.failed outcome.status (Text.trim (Text.decodeLossy outcome.complaint))))

inductive BundleOutcome where
  | nothingToBundle
  | bundled (output : Path) (components : List String) (copied : Nat)
  | failed (error : CompileError)

namespace BundleOutcome

def isBundled : BundleOutcome → Bool
  | bundled .. => true
  | _ => false

def isFailed : BundleOutcome → Bool
  | failed _ => true
  | _ => false

end BundleOutcome

/-- Bundles a scratch tree: dependencies are copied, the entry is written, the bundler
runs. A tree without wrapper modules is left as it is. -/
def bundle (programs : Programs) (scratch : Path) (written : List Path)
    (dependencies : List Dependency) (config : BuildConfig) : Session BundleOutcome := do
  if (Discovery.componentModules (← get).files scratch).isEmpty then
    Session.warn .noModules
    return .nothingToBundle
  let copied ← copyDependencies dependencies scratch
  match ← writeEntry scratch written with
  | none => return .nothingToBundle
  | some (entry, components) =>
    runBundler programs config.bundler config.runtimeDir entry config.outputFile
    return .bundled config.outputFile components copied

end HybridTemplate.Bundle
