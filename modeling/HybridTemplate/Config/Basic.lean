import HybridTemplate.Config.Json
import HybridTemplate.Path.Basic

set_option autoImplicit false

/-! The settings of a build. A configuration is written as a JSON object, in which every setting
may be missing and members that are no settings are passed over, or as an array of the settings in
their order. -/
namespace HybridTemplate.Config

structure BundlerConfig where
  /-- The program to run; without one the bundler is run through the package runner. -/
  program : Option Path
  leadingArgs : List String
  /-- The environment variable in which the bundler looks for modules. -/
  modulePathEnv : String
deriving Repr

def BundlerConfig.standard : BundlerConfig := ⟨none, [], "NODE_PATH"⟩

structure BuildConfig where
  outputFile : Path
  scratchParent : Path
  scratchPrefix : String
  runtimeDir : Path
  clean : Bool
  /-- Extensions of template sources, without the dot. -/
  sourceExtensions : List String
  bundler : BundlerConfig
deriving Repr

def BuildConfig.standard (runtimeDir : Path) : BuildConfig where
  outputFile := ⟨"static/js/weft/index.js"⟩
  scratchParent := ⟨"."⟩
  scratchPrefix := ".wefttmp_"
  runtimeDir := runtimeDir
  clean := false
  sourceExtensions := ["weft"]
  bundler := .standard

namespace Json

def text? : Json → Option String
  | string text => text
  | _ => none

def path? (j : Json) : Option Path := j.text?.map Path.mk

def bool? : Json → Option Bool
  | bool b => some b
  | _ => none

def texts? : Json → Option (List String)
  | array es => es.mapM text?
  | _ => none

def optionalPath? : Json → Option (Option Path)
  | null => some none
  | j => j.path?.map some

end Json

abbrev Setting (γ : Type) := String × (Json → γ → Option γ)

/-- The settings with those that are given as members of an object. A setting is given
at most once, and the names of members are texts. -/
def applyMembers {γ : Type} (settings : List (Setting γ)) (initial : γ)
    (members : List (Option String × Json)) : Option γ := do
  let named ← members.mapM fun m => m.1.map fun name => (name, m.2)
  let known := named.filter fun m => settings.any fun s => s.1 = m.1
  if (known.map (·.1)).Nodup then
    known.foldlM (fun current m =>
      match settings.lookup m.1 with
      | some apply => apply m.2 current
      | none => some current) initial
  else none

def applyElements {γ : Type} (settings : List (Setting γ)) (initial : γ) (elements : List Json) :
    Option γ :=
  if elements.length ≤ settings.length then
    (settings.zip elements).foldlM (fun current pair => pair.1.2 pair.2 current) initial
  else none

def readSettings {γ : Type} (settings : List (Setting γ)) (initial : γ) : Json → Option γ
  | .object members => applyMembers settings initial members
  | .array elements => applyElements settings initial elements
  | _ => none

def bundlerSettings : List (Setting BundlerConfig) := [
  ("program", fun j c => j.optionalPath?.map fun program => { c with program }),
  ("leadingArgs", fun j c => j.texts?.map fun leadingArgs => { c with leadingArgs }),
  ("modulePathEnv", fun j c => j.text?.map fun modulePathEnv => { c with modulePathEnv })]

def buildSettings : List (Setting BuildConfig) := [
  ("outputFile", fun j c => j.path?.map fun outputFile => { c with outputFile }),
  ("scratchParent", fun j c => j.path?.map fun scratchParent => { c with scratchParent }),
  ("scratchPrefix", fun j c => j.text?.map fun scratchPrefix => { c with scratchPrefix }),
  ("runtimeDir", fun j c => j.path?.map fun runtimeDir => { c with runtimeDir }),
  ("clean", fun j c => j.bool?.map fun clean => { c with clean }),
  ("sourceExtensions", fun j c => j.texts?.map fun sourceExtensions => { c with sourceExtensions }),
  ("bundler", fun j c =>
    (readSettings bundlerSettings .standard j).map fun bundler => { c with bundler })]

namespace BuildConfig

def ofText? (runtimeDir : Path) (s : String) : Option BuildConfig :=
  (Json.ofText? s).bind (readSettings buildSettings (standard runtimeDir))

/-- The settings with those that the environment overrides; an empty variable does not. -/
def withEnvironment (c : BuildConfig) (environment : String → Option String) : BuildConfig :=
  let given (name : String) := (environment name).filter fun v => !v.isEmpty
  let c := match given "WEFT_BUNDLER" with
    | some program => { c with bundler := { c.bundler with program := some ⟨program⟩ } }
    | none => c
  match given "WEFT_RUNTIME_DIR" with
  | some dir => { c with runtimeDir := ⟨dir⟩ }
  | none => c

def outputDir (c : BuildConfig) : Path := c.outputFile.parent?.getD ⟨""⟩

end BuildConfig
end HybridTemplate.Config
