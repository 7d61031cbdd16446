import HybridTemplate.Files.OsError
import HybridTemplate.Location
import HybridTemplate.Text.Escaped
import HybridTemplate.Token

set_option autoImplicit false

namespace HybridTemplate

def anonymousFile : String := "<content>"

inductive BindingKind where
  | ref | refAll
deriving DecidableEq, Repr

namespace BindingKind

def attributeName : BindingKind → String
  | ref => "ref"
  | refAll => "refall"

def ofAttributeName? (s : String) : Option BindingKind :=
  if s = "ref" then some ref else if s = "refall" then some refAll else none

theorem ofAttributeName?_attributeName (k : BindingKind) :
    ofAttributeName? k.attributeName = some k := by
  cases k <;> decide

end BindingKind

inductive GrammarCause where
  | unparsable (message : String)
  | missingBindingName (kind : BindingKind)
  | secondScript
deriving DecidableEq, Repr

namespace GrammarCause

def message : GrammarCause → String
  | unparsable message => message
  | missingBindingName kind => s!"'{kind.attributeName}' needs a binding name"
  | secondScript => "a component takes at most one script block"

end GrammarCause

inductive IoCause where
  | os (error : Files.OsError)
  | notText
  | nulInPath
  | invalidConfig
  | atPath (path : String) (cause : IoCause)
deriving DecidableEq, Repr

namespace IoCause

def message : IoCause → String
  | os e => e.message
  | notText => "stream did not contain valid UTF-8"
  | nulInPath => "file name contained an unexpected NUL byte"
  | invalidConfig => "invalid configuration"
  | atPath path cause => s!"{cause.message} at path {Text.quotedPath path}"

end IoCause

inductive ExitStatus where
  | code (n : Nat)
  | signal (number : Nat) (name : String)
deriving DecidableEq, Repr

namespace ExitStatus

def isSuccess : ExitStatus → Bool
  | code 0 => true
  | _ => false

def message : ExitStatus → String
  | code n => s!"exit status: {n}"
  | signal number name => s!"signal: {number} ({name})"

end ExitStatus

inductive ToolCause where
  | notFound (reason : String)
  | zeroByte
  | notStarted (cause : IoCause)
  | failed (status : ExitStatus) (complaint : String)
deriving DecidableEq, Repr

namespace ToolCause

/-- A tool that failed without a complaint is reported by its status alone. -/
def message : ToolCause → String
  | notFound reason => reason
  | zeroByte => "nul byte found in provided data"
  | notStarted cause => cause.message
  | failed status complaint =>
    if complaint.isEmpty then status.message else s!"{status.message} {complaint}"

end ToolCause

inductive CompileError where
  | grammar (file : String) (location : Location) (cause : GrammarCause)
  | duplicateBinding (name : String) (kind : BindingKind) (file : String) (location : Location)
  | unresolvedSubLanguage (language : SubLanguage)
  | untypedFragment (text : String)
  | externalTool (tool : String) (cause : ToolCause)
  | io (path : String) (cause : IoCause)
deriving DecidableEq, Repr

namespace CompileError

/-- The stable code of the error's sort. -/
def code : CompileError → String
  | grammar .. => "WEFT-ERR-GRAMMAR"
  | duplicateBinding .. => "WEFT-ERR-DUPLICATE-BINDING"
  | unresolvedSubLanguage .. => "WEFT-ERR-UNRESOLVED-SUBLANGUAGE"
  | untypedFragment .. => "WEFT-ERR-UNTYPED-FRAGMENT"
  | externalTool .. => "WEFT-ERR-EXTERNAL-TOOL"
  | io .. => "WEFT-ERR-IO"

def message : CompileError → String
  | grammar file l cause => s!"{file}:{l.line}:{l.column}: {cause.message}"
  | duplicateBinding name kind file l =>
    s!"{file}:{l.line}:{l.column}: duplicate {kind.attributeName} name '{name}', " ++
      "ref and refall names must be unique within a component"
  | unresolvedSubLanguage language => s!"no lexer registered for sub-language '{language.name}'"
  | untypedFragment text => s!"untyped fragment {Text.quoted text} reached the token merger"
  | externalTool tool cause => s!"external tool '{tool}' failed: {cause.message}"
  | io path cause => s!"{path}: {cause.message}"

def isPerFile : CompileError → Bool
  | grammar .. => true
  | duplicateBinding .. => true
  | _ => false

def atOffset (file source : String) (offset : Nat) (cause : GrammarCause) : CompileError :=
  grammar file (Location.ofOffset source offset) cause

end CompileError

inductive Warning where
  | strayScript
  | noModules
  | dependencyMissing
  | dependencyOutsideRoot
  | dependencyReplacesEntry
deriving DecidableEq, Repr

namespace Warning

def message : Warning → String
  | strayScript => "client script found outside any component, ignored"
  | noModules => "no component modules generated, bundling skipped"
  | dependencyMissing => "dependency directory missing, skipped"
  | dependencyOutsideRoot => "dependency outside its root, skipped"
  | dependencyReplacesEntry => "dependency would replace the entry module, skipped"

end Warning
end HybridTemplate
