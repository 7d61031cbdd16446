import HybridTemplate.Component.Pending
import HybridTemplate.Traversal.Table

set_option autoImplicit false

/-! One traversal of a document gathers, for each component, what its client side needs. A
component begins with nothing gathered, and what is gathered outside components is dropped with a
warning. The directories that relative imports point to count only when the whole document is
extracted. An extractor is used for one document after another; what it holds of a document is let
go when the document's traversal ends. -/
namespace HybridTemplate.Component

structure Origin where
  /-- The name under which errors are reported. -/
  file : String
  source : String
  sourceFile : Option SourceFile

def reportedName (sourceFile : Option SourceFile) : String :=
  (sourceFile.map (·.displayName)).getD anonymousFile

namespace Origin

def of (source : String) (sourceFile : Option SourceFile) : Origin :=
  ⟨reportedName sourceFile, source, sourceFile⟩

def location (o : Origin) (offset : Nat) : Location := Location.ofOffset o.source offset

/-- Drops quotes and backticks from both ends of a module specifier. -/
def bareSpecifier (text : String) : List Char :=
  Text.stripBy (fun c => c == '"' || c == '\'' || c == '\x60') (Text.trim text).toList

/-- The directory that a relative specifier is resolved from: that of the file for `./`,
its parent for `../`. -/
def importedDir? (o : Origin) (specifier : String) : Option Dependency :=
  o.sourceFile.bind fun file =>
    match bareSpecifier specifier with
    | '.' :: '/' :: _ => some ⟨file.dir, file.root⟩
    | '.' :: '.' :: '/' :: _ => file.dir.parent?.map fun dir => ⟨dir, file.root⟩
    | _ => none

end Origin

inductive ScriptItem where
  | embed (offset : Nat) (code : String)
  | name (name : String)
deriving DecidableEq, Repr

namespace Pending

def addEmbed (p : Pending) : Value ScriptItem → Pending
  | .item (.embed offset code) => { p with embeds := p.embeds ++ [(offset, code)] }
  | _ => p

def addArgs (p : Pending) (items : List ScriptItem) : Pending :=
  items.foldl (fun p item =>
    match item with
    | .name name => p.addArg name
    | .embed _ _ => p) p

def addImport (p : Pending) (text : String) : Pending := { p with imports := p.imports ++ [text] }

end Pending

structure Extractor where
  origin : Origin
  pending : Pending
  components : List Descriptor
  /-- The directories of the relative imports of this document. -/
  importedDirs : List Dependency
  /-- The directories of all documents that have been extracted. -/
  dependencies : List Dependency
  /-- What has been warned of since the extraction began. -/
  warnings : List Warning

namespace Extractor

def fresh : Extractor := ⟨⟨"", "", none⟩, .empty, [], [], [], []⟩

/-- Drops what was gathered outside a component. -/
def dropStray (x : Extractor) : Extractor :=
  { x with
    pending := .empty
    warnings := if x.pending.isUntouched then x.warnings else x.warnings ++ [.strayScript] }

def onPending (x : Extractor) (f : Pending → Pending) : Extractor :=
  { x with pending := f x.pending }

def finish (x : Extractor) (name source : String) : Extractor :=
  { x with
    pending := .empty
    components :=
      if x.pending.isPresentational then x.components
      else x.components ++ [x.pending.descriptor name source] }

def addImport (x : Extractor) (text : String) (dir? : Option Dependency) : Extractor :=
  { x.onPending (·.addImport text) with
    importedDirs := dir?.elim x.importedDirs (Dependency.add x.importedDirs) }

end Extractor

abbrev ScriptHandler := Handler CompileError Extractor ScriptItem

def childText (n : Node) (kind : Kind) : String :=
  ((n.child? kind).map fun c => Text.trim c.text).getD ""

/-- The declared name: that in the header, else the first in the component. -/
def declaredName (n : Node) : String :=
  let inHeader := (n.child? .componentHeader).bind (·.find? .componentName)
  ((inHeader.or (n.find? .componentName)).map fun c => Text.trim c.text).getD ""

def finishComponent : ScriptHandler := fun n _ => do
  modify fun x => x.finish (declaredName n) n.text
  return Value.empty

def bindingTarget : Value ScriptItem → String
  | .item (.embed _ code) => Text.trim code
  | .text raw =>
    Text.trim (String.ofList
      (Text.stripBy (fun c => c == '"' || c == '\'') (Text.trim raw).toList))
  | _ => ""

def failIf (refused : Pending → Bool) (error : Origin → CompileError) :
    Visit CompileError Extractor Unit := do
  let x ← get
  if refused x.pending then throw (error x.origin)

def bindTarget (kind : BindingKind) (offset : Nat) (target : String) :
    Visit CompileError Extractor Unit := do
  failIf (fun _ => target.isEmpty) fun o =>
    .grammar o.file (o.location offset) (.missingBindingName kind)
  failIf (·.isBound target) fun o =>
    .duplicateBinding target kind o.file (o.location offset)
  modify fun x => x.onPending (·.bind kind target)

def keyValue : ScriptHandler := fun n values => do
  let name := childText n .attributeName
  let value := values.getLast?.getD .empty
  match BindingKind.ofAttributeName? name with
  | some kind =>
    bindTarget kind n.start (bindingTarget value)
    return Value.empty
  | none =>
    modify fun x => x.onPending (·.addEmbed value)
    return .item (.name name)

def keyAlone : ScriptHandler := fun n _ => pure (.item (.name (childText n .attributeName)))

def sameName : ScriptHandler := fun n _ => pure (.item (.name (childText n .hostCode)))

def clientEmbed : ScriptHandler := fun n _ =>
  pure (.item (.embed n.start (((n.child? .clientExpr).map (·.text)).getD "")))

def jointEmbed : ScriptHandler := fun _ values => do
  modify fun x => x.onPending (·.addEmbed (values.getLast?.getD .empty))
  return Value.empty

def elementChildren : ScriptHandler := fun _ values => do
  modify fun x => x.onPending fun p => values.foldl Pending.addEmbed p
  return Value.empty

/-- The attributes are the third child of a script block and its body the sixth. -/
def webScript : ScriptHandler := fun n values => do
  failIf (·.scriptSource.isSome) fun o =>
    .grammar o.file (o.location n.start) .secondScript
  let attributes := values[2]?.getD Value.empty
  let body := values[5]?.getD Value.empty
  modify fun x => x.onPending fun p =>
    { p.addArgs attributes.items with
      script := body.joinedText
      scriptSource := some (((n.child? .scriptBody).map (·.text)).getD "") }
  return Value.empty

def scriptBody : ScriptHandler := fun _ values => pure (.text (Value.list values).joinedText)

def staticImport : ScriptHandler := fun n _ => do
  modify fun x => x.addImport (Text.trim n.text)
    ((n.find? .moduleSpecifier).bind fun s => x.origin.importedDir? s.text)
  return .text ""

def finishDocument : ScriptHandler := fun _ _ => do
  modify Extractor.dropStray
  return Value.empty

def table : Table CompileError Extractor ScriptItem where
  handler?
    | .document => some finishDocument
    | .component => some finishComponent
    | .kvAttribute => some keyValue
    | .novalueAttribute => some keyAlone
    | .sameNameAttribute => some sameName
    | .clientEmbed => some clientEmbed
    | .jointEmbed => some jointEmbed
    | .elementChildren => some elementChildren
    | .webScript => some webScript
    | .scriptBody => some scriptBody
    | .staticImport => some staticImport
    | .spacedAttribute => some Handler.lastChild
    | .markupAttribute | .attributeValue => some Handler.firstChild
    | .spreadAttribute | .utilityLiteral => some Handler.suppress
    | _ => none
  hook?
    | .component => some fun _ => modify Extractor.dropStray
    | _ => none

structure Extraction where
  result : Except CompileError (List Descriptor)
  warnings : List Warning

namespace Extractor

/-- Lets go of what has been gathered of the document. -/
def settle (x : Extractor) : Extractor :=
  { x with pending := .empty, components := [], importedDirs := [] }

/-- The components of a document that need a wrapper module, in document order. -/
def extract (x : Extractor) (tree : Node) (source : String) (sourceFile : Option SourceFile) :
    Extraction × Extractor :=
  let (visited, y) :=
    Visit.outcome (table.visit tree) { x with origin := .of source sourceFile, warnings := [] }
  match visited with
  | .error e => (⟨.error e, y.warnings⟩, y.settle)
  | .ok _ =>
    (⟨.ok y.components, y.warnings⟩,
      { y.settle with dependencies := Dependency.addAll y.dependencies y.importedDirs })

def extractSource (x : Extractor) (grammar : Grammar) (source : String)
    (sourceFile : Option SourceFile) : Extraction × Extractor :=
  match grammar source with
  | .error e =>
    let error := .atOffset (reportedName sourceFile) source e.offset (.unparsable e.message)
    (⟨.error error, []⟩, x)
  | .ok tree => x.extract tree source sourceFile

def takeDependencies (x : Extractor) : List Dependency × Extractor :=
  (x.dependencies, { x with dependencies := [] })

end Extractor
end HybridTemplate.Component
