import HybridTemplate.Error
import HybridTemplate.Files.System
import HybridTemplate.Text.Utf8

set_option autoImplicit false

namespace HybridTemplate

structure Workspace where
  files : Files.System
  environment : List (String × String)
  warnings : List Warning

/-- A step that works on the workspace and may fail. -/
abbrev Session (β : Type) := ExceptT CompileError (StateM Workspace) β

namespace Session

def warn (w : Warning) : Session Unit :=
  modify fun s => { s with warnings := s.warnings ++ [w] }

def environmentValue? (name : String) : Session (Option String) := do
  return (← get).environment.lookup name

def lift {β : Type} (p : Path) (r : Except Files.OsError β) : Session β :=
  match r with
  | .ok b => pure b
  | .error e => throw (.io p.text (.os e))

def checkPath (p : Path) : Session Unit :=
  if p.text.toList.contains '\x00' then throw (.io p.text .nulInPath) else pure ()

def changeFiles (p : Path) (f : Files.System → Except Files.OsError Files.System) :
    Session Unit := do
  checkPath p
  let files ← lift p (f (← get).files)
  modify fun s => { s with files }

def readText (p : Path) : Session String := do
  checkPath p
  let bytes ← lift p ((← get).files.read p)
  match Text.decode? bytes with
  | some text => pure text
  | none => throw (.io p.text .notText)

def writeText (p : Path) (text : String) : Session Unit :=
  changeFiles p fun fs => fs.write p (Text.encode text)

def makeDirectories (p : Path) : Session Unit := do
  checkPath p
  let (files, failure) := (← get).files.makeDirectories p
  modify fun s => { s with files }
  match failure with
  | some e => throw (.io p.text (.os e))
  | none => pure ()

end Session
end HybridTemplate
