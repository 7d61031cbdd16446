import HybridTemplate.Files.Entry
import HybridTemplate.Files.OsError
import HybridTemplate.Path.Basic

set_option autoImplicit false

/-! A path is looked up segment by segment: dots and empty segments stay, two dots go up, and a
symbolic link is replaced by the path that it holds. A relative path begins at the working
directory. -/
namespace HybridTemplate.Files

open Text (Bytes)

structure System where
  top : Entry
  cwd : Place

inductive Target where
  | found (place : Place) (entry : Entry)
  | absent (directory : Place) (name : String) (asDirectory : Bool)

def linkLimit : Nat := 40

def nameLimit : Nat := 255

namespace System

/-- Goes on from a directory along segments. A link on the way, or at the end on request, is
left to `follow`, which is given the directory that it stands in, its target and the segments
behind it. -/
def walkWith (fs : System) (followLast : Bool)
    (follow : Place → List Char → List (List Char) → Except OsError Target) :
    Place → List (List Char) → Except OsError Target
  | place, [] =>
    match fs.top.at? place with
    | some e => .ok (.found place e)
    | none => .error .noEntry
  | place, s :: rest =>
    if Path.isVoid s then walkWith fs followLast follow place rest
    else if s = ['.', '.'] then walkWith fs followLast follow place.dropLast rest
    else if nameLimit < Text.byteLength s then .error .nameTooLong
    else
      let name := String.ofList s
      match fs.top.at? (place ++ [name]) with
      | none =>
        if rest.all fun t => t.isEmpty then .ok (.absent place name !rest.isEmpty)
        else .error .noEntry
      | some (.directory _) => walkWith fs followLast follow (place ++ [name]) rest
      | some (.file content executable) =>
        if rest.isEmpty then .ok (.found (place ++ [name]) (.file content executable))
        else .error .notDirectory
      | some (.link target) =>
        if rest.isEmpty && !followLast then .ok (.found (place ++ [name]) (.link target))
        else follow place target.toList rest

/-- Goes on from a directory along segments. `links` is the number of links that may
still be followed; the last one is followed only on request. -/
def walk (fs : System) (followLast : Bool) :
    (links : Nat) → Place → List (List Char) → Except OsError Target
  | 0 => walkWith fs followLast fun _ _ _ => .error .tooManyLinks
  | links + 1 => walkWith fs followLast fun place target rest =>
    match target with
    | [] => .error .noEntry
    | c :: cs =>
      walk fs followLast links (if c = '/' then [] else place) (Path.segments (c :: cs) ++ rest)

def locate (fs : System) (followLast : Bool) (p : Path) : Except OsError Target :=
  if p.text.isEmpty then .error .noEntry
  else
    walk fs followLast linkLimit (if p.isAbsolute then [] else fs.cwd)
      (Path.segments p.text.toList)

def entryAt (fs : System) (followLast : Bool) (p : Path) : Except OsError (Place × Entry) := do
  match ← fs.locate followLast p with
  | .found place e => .ok (place, e)
  | .absent .. => .error .noEntry

def status? (fs : System) (p : Path) : Option Entry := (fs.entryAt true p).toOption.map (·.2)

def isFile (fs : System) (p : Path) : Bool := (fs.status? p).any Entry.isFile
def isDirectory (fs : System) (p : Path) : Bool := (fs.status? p).any Entry.isDirectory

def placePath (place : Place) : Path := ⟨"/" ++ String.intercalate "/" place⟩

def canonical? (fs : System) (p : Path) : Option Path :=
  (fs.entryAt true p).toOption.map fun found => placePath found.1

def put (fs : System) (place : Place) (e : Entry) : System := { fs with top := fs.top.put place e }

def read (fs : System) (p : Path) : Except OsError Bytes := do
  match ← fs.entryAt true p with
  | (_, .file content _) => .ok content
  | _ => .error .isDirectory

def write (fs : System) (p : Path) (content : Bytes) : Except OsError System := do
  match ← fs.locate true p with
  | .found place (.file _ executable) => .ok (fs.put place (.file content executable))
  | .found _ _ => .error .isDirectory
  | .absent _ _ true => .error .isDirectory
  | .absent place name false => .ok (fs.put (place ++ [name]) (.file content false))

def withoutEndSlashes (p : Path) : Path :=
  match p.text.toList.reverse.dropWhile (· == '/') with
  | [] => if p.text.isEmpty then p else ⟨"/"⟩
  | cs => ⟨String.ofList cs.reverse⟩

/-- Makes one directory. Whatever has the name already is in the way, a link included. -/
def makeDirectory (fs : System) (p : Path) : Except OsError System := do
  match ← fs.locate false (withoutEndSlashes p) with
  | .found .. => .error .alreadyExists
  | .absent place name _ => .ok (fs.put (place ++ [name]) (.directory []))

def makeDirectoriesFrom (fs : System) : (depth : Nat) → Path → System × Option OsError
  | 0, _ => (fs, none)
  | depth + 1, p =>
    if p.text.isEmpty then (fs, none)
    else
      match fs.makeDirectory p with
      | .ok fs => (fs, none)
      | .error .noEntry =>
        match p.parent? with
        | none => (fs, some .noEntry)
        | some above =>
          match fs.makeDirectoriesFrom depth above with
          | (fs, some e) => (fs, some e)
          | (fs, none) =>
            match fs.makeDirectory p with
            | .ok fs => (fs, none)
            | .error e => (fs, if fs.isDirectory p then none else some e)
      | .error e => (fs, if fs.isDirectory p then none else some e)

/-- Makes a directory with all that are missing above it. What has been made stays where a
further one fails. -/
def makeDirectories (fs : System) (p : Path) : System × Option OsError :=
  fs.makeDirectoriesFrom (p.text.length + 1) p

def removeFile (fs : System) (p : Path) : Except OsError System := do
  match ← fs.entryAt false p with
  | (_, .directory _) => .error .isDirectory
  | (place, _) => .ok { fs with top := fs.top.erase place }

def removeTree (fs : System) (p : Path) : Except OsError System := do
  match ← fs.entryAt false p with
  | (_, .file ..) => .error .notDirectory
  | (place, _) => .ok { fs with top := fs.top.erase place }

/-- Copies a file with its permission to run; a file copied onto itself ends up empty. -/
def copy (fs : System) (source target : Path) : Except OsError System := do
  match ← fs.entryAt true source with
  | (sourcePlace, .file content executable) =>
    match ← fs.locate true target with
    | .found place (.file ..) =>
      .ok (fs.put place (.file (if place = sourcePlace then [] else content) executable))
    | .found _ _ => .error .isDirectory
    | .absent _ _ true => .error .isDirectory
    | .absent place name false => .ok (fs.put (place ++ [name]) (.file content executable))
  | _ => .error .invalidArgument

end System
end HybridTemplate.Files
