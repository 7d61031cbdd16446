import HybridTemplate.Bundle.Entry
import HybridTemplate.Component.Pending

set_option autoImplicit false

/-! The scripts below every dependency are copied into the scratch tree, each to its place
relative to the dependency's root. Nothing is taken from inside the scratch tree, and nothing
takes the place of the entry module. -/
namespace HybridTemplate.Bundle

open Component (Dependency)

/-- Whether a path lies below a directory, as it is written or in the tree of files. -/
def isInside (fs : Files.System) (p dir : Path) : Bool :=
  p.startsWith dir ||
    match fs.canonical? p, fs.canonical? dir with
    | some p, some dir => p.startsWith dir
    | _, _ => false

abbrev Copied := List (Path × Path)

def Copied.has (copied : Copied) (file relative : Path) : Bool :=
  copied.any fun c => c.1.same file && c.2.same relative

def copyScript (scratch root : Path) (copied : Copied) (file : Path) : Session Copied := do
  if isInside (← get).files file scratch then return copied
  match file.parent?, file.fileName? with
  | some parent, some name =>
    match parent.stripPrefix? root with
    | none =>
      Session.warn .dependencyOutsideRoot
      return copied
    | some relative =>
      let dir := scratch.join relative
      let target := dir.join ⟨name⟩
      if target.same (scratch.join ⟨entryFile⟩) then
        Session.warn .dependencyReplacesEntry
        return copied
      if copied.has file relative then return copied
      Session.makeDirectories dir
      Session.changeFiles file fun fs => fs.copy file target
      return copied ++ [(file, relative)]
  | _, _ => return copied

def copyDependency (scratch : Path) (copied : Copied) (d : Dependency) : Session Copied := do
  let fs := (← get).files
  if fs.isDirectory d.dir then
    (Discovery.scripts fs d.dir).foldlM (copyScript scratch d.root) copied
  else
    Session.warn .dependencyMissing
    return copied

def dependencyLe (d e : Dependency) : Bool :=
  d.dir.lt e.dir || (d.dir.same e.dir && !e.root.lt d.root)

def copyDependencies (dependencies : List Dependency) (scratch : Path) : Session Nat := do
  let copied ← (dependencies.mergeSort dependencyLe).foldlM (copyDependency scratch) []
  return copied.length

end HybridTemplate.Bundle
