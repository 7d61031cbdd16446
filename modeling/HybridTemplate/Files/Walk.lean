import HybridTemplate.Files.System

set_option autoImplicit false

/-! A walk lists the files below a path in the order of their names, the content of a directory
right behind it. The path of a file is the path where the walk began with the names on the way
appended. -/
namespace HybridTemplate.Files

mutual

def filesFrom (p : Path) : Entry → List Path
  | .file .. => [p]
  | .link _ => []
  | .directory entries => filesFromAll p entries

def filesFromAll (p : Path) : List (String × Entry) → List Path
  | [] => []
  | (name, e) :: entries => filesFrom (p.join ⟨name⟩) e ++ filesFromAll p entries

end

namespace System

/-- The regular files at and below a path. Only the path itself may be a link, to a
directory. -/
def filesBelow (fs : System) (p : Path) : List Path :=
  match fs.entryAt false p with
  | .ok (_, .link _) =>
    match fs.entryAt true p with
    | .ok (_, .directory entries) => filesFromAll p entries
    | _ => []
  | .ok (_, e) => filesFrom p e
  | .error _ => []

/-- The regular files at and below an entry, links followed. A link to a directory that
the walk is in is left out; `depth` bounds how deep the walk goes. -/
def followFrom (fs : System) :
    (depth : Nat) → (within : List Place) → Place → Path → Entry → List Path
  | 0, _, _, _, _ => []
  | depth + 1, within, place, p, e =>
    match e with
    | .file .. => [p]
    | .directory entries =>
      entries.flatMap fun (name, child) =>
        fs.followFrom depth (place :: within) (place ++ [name]) (p.join ⟨name⟩) child
    | .link target =>
      match fs.walk true linkLimit place.dropLast [(place.getLast?.getD target).toList] with
      | .ok (.found real (.directory entries)) =>
        if within.contains real then []
        else fs.followFrom depth within real p (.directory entries)
      | .ok (.found _ (.file ..)) => [p]
      | _ => []

def followDepth (fs : System) : Nat := 2 * (fs.top.count + 1) * (fs.top.count + 1)

def filesBelowFollowing (fs : System) (p : Path) : List Path :=
  match fs.entryAt true p with
  | .ok (place, e) => fs.followFrom fs.followDepth [] place p e
  | .error _ => []

end System
end HybridTemplate.Files
