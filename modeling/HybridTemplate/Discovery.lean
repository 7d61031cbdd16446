import HybridTemplate.Component.Module
import HybridTemplate.Files.Walk
import HybridTemplate.SourceFile

set_option autoImplicit false

namespace HybridTemplate.Discovery

open Files (System)

def sources (fs : System) (root : Path) (extensions : List String) : List SourceFile :=
  ((fs.filesBelowFollowing root).filter fun p => p.extension?.any extensions.contains).map
    fun p => ⟨p, root⟩

def componentModules (fs : System) (dir : Path) : List Path :=
  (fs.filesBelow dir).filter Component.isModulePath

def isScript (p : Path) : Bool :=
  (p.extension? == some "js" || p.extension? == some "ts") && !Component.isModulePath p

def scripts (fs : System) (dir : Path) : List Path := (fs.filesBelow dir).filter isScript

theorem isScript_of_isModulePath {p : Path} (h : Component.isModulePath p = true) :
    isScript p = false := by
  simp [isScript, h]

end HybridTemplate.Discovery
