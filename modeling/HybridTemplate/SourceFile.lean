import HybridTemplate.Path.Basic

set_option autoImplicit false

namespace HybridTemplate

structure SourceFile where
  path : Path
  root : Path
deriving Repr

namespace SourceFile

def single (path : Path) : SourceFile := ⟨path, path.parent?.getD ⟨""⟩⟩

def dir (s : SourceFile) : Path := s.path.parent?.getD ⟨""⟩

/-- The directory relative to the root; empty at the root and outside it. -/
def relativeDir (s : SourceFile) : Path := (s.dir.stripPrefix? s.root).getD ⟨""⟩

def displayName (s : SourceFile) : String := s.path.text

end SourceFile
end HybridTemplate
