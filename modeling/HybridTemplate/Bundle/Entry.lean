import HybridTemplate.Discovery
import HybridTemplate.Workspace

set_option autoImplicit false

namespace HybridTemplate.Bundle

def entryFile : String := "index.js"

structure EntryImport where
  key : String
  specifier : String
deriving DecidableEq, Repr

def componentText : Path.Component → String
  | .root => "/"
  | .current => "."
  | .parent => ".."
  | .normal name => name

def entryImport? (scratch module : Path) : Option EntryImport :=
  if Component.isModulePath module then
    module.fileStem?.bind fun key =>
      (module.stripPrefix? scratch).map fun relative =>
        ⟨key,
          "./" ++ String.intercalate "/" (relative.withoutExtension.components.map componentText)⟩
  else none

def distinctKeys (seen : List String) : List EntryImport → List EntryImport
  | [] => []
  | i :: is =>
    if seen.contains i.key then distinctKeys seen is else i :: distinctKeys (i.key :: seen) is

/-- The imports of the entry: the written modules that are among the scanned ones, in
order, then the other scanned ones. -/
def entryImports (scratch : Path) (written scanned : List Path) : List EntryImport :=
  let present := written.filter fun p => scanned.any fun q => p.same q
  distinctKeys [] ((present ++ scanned).filterMap (entryImport? scratch))

def importLine (i : EntryImport) : String :=
  "import \x7b setup as " ++ i.key ++ " \x7d from \"" ++ i.specifier ++ "\";\n"

def setupLine (i : EntryImport) : String := "    " ++ i.key ++ ": " ++ i.key ++ ",\n"

def entryText (imports : List EntryImport) : String :=
  String.join (imports.map importLine) ++
    "import \x7b hydrate as hydrateWithSetups \x7d from \"weft\";\n\n" ++
    "const setups = \x7b\n" ++
    String.join (imports.map setupLine) ++
    "\x7d;\n\n" ++
    "export const hydrate = async (rootElement) => await hydrateWithSetups(rootElement, setups);\n"

theorem distinctKeys_not_mem {seen : List String} {is : List EntryImport} {i : EntryImport}
    (h : i ∈ distinctKeys seen is) : i.key ∉ seen := by
  induction is generalizing seen with
  | nil => simp [distinctKeys] at h
  | cons j js ih =>
    rw [distinctKeys] at h
    split at h
    · exact ih h
    · rename_i fresh
      rcases List.mem_cons.mp h with rfl | h
      · simpa using fresh
      · exact fun old => ih h (List.mem_cons_of_mem _ old)

/-- Writes the entry module, unless there is no wrapper to import; gives its path and the
keys of its imports. -/
def writeEntry (scratch : Path) (written : List Path) : Session (Option (Path × List String)) := do
  let scanned := Discovery.componentModules (← get).files scratch
  if scanned.isEmpty then return none
  let imports := entryImports scratch written scanned
  let entry := scratch.join ⟨entryFile⟩
  Session.writeText entry (entryText imports)
  return some (entry, imports.map (·.key))

end HybridTemplate.Bundle
