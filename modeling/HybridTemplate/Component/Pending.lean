import HybridTemplate.Component.Module
import HybridTemplate.Error
import HybridTemplate.SourceFile

set_option autoImplicit false

namespace HybridTemplate.Component

def addNew (s : String) (ss : List String) : List String := if ss.contains s then ss else ss ++ [s]

def firsts (ss : List String) : List String := ss.foldl (fun seen s => addNew s seen) []

structure Pending where
  refs : List String
  refAlls : List String
  args : List String
  /-- The script block as it is written, imports included. -/
  scriptSource : Option String
  script : String
  /-- The embeds with the offsets at which they stand. -/
  embeds : List (Nat × String)
  imports : List String
deriving DecidableEq, Repr

namespace Pending

def empty : Pending := ⟨[], [], [], none, "", [], []⟩

/-- Whether nothing gathered gives the component client behaviour. -/
def isPresentational (p : Pending) : Bool :=
  p.scriptSource.all Text.isAllBlank && p.embeds.isEmpty && p.refs.isEmpty && p.refAlls.isEmpty

def isUntouched (p : Pending) : Bool :=
  p.isPresentational && p.args.isEmpty && p.imports.isEmpty

def isBound (p : Pending) (name : String) : Bool :=
  p.refs.contains name || p.refAlls.contains name

def bind (p : Pending) (kind : BindingKind) (name : String) : Pending :=
  match kind with
  | .ref => { p with refs := addNew name p.refs }
  | .refAll => { p with refAlls := addNew name p.refAlls }

def addArg (p : Pending) (name : String) : Pending :=
  if name.isEmpty then p else { p with args := addNew name p.args }

/-- The descriptor of the component of that name and source: bindings come before
arguments, and embeds in the order of their places. -/
def descriptor (p : Pending) (name source : String) : Descriptor where
  name := name
  identifier := identifier name source
  args := firsts (p.refs ++ p.refAlls ++ p.args)
  embeds := (p.embeds.mergeSort fun a b => a.1 ≤ b.1).map (·.2)
  imports := p.imports
  script := p.script

end Pending

/-- A directory that the bundler has to resolve relative imports from, and the root that
its place is taken relative to. -/
structure Dependency where
  dir : Path
  root : Path
deriving Repr

namespace Dependency

def same (d e : Dependency) : Bool := d.dir.same e.dir && d.root.same e.root

/-- Adds a dependency to a set, where none that means the same is in it. -/
def add (ds : List Dependency) (d : Dependency) : List Dependency :=
  if ds.any d.same then ds else ds ++ [d]

def addAll (ds new : List Dependency) : List Dependency := new.foldl add ds

end Dependency
end HybridTemplate.Component
