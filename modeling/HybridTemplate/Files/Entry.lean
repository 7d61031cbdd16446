import HybridTemplate.Text.Utf8

set_option autoImplicit false

namespace HybridTemplate.Files

open Text (Bytes)

inductive Entry where
  | file (content : Bytes) (executable : Bool)
  | link (target : String)
  | directory (entries : List (String × Entry))

/-- A place in the tree, from the top down. -/
abbrev Place := List String

namespace Entry

def isFile : Entry → Bool
  | file .. => true
  | _ => false

def isDirectory : Entry → Bool
  | directory .. => true
  | _ => false

def isLink : Entry → Bool
  | link .. => true
  | _ => false

def child? (e : Entry) (name : String) : Option Entry :=
  match e with
  | directory entries => entries.lookup name
  | _ => none

def at? (e : Entry) : Place → Option Entry
  | [] => some e
  | name :: place => (e.child? name).bind fun c => c.at? place

def insertInto (name : String) (e : Entry) : List (String × Entry) → List (String × Entry)
  | [] => [(name, e)]
  | entry :: entries =>
    if name < entry.1 then (name, e) :: entry :: entries
    else if name = entry.1 then (name, e) :: entries
    else entry :: insertInto name e entries

/-- Puts `new` at a place, where the directory above it is there. -/
def put : Entry → Place → Entry → Entry
  | _, [], new => new
  | directory entries, [name], new => directory (insertInto name new entries)
  | directory entries, name :: next :: place, new =>
    match entries.lookup name with
    | some c => directory (insertInto name (c.put (next :: place) new) entries)
    | none => directory entries
  | e, _ :: _, _ => e

def erase : Entry → Place → Entry
  | directory entries, [name] => directory (entries.filter fun entry => entry.1 ≠ name)
  | directory entries, name :: next :: place =>
    match entries.lookup name with
    | some c => directory (insertInto name (c.erase (next :: place)) entries)
    | none => directory entries
  | e, _ => e

mutual

def count : Entry → Nat
  | file .. => 1
  | link .. => 1
  | directory entries => 1 + countAll entries

def countAll : List (String × Entry) → Nat
  | [] => 0
  | (_, e) :: entries => e.count + countAll entries

end

theorem at?_nil (e : Entry) : e.at? [] = some e := rfl

theorem at?_cons (e : Entry) (name : String) (place : Place) :
    e.at? (name :: place) = (e.child? name).bind fun c => c.at? place := rfl

end Entry
end HybridTemplate.Files
