import HybridTemplate.Text.Blank
import HybridTemplate.Utility.SortedSet

set_option autoImplicit false

namespace HybridTemplate.Utility

structure AttributeSet where
  classes : List String
  keyed : List (String × List String)
deriving DecidableEq, Repr

def classKeys : List String := ["class", "$class"]

def isClassKey (key : String) : Bool := classKeys.contains key

namespace AttributeSet

def empty : AttributeSet := ⟨[], []⟩

def addValues (key : String) (values : List String) :
    List (String × List String) → List (String × List String)
  | [] => [(key, SortedSet.insertAll values [])]
  | entry :: entries =>
    if key < entry.1 then (key, SortedSet.insertAll values []) :: entry :: entries
    else if key = entry.1 then (entry.1, SortedSet.insertAll values entry.2) :: entries
    else entry :: addValues key values entries

/-- Records a key with the words of its value, taken out of their quotes. -/
def collectPair (set : AttributeSet) (key : String) (raw : Option String) : AttributeSet :=
  let values := Text.words (Text.unquote (raw.getD ""))
  if key.isEmpty || isClassKey key then
    { set with classes := SortedSet.insertAll values set.classes }
  else { set with keyed := addValues key values set.keyed }

/-- The key of a word and, behind the first equals sign, its value. -/
def splitWord (word : String) : String × String :=
  (String.ofList (word.toList.takeWhile (· != '=')),
    String.ofList ((word.toList.dropWhile (· != '=')).drop 1))

def collectLiteral (set : AttributeSet) (literal : String) : AttributeSet :=
  (Text.words literal).foldl (fun set word =>
    set.collectPair (splitWord word).1 (some (splitWord word).2)) set

def values? (set : AttributeSet) (key : String) : Option (List String) := set.keyed.lookup key

def isEmpty (set : AttributeSet) : Bool := set.classes.isEmpty && set.keyed.isEmpty

/-- The pairs of one key; a key without values gives one pair with the empty value. -/
def keyPairs (key : String) (values : List String) : List (String × String) :=
  if values.isEmpty then [(key, "")] else values.map fun v => (key, v)

def pairs (set : AttributeSet) : List (String × String) :=
  set.classes.map (fun c => ("", c)) ++ set.keyed.flatMap fun entry => keyPairs entry.1 entry.2

end AttributeSet
end HybridTemplate.Utility
