import HybridTemplate.Error
import HybridTemplate.Text.LowercaseLetter
import HybridTemplate.Traversal.Table
import HybridTemplate.Utility.AttributeSet
import HybridTemplate.Utility.HtmlAttributes

set_option autoImplicit false

namespace HybridTemplate.Utility.TreeWalk

inductive Item where
  | pair (key : String) (raw : Option String)
  | literal (text : String)
deriving DecidableEq, Repr

abbrev TagHandler := Handler Empty AttributeSet Item

def attributeName (n : Node) : String :=
  ((n.child? .attributeName).map fun c => Text.trim c.text).getD ""

def elementName (n : Node) : String := ((n.child? .elementName).map (·.text)).getD ""

def record (isHtml : HtmlTable) (element : String) (set : AttributeSet) : Item → AttributeSet
  | .literal text => set.collectLiteral text
  | .pair key raw =>
    if !isClassKey key && isHtml element key then set else set.collectPair key raw

def tag (isHtml : HtmlTable) : TagHandler := fun n values => do
  if Text.startsLowercase (elementName n) then
    modify fun set =>
      (values[2]?.getD Value.empty).items.foldl (record isHtml (elementName n)) set
  pure Value.empty

/-- A key with a value counts only where the value is plain text. -/
def keyValue : TagHandler := fun n values =>
  match values.getLast? with
  | some (.text raw) => pure (.item (.pair (attributeName n) (some raw)))
  | _ => pure .empty

def keyAlone : TagHandler := fun n _ => pure (.item (.pair (attributeName n) none))

def utilityLiteral : TagHandler := fun n _ => pure (.item (.literal (Text.unquote n.text)))

def table (isHtml : HtmlTable) : Table Empty AttributeSet Item where
  handler?
    | .startTag | .selfClosingElement => some (tag isHtml)
    | .kvAttribute => some keyValue
    | .novalueAttribute => some keyAlone
    | .utilityLiteral => some utilityLiteral
    | .spacedAttribute => some Handler.lastChild
    | .markupAttribute | .attributeValue => some Handler.firstChild
    | .spreadAttribute | .sameNameAttribute | .serverEmbed | .clientEmbed | .jointEmbed
    | .formatString | .webScript => some Handler.suppress
    | _ => none
  hook? _ := none

def collectTree (isHtml : HtmlTable) (set : AttributeSet) (tree : Node) : AttributeSet :=
  (((table isHtml).visit tree).run.run set).2

/-- Records the utilities of a source. A source that does not parse is refused before anything
of it is recorded. -/
def read (grammar : Grammar) (isHtml : HtmlTable) (file source : String) :
    Visit CompileError AttributeSet Unit :=
  match grammar source with
  | .error e => throw (.atOffset file source e.offset (.unparsable e.message))
  | .ok tree => modify fun set => collectTree isHtml set tree

def collect (grammar : Grammar) (isHtml : HtmlTable) (file : String) (set : AttributeSet)
    (source : String) : Except CompileError AttributeSet :=
  let (answer, set) := Visit.outcome (read grammar isHtml file source) set
  answer.map fun _ => set

end HybridTemplate.Utility.TreeWalk
