import HybridTemplate.Component.Identifier
import HybridTemplate.Path.Basic
import HybridTemplate.Text.Blank

set_option autoImplicit false

/-! A component with client behaviour becomes one module: its imports, then a `setup` that takes
the arguments from the instance, runs the script and leaves the values of the embeds on the
instance. The module's file is named after the identifier, and that form of name tells wrapper
modules from all other scripts. -/
namespace HybridTemplate.Component

structure Descriptor where
  name : String
  identifier : String
  args : List String
  embeds : List String
  imports : List String
  script : String
deriving DecidableEq, Repr

namespace Descriptor

def fileName (d : Descriptor) : String := d.identifier ++ ".js"

def argsLine (d : Descriptor) : String :=
  if d.args.isEmpty then ""
  else "let \x7b " ++ String.intercalate ", " d.args ++ " \x7d = this.weftArgs;"

def embedsLine (d : Descriptor) : String :=
  "this.weftEmbeds = [" ++ String.intercalate ", " d.embeds ++ "];"

def render (d : Descriptor) : String :=
  String.intercalate "\n" d.imports ++ "\nexport const setup = async function () \x7b\n    " ++
    d.argsLine ++ "\n    " ++ d.script ++ "\n    " ++ d.embedsLine ++ "\n\x7d;\n"

end Descriptor

def isHexDigit (c : Char) : Bool := c.isDigit || ('a' ≤ c && c ≤ 'f')

def isStem (cs : List Char) : Bool :=
  match cs with
  | [] => false
  | c :: rest => (c.isLower || c == '_') && rest.all isStemChar

/-- Whether a name is a stem, an underscore, forty hexadecimal digits and `.js`. -/
def isModuleName (name : String) : Bool :=
  let reversed := name.toList.reverse
  let digits := (reversed.drop 3).take hashLength
  reversed.take 3 == ['s', 'j', '.'] && digits.length == hashLength && digits.all isHexDigit &&
    match reversed.drop (3 + hashLength) with
    | '_' :: stem => isStem stem.reverse
    | _ => false

def isModulePath (p : Path) : Bool := p.fileName?.any isModuleName

end HybridTemplate.Component
