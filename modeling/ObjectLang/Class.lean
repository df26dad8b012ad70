import ObjectLang.Form
import ObjectLang.Literal
import ObjectLang.TypeTag

/-!
Classes: what a class itself declares, and the line of ancestors it inherits from.
-/

namespace ObjectLang

structure Param where
  name : String
  type : TypeTag
  deriving DecidableEq

structure Method where
  name : String
  returns : TypeTag
  params : List Param
  body : Form

def Method.signature (m : Method) : List TypeTag := m.params.map Param.type

structure Field where
  name : String
  type : TypeTag
  init : Option Literal

structure ClassBody where
  name : String
  fields : List Field
  methods : List Method

namespace ClassBody

def methodsNamed (b : ClassBody) (name : String) : List Method :=
  b.methods.filter fun m => m.name == name

/-- The types that the declarations name: those of the fields, then for each method the type it
returns and those of its parameters. They are resolved in this order, the order of declaration, but
any other would do. -/
def referencedTypes (b : ClassBody) : List TypeTag :=
  b.fields.map Field.type ++ b.methods.flatMap fun m => m.returns :: m.signature

end ClassBody

/-- A class with its ancestors, the parent first. -/
structure Class where
  own : ClassBody
  ancestors : List ClassBody

namespace Class

def name (c : Class) : String := c.own.name

def line (c : Class) : List ClassBody := c.own :: c.ancestors

def depth (c : Class) : Nat := c.ancestors.length

def parent? (c : Class) : Option Class :=
  match c.ancestors with
  | [] => none
  | p :: ps => some ⟨p, ps⟩

/-- The types of which an object of this class is an instance, and those of null and of untyped
operands. -/
def validTypes (c : Class) : List TypeTag :=
  c.line.map (fun b => .ofClass b.name) ++ [.null, .untyped]

def accepts (c : Class) : TypeTag → Bool
  | .ofClass name => c.line.any fun b => b.name == name
  | .null | .untyped => true
  | _ => false

def distanceTo? (c : Class) (name : String) : Option Nat :=
  c.line.findIdx? fun b => b.name == name

end Class

end ObjectLang
