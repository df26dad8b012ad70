import ObjectLang.View

/-!
Values. A null reference may carry the type of the variable or method it came through, and the
marker of a raised exception is a value without its message.
-/

namespace ObjectLang

inductive Value where
  | int (n : Int64)
  | bool (b : Bool)
  | string (text : String)
  | null (tag : Option TypeTag)
  | object (view : View)
  | void
  | exception

namespace Value

def ofLiteral : Literal → Value
  | .int n => int n
  | .bool b => bool b
  | .string text => string text
  | .null => null none

def runtimeType : Value → TypeTag
  | int _ => .int
  | bool _ => .bool
  | string _ => .string
  | null _ => .null
  | object v => .ofClass v.cls.name
  | void => .void
  | exception => .exception

def zero : TypeTag → Value
  | .int => int 0
  | .bool => bool false
  | .string => string ""
  | .void => void
  | .ofClass name => null (some (.ofClass name))
  | .null | .untyped | .exception => null none

def isException : Value → Bool
  | exception => true
  | _ => false

def isReference : Value → Bool
  | null _ | object _ => true
  | _ => false

def nullTag? : Value → Option TypeTag
  | null tag => tag
  | _ => none

def retag (t : TypeTag) : Value → Value
  | null _ => null (some t)
  | v => v

/-- Equality, in which nulls are equal whatever their tags. -/
def same : Value → Value → Bool
  | int a, int b => a == b
  | bool a, bool b => a == b
  | string a, string b => a == b
  | null _, null _ => true
  | object a, object b => a.same b
  | void, void => true
  | exception, exception => true
  | _, _ => false

def render : Value → String
  | int n => Integer.render n
  | bool b => if b then "true" else "false"
  | string text => text
  | null _ => "null"
  | object v => s!"<{v.cls.name} object>"
  | void => "void"
  | exception => "<exception>"

end Value

end ObjectLang
