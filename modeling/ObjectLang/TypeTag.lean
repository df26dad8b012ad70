/-!
Type tags: the types that a program can declare, and the three that only values have.
-/

namespace ObjectLang

inductive TypeTag where
  | int | bool | string | void
  | ofClass (name : String)
  /-- The type of a null reference. -/
  | null
  /-- The declared type of what was not read from a variable. -/
  | untyped
  /-- The type of the marker of a raised exception. -/
  | exception
  deriving DecidableEq

namespace TypeTag

def isPrimitiveName (name : String) : Bool :=
  name == "int" || name == "bool" || name == "string" || name == "void"

def ofName (name : String) : TypeTag :=
  if name == "int" then int
  else if name == "bool" then bool
  else if name == "string" then string
  else if name == "void" then void
  else ofClass name

def className? : TypeTag → Option String
  | ofClass name => some name
  | _ => none

def isClass (t : TypeTag) : Bool := t.className?.isSome

def render : TypeTag → String
  | int => "int"
  | bool => "bool"
  | string => "string"
  | void => "void"
  | ofClass name => name
  | null => "null"
  | untyped => "untyped"
  | exception => "exception"

end TypeTag

end ObjectLang
