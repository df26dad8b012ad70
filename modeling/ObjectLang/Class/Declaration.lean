import ObjectLang.Class
import ObjectLang.Error

/-!
Declarations of fields, parameters and methods, read from the forms of a class body.
-/

namespace ObjectLang

def Field.initOf (cls name : String) : Option Form → Except Error (Option Literal)
  | none => .ok none
  | some value =>
    match value.asAtom?.bind Literal.ofToken? with
    | some literal => .ok (some literal)
    | none => .error (.initializerNotLiteral cls name)

def Field.declare (cls type name : String) (value : Option Form) : Except Error Field :=
  if TypeTag.ofName type = .void then .error (.malformed .fieldType)
  else (initOf cls name value).map fun init => ⟨name, TypeTag.ofName type, init⟩

def Field.ofForm (cls : String) : Form → Except Error Field
  | .list [_, .atom type, .atom name] => declare cls type name none
  | .list [_, .atom type, .atom name, value] => declare cls type name (some value)
  | _ => .error (.malformed .field)

def Param.extend (method : String) (before : List Param) : Form → Except Error (List Param)
  | .list [.atom type, .atom name] =>
    if before.any fun p => p.name == name then .error (.duplicateParameter method name)
    else if TypeTag.ofName type = .void then .error (.malformed .parameterType)
    else .ok (before ++ [⟨name, TypeTag.ofName type⟩])
  | _ => .error (.malformed .parameter)

def Method.ofForm : Form → Except Error Method
  | .list [_, .atom returns, .atom name, .list params, body] =>
    (params.foldlM (Param.extend name) []).map fun params =>
      ⟨name, TypeTag.ofName returns, params, body⟩
  | _ => .error (.malformed .method)

namespace ClassBody

def addField (b : ClassBody) (f : Field) : Except Error ClassBody :=
  if b.fields.any fun g => g.name == f.name then .error (.duplicateField b.name f.name)
  else .ok { b with fields := b.fields ++ [f] }

/-- Two methods of one name differ in the types of their parameters. -/
def addMethod (b : ClassBody) (m : Method) : Except Error ClassBody :=
  if (b.methodsNamed m.name).any fun n => n.signature == m.signature then
    .error (.duplicateMethod b.name m.name)
  else .ok { b with methods := b.methods ++ [m] }

def add (b : ClassBody) (f : Form) : Except Error ClassBody :=
  match f.head? with
  | some "field" => (Field.ofForm b.name f).bind b.addField
  | some "method" => (Method.ofForm f).bind b.addMethod
  | _ => .error (.unknownForm f.render)

def ofForms (name : String) (decls : List Form) : Except Error ClassBody :=
  decls.foldlM add ⟨name, [], []⟩

end ClassBody

end ObjectLang
