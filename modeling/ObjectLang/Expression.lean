import ObjectLang.Error
import ObjectLang.Form
import ObjectLang.Literal

/-!
Expressions: the shapes of forms that stand for values. A shape says what is to be evaluated and
leaves the forms inside it as they are.
-/

namespace ObjectLang

/-- Whom a method is called on: the running receiver as an instance of its superclass, or the value
of a form. -/
inductive Target where
  | super
  | value (form : Form)

inductive Expression where
  | literal (l : Literal)
  | self
  | name (token : String)
  | call (target : Target) (method : String) (arguments : List Form)
  | create (cls : String)
  | negation (operand : Form)
  | binary (op : Operator) (left right : Form)
  | invalid (error : Error)

namespace Expression

def ofToken (token : String) : Expression :=
  match Literal.ofToken? token with
  | some l => literal l
  | none => if token == "me" then self else name token

def targetOf (f : Form) : Target := if f.isAtom "super" then .super else .value f

def ofList (head : String) (operands : List Form) : Expression :=
  if head == "call" then
    match operands with
    | target :: .atom method :: arguments => call (targetOf target) method arguments
    | _ => invalid (.malformed .call)
  else if head == "new" then
    match operands with
    | [.atom cls] => create cls
    | _ => invalid (.malformed .creation)
  else if head == "!" then
    match operands with
    | [operand] => negation operand
    | _ => invalid (.malformed .negation)
  else
    match Operator.ofSymbol? head with
    | some op =>
      match operands with
      | [left, right] => binary op left right
      | _ => invalid (.malformed (.operands op))
    | none => invalid (.unknownForm head)

def ofForm : Form → Expression
  | .atom token => ofToken token
  | .list (.atom head :: operands) => ofList head operands
  | .list _ => invalid (.malformed .expression)

end Expression

end ObjectLang
