import ObjectLang.Error
import ObjectLang.Form

/-!
Statements: the shapes of forms that are executed. Every form that is no other statement is an
expression statement.
-/

namespace ObjectLang

inductive InputKind where
  | integer | string

structure Local where
  type : TypeTag
  name : String
  init : Option Form

inductive Statement where
  | print (operands : List Form)
  | assign (name : String) (value : Form)
  | block (body : List Form)
  | branch (condition consequent : Form) (alternative : Option Form)
  | loop (condition body : Form)
  | bind (locals body : List Form)
  | input (kind : InputKind) (name : String)
  | result (value : Option Form)
  | attempt (body handler : Form)
  | throw (message : Form)
  | expression (form : Form)
  | invalid (error : Error)

def InputKind.shape : InputKind → Shape
  | integer => .integerInput
  | string => .stringInput

def Local.ofForm : Form → Except Error Local
  | .list [.atom type, .atom name] => .ok ⟨TypeTag.ofName type, name, none⟩
  | .list [.atom type, .atom name, init] => .ok ⟨TypeTag.ofName type, name, some init⟩
  | _ => .error (.malformed .locals)

namespace Statement

def ofAssignment : List Form → Statement
  | [.atom name, value] => assign name value
  | [_, _] => invalid (.malformed .assignmentTarget)
  | _ => invalid (.malformed .assignment)

def ofBranch : List Form → Statement
  | [condition, consequent] => branch condition consequent none
  | [condition, consequent, alternative] => branch condition consequent (some alternative)
  | _ => invalid (.malformed .branch)

def ofLoop : List Form → Statement
  | [condition, body] => loop condition body
  | _ => invalid (.malformed .loop)

def ofLet : List Form → Statement
  | .list locals :: body => bind locals body
  | _ => invalid (.malformed .locals)

def ofInput (kind : InputKind) : List Form → Statement
  | [.atom name] => input kind name
  | _ => invalid (.malformed kind.shape)

def ofReturn : List Form → Statement
  | [] => result none
  | [value] => result (some value)
  | _ => invalid (.malformed .result)

def ofTry : List Form → Statement
  | [body, handler] => attempt body handler
  | _ => invalid (.malformed .handler)

/-- The receiver itself is never a message. -/
def ofThrow : List Form → Statement
  | [message] => if message.isAtom "me" then invalid .selfThrown else throw message
  | _ => invalid (.malformed .throw)

def ofForm (f : Form) : Statement :=
  match f with
  | .list (.atom "print" :: operands) => print operands
  | .list (.atom "set" :: operands) => ofAssignment operands
  | .list (.atom "begin" :: body) => block body
  | .list (.atom "if" :: operands) => ofBranch operands
  | .list (.atom "while" :: operands) => ofLoop operands
  | .list (.atom "let" :: operands) => ofLet operands
  | .list (.atom "inputi" :: operands) => ofInput .integer operands
  | .list (.atom "inputs" :: operands) => ofInput .string operands
  | .list (.atom "return" :: operands) => ofReturn operands
  | .list (.atom "try" :: operands) => ofTry operands
  | .list (.atom "throw" :: operands) => ofThrow operands
  | f => expression f

end Statement

end ObjectLang
