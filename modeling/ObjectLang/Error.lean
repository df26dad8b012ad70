import ObjectLang.Operator
import ObjectLang.Text
import ObjectLang.TypeTag

/-!
Errors that end a run, by cause, with their kinds and wordings. An exception thrown by a program is
not one of them.
-/

namespace ObjectLang

inductive Shape where
  | classDecl | template
  | field | fieldType | method | parameter | parameterType
  | assignment | assignmentTarget | branch | loop | locals
  | integerInput | stringInput | result | handler | throw
  | expression | operands (op : Operator) | negation | creation | call
  /-- The receiver, its superclass view and `return` make sense inside a method only. -/
  | selfOutside | superOutside | resultOutside
  deriving DecidableEq

namespace Shape

def form : Shape → String
  | classDecl => "class"
  | template => "tclass"
  | field | fieldType => "field"
  | method => "method"
  | parameter | parameterType => "parameter"
  | assignment | assignmentTarget => "set"
  | branch => "if"
  | loop => "while"
  | locals => "let"
  | integerInput => "inputi"
  | stringInput => "inputs"
  | result | resultOutside => "return"
  | handler => "try"
  | throw => "throw"
  | expression => "expression"
  | operands op => op.symbol
  | negation => "!"
  | creation => "new"
  | call => "call"
  | selfOutside => "me"
  | superOutside => "super"

def expected : Shape → String
  | classDecl => "(class NAME [inherits PARENT] DECL...)"
  | template => "(tclass NAME (FORMAL...) DECL...)"
  | field => "(field TYPE NAME [LITERAL])"
  | fieldType => "a non-void field type"
  | method => "(method TYPE NAME ((TYPE PARAM)...) STATEMENT)"
  | parameter => "(TYPE NAME)"
  | parameterType => "a non-void parameter type"
  | assignment => "(set NAME EXPR)"
  | assignmentTarget | integerInput | stringInput => "a variable name"
  | branch => "(if COND THEN [ELSE])"
  | loop => "(while COND BODY)"
  | locals => "(let ((TYPE NAME [EXPR])...) STATEMENT...)"
  | result => "(return [EXPR])"
  | handler => "(try STATEMENT STATEMENT)"
  | throw => "(throw EXPR)"
  | expression => "an operator, `call` or `new`"
  | operands _ => "two operands"
  | negation => "one operand"
  | creation => "(new CLASS)"
  | call => "(call RECEIVER METHOD ARG...)"
  | selfOutside | superOutside | resultOutside => "a method body"

end Shape

inductive Arithmetic where
  | addition | subtraction | multiplication | division
  deriving DecidableEq

def Arithmetic.render : Arithmetic → String
  | addition => "addition"
  | subtraction => "subtraction"
  | multiplication => "multiplication"
  | division => "division"

inductive Conditional where
  | branch | loop
  deriving DecidableEq

def Conditional.keyword : Conditional → String
  | branch => "if"
  | loop => "while"

inductive ErrorKind where
  | name | type | fault
  deriving DecidableEq

def ErrorKind.render : ErrorKind → String
  | name => "NameError"
  | type => "TypeError"
  | fault => "FaultError"

inductive Error where
  | undefinedVariable (name : String)
  | exceptionOutsideHandler
  | unknownClass (name : String)
  | noMatchingMethod (method cls : String) (arguments : List TypeTag)
  | duplicateClass (name : String)
  | duplicateField (cls field : String)
  | duplicateMethod (cls method : String)
  | duplicateParameter (method parameter : String)
  | duplicateLocal (name : String)
  | unknownForm (form : String)
  | operandMismatch (op : Operator) (left right : TypeTag)
  | negationMismatch (operand : TypeTag)
  | conditionMismatch (form : Conditional) (got : TypeTag)
  | assignmentMismatch (declared got : TypeTag)
  | returnMismatch (method : String) (declared got : TypeTag)
  | templateArity (template : String) (expected got : Nat)
  | selfThrown
  | unknownParent (cls parent : String)
  | primitiveClassName (name : String)
  | initializerNotLiteral (cls field : String)
  | malformed (shape : Shape)
  | noSuperclass (cls : String)
  | receiverNotObject (got : TypeTag)
  | unprintable (got : TypeTag)
  | inputNotInteger (line : String)
  | nullReceiver (method : String)
  | divisionByZero
  | overflow (operation : Arithmetic)
  | callDepthExceeded (limit : Nat)
  deriving DecidableEq

namespace Error

def kind : Error → ErrorKind
  | undefinedVariable _ | exceptionOutsideHandler | unknownClass _ | noMatchingMethod _ _ _
  | duplicateClass _ | duplicateField _ _ | duplicateMethod _ _ | duplicateParameter _ _
  | duplicateLocal _ | unknownForm _ => .name
  | operandMismatch _ _ _ | negationMismatch _ | conditionMismatch _ _ | assignmentMismatch _ _
  | returnMismatch _ _ _ | templateArity _ _ _ | selfThrown | unknownParent _ _
  | primitiveClassName _ | initializerNotLiteral _ _ | malformed _ | noSuperclass _
  | receiverNotObject _ | unprintable _ | inputNotInteger _ => .type
  | nullReceiver _ | divisionByZero | overflow _ | callDepthExceeded _ => .fault

def message : Error → String
  | undefinedVariable name => s!"undefined variable: {name}"
  | exceptionOutsideHandler => "`exception` can only be read inside a catch block"
  | unknownClass name => s!"unknown class: {name}"
  | noMatchingMethod method cls arguments =>
    let types := String.intercalate ", " (arguments.map TypeTag.render)
    s!"no method '{method}({types})' on class {cls}"
  | duplicateClass name => s!"class {name} is declared more than once"
  | duplicateField cls field => s!"field {field} is declared more than once in {cls}"
  | duplicateMethod cls method =>
    s!"method {method} is declared more than once with the same parameters in {cls}"
  | duplicateParameter method parameter =>
    s!"parameter {parameter} appears twice in method {method}"
  | duplicateLocal name => s!"local {name} is declared twice in one let"
  | unknownForm form => s!"unknown form: {form}"
  | operandMismatch op left right =>
    s!"operator `{op.symbol}` cannot be applied to {left.render} and {right.render}"
  | negationMismatch operand => s!"operator `!` cannot be applied to {operand.render}"
  | conditionMismatch form got => s!"{form.keyword} condition must be bool, got {got.render}"
  | assignmentMismatch declared got =>
    s!"cannot assign {got.render} to a variable of type {declared.render}"
  | returnMismatch method declared got =>
    s!"method {method} must return {declared.render}, got {got.render}"
  | templateArity template expected got =>
    s!"template {template} takes {expected} type arguments, got {got}"
  | selfThrown => "`me` cannot be thrown"
  | unknownParent cls parent => s!"{cls} cannot inherit from unknown class {parent}"
  | primitiveClassName name => s!"{name} is a built-in type and cannot name a class"
  | initializerNotLiteral cls field => s!"field {field} of {cls} must be initialized with a literal"
  | malformed shape => s!"malformed {shape.form}: expected {shape.expected}"
  | noSuperclass cls => s!"{cls} has no superclass"
  | receiverNotObject got => s!"cannot call a method on {got.render}"
  | unprintable got => s!"cannot print a value of type {got.render}"
  | inputNotInteger line => "expected an integer on input, got " ++ Text.quoted line
  | nullReceiver method => s!"called {method} on a null reference"
  | divisionByZero => "division by zero"
  | overflow operation => s!"integer overflow in {operation.render}"
  | callDepthExceeded limit => s!"maximum call depth of {limit} exceeded"

end Error

inductive Stop where
  | failed (error : Error)
  | outOfFuel
  deriving DecidableEq

end ObjectLang
