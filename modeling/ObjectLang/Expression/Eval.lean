import ObjectLang.Call
import ObjectLang.Expression
import ObjectLang.Operator.Apply

/-!
One step of the evaluation of expressions. Forms inside an expression are evaluated by `eval` and
the bodies of methods are run by `exec`; an operand that is the marker of a raised exception ends
the expression at once with the marker.
-/

namespace ObjectLang

/-- A value and the declared type of the variable it was read from. A null's tag takes the place of
that type. -/
structure Operand where
  value : Value
  declared : TypeTag

namespace Operand

def typed (v : Value) (declared : TypeTag) : Operand := ⟨v, v.nullTag?.getD declared⟩

def temporary (v : Value) : Operand := typed v .untyped

end Operand

def Value.isInstanceOf (v : Value) (t : TypeTag) : Bool :=
  match v with
  | .object w => w.isInstanceOf t
  | _ => false

/-- Two references may be compared: nulls if one's declared class accepts the other's declared type,
others if their types agree or one is an instance of the other's declared type. -/
def Registry.comparable (r : Registry) (a b : Operand) : Bool :=
  match a.value, b.value with
  | .null _, .null _ => r.classAccepts a.declared b.declared || r.classAccepts b.declared a.declared
  | v, w =>
    v.runtimeType == w.runtimeType || v.isInstanceOf b.declared || w.isInstanceOf a.declared

def Registry.compare (r : Registry) (op : Operator) (a b : Operand) : Except Error Value :=
  if r.comparable a b then
    let same := a.value.same b.value
    .ok (.bool (if op = .eq then same else !same))
  else .error (.operandMismatch op a.declared b.declared)

def Registry.operate (r : Registry) (op : Operator) (a b : Operand) : Except Error Value :=
  if !a.value.isReference && !b.value.isReference then op.apply a.value b.value
  else if a.value.isReference && b.value.isReference && op.isEquality then r.compare op a b
  else op.mismatch a.value b.value

namespace Eval

def activation (shape : Shape) : Eval Activation := do
  match (← get).control.activation with
  | some a => return a
  | none => fail (.malformed shape)

def self : Eval View := do return (← activation .selfOutside).receiver.mostDerived

def superView : Eval View := do
  let receiver := (← activation .superOutside).receiver
  match receiver.parent? with
  | some v => return v
  | none => fail (.noSuperclass receiver.cls.name)

/-- The values of the arguments from left to right, or none if one of them raises. -/
def arguments (eval : Form → Eval Operand) : List Form → Eval (Option (List Value))
  | [] => return some []
  | f :: fs => do
    match (← eval f).value with
    | .exception => return none
    | v => return (← arguments eval fs).map (v :: ·)

def callWith (eval : Form → Eval Operand) (exec : Form → Eval Completion) (receiver : View)
    (method : String) (args : List Form) : Eval Value := do
  match ← arguments eval args with
  | some vs => callMethod exec receiver method vs
  | none => return .exception

def call (eval : Form → Eval Operand) (exec : Form → Eval Completion) (target : Target)
    (method : String) (args : List Form) : Eval Value := do
  match target with
  | .super => callWith eval exec (← superView) method args
  | .value f =>
    match (← eval f).value with
    | .object v => callWith eval exec v method args
    | .exception => return .exception
    | .null _ | .void => fail (.nullReceiver method)
    | v => fail (.receiverNotObject v.runtimeType)

def binary (eval : Form → Eval Operand) (op : Operator) (left right : Form) : Eval Value := do
  let a ← eval left
  if a.value.isException then return .exception
  let b ← eval right
  if b.value.isException then return .exception
  ofExcept ((← get).registry.operate op a b)

def negation (eval : Form → Eval Operand) (operand : Form) : Eval Value := do
  let v := (← eval operand).value
  if v.isException then return .exception
  ofExcept (Operator.negate v)

def newObject (cls : String) : Eval Value := do
  return .object (← create (← building (Registry.resolve cls)))

def expression (eval : Form → Eval Operand) (exec : Form → Eval Completion) :
    Expression → Eval Operand
  | .literal l => return .temporary (.ofLiteral l)
  | .self => do
    let v ← self
    return .typed (.object v) (.ofClass v.cls.name)
  | .name token => do
    let x ← lookup token
    return .typed x.value x.declared
  | .call target method args => return .temporary (← call eval exec target method args)
  | .create cls => return .temporary (← newObject cls)
  | .negation operand => return .temporary (← negation eval operand)
  | .binary op left right => return .temporary (← binary eval op left right)
  | .invalid e => fail e

end Eval

end ObjectLang
