import ObjectLang.Machine
import ObjectLang.Overload

/-!
Method calls: the choice of the method, the binding of its arguments, the run of its body and the
check of what it returns.
-/

namespace ObjectLang

inductive Completion where
  | normal
  | returned (v : Value)
  | raised

def bindArguments : List Param → List Value → Except Error (List (String × Variable))
  | p :: ps, v :: vs =>
    (Variable.create p.type v).bind fun x =>
      (bindArguments ps vs).map fun bindings => (p.name, x) :: bindings
  | _, _ => .ok []

/-- A method that declares this type may return the value: a null needs a tag that the class
accepts, or none. -/
def Registry.returnable (r : Registry) (declared : TypeTag) : Value → Bool
  | .null tag =>
    declared.isClass && match tag with
      | some t => r.classAccepts declared t
      | none => true
  | .object v => v.isInstanceOf declared
  | v => v.runtimeType == declared

def Registry.checkReturn (r : Registry) (m : Method) (v : Value) : Except Error Value :=
  if r.returnable m.returns v then .ok (v.retag m.returns)
  else .error (.returnMismatch m.name m.returns (v.nullTag?.getD v.runtimeType))

/-- The value that a finished body gives to the caller. A body that returns nothing gives the
zero of the declared type, and an exception passes unchecked. -/
def Registry.returnValue (r : Registry) (m : Method) : Completion → Except Error Value
  | .raised => .ok .exception
  | .normal | .returned .void => r.checkReturn m (Value.zero m.returns)
  | .returned v => r.checkReturn m v

def Machine.atLimit? (m : Machine) : Option Nat :=
  m.limit.filter fun limit => limit ≤ m.control.depth

namespace Eval

def checkDepth : Eval Unit := do
  match (← get).atLimit? with
  | some limit => fail (.callDepthExceeded limit)
  | none => pure ()

def callMethod (exec : Form → Eval Completion) (receiver : View) (name : String)
    (arguments : List Value) : Eval Value := do
  let types := arguments.map Value.runtimeType
  match (← get).registry.selectMethod? receiver name types with
  | none => fail (.noMatchingMethod name receiver.cls.name types)
  | some (view, method) =>
    checkDepth
    let bindings ← ofExcept (bindArguments method.params arguments)
    let frame ← alloc ⟨.arguments, bindings⟩
    let done ← inCall view method frame (exec method.body)
    ofExcept ((← get).registry.returnValue method done)

end Eval

end ObjectLang
