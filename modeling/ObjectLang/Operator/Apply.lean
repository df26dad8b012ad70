import ObjectLang.Text
import ObjectLang.Value
import ObjectLang.Error

/-!
The operators on values that are not references. Integer results are exact or fail: division rounds
down and the remainder takes the sign of the divisor.
-/

namespace ObjectLang

namespace Integer

def exact (operation : Arithmetic) (z : Int) : Except Error Int64 :=
  match ofInt? z with
  | some n => .ok n
  | none => .error (.overflow operation)

def add (a b : Int64) : Except Error Int64 := exact .addition (a.toInt + b.toInt)
def sub (a b : Int64) : Except Error Int64 := exact .subtraction (a.toInt - b.toInt)
def mul (a b : Int64) : Except Error Int64 := exact .multiplication (a.toInt * b.toInt)

def signsDiffer (a b : Int64) : Bool := decide (a < 0) != decide (b < 0)

/-- The truncated quotient, less one where truncating rounds up. -/
def div (a b : Int64) : Except Error Int64 :=
  if b = 0 then .error .divisionByZero
  else (exact .division (a.toInt.tdiv b.toInt)).map fun q =>
    if a % b != 0 && signsDiffer a b then q - 1 else q

/-- The remainder of the truncated quotient, moved to the sign of the divisor. It is zero also where
that quotient is no word. -/
def mod (a b : Int64) : Except Error Int64 :=
  if b = 0 then .error .divisionByZero
  else
    let r := a % b
    .ok (if r != 0 && signsDiffer r b then r + b else r)

end Integer

namespace Operator

def mismatch (op : Operator) (a b : Value) : Except Error Value :=
  .error (.operandMismatch op a.runtimeType b.runtimeType)

def onIntegers (op : Operator) (a b : Int64) : Except Error Value :=
  match op with
  | add => (Integer.add a b).map .int
  | sub => (Integer.sub a b).map .int
  | mul => (Integer.mul a b).map .int
  | div => (Integer.div a b).map .int
  | mod => (Integer.mod a b).map .int
  | eq => .ok (.bool (a.toInt == b.toInt))
  | ne => .ok (.bool (a.toInt != b.toInt))
  | lt => .ok (.bool (a.toInt < b.toInt))
  | le => .ok (.bool (a.toInt ≤ b.toInt))
  | gt => .ok (.bool (b.toInt < a.toInt))
  | ge => .ok (.bool (b.toInt ≤ a.toInt))
  | and | or => op.mismatch (.int a) (.int b)

def onStrings (op : Operator) (a b : String) : Except Error Value :=
  match op with
  | add => .ok (.string (a ++ b))
  | eq => .ok (.bool (a == b))
  | ne => .ok (.bool (a != b))
  | lt => .ok (.bool (Text.before a b))
  | le => .ok (.bool (!Text.before b a))
  | gt => .ok (.bool (Text.before b a))
  | ge => .ok (.bool (!Text.before a b))
  | sub | mul | div | mod | and | or => op.mismatch (.string a) (.string b)

def onBools (op : Operator) (a b : Bool) : Except Error Value :=
  match op with
  | and => .ok (.bool (a && b))
  | or => .ok (.bool (a || b))
  | eq => .ok (.bool (a == b))
  | ne => .ok (.bool (a != b))
  | add | sub | mul | div | mod | lt | le | gt | ge => op.mismatch (.bool a) (.bool b)

def apply (op : Operator) : Value → Value → Except Error Value
  | .int a, .int b => op.onIntegers a b
  | .string a, .string b => op.onStrings a b
  | .bool a, .bool b => op.onBools a b
  | a, b => op.mismatch a b

def negate : Value → Except Error Value
  | .bool b => .ok (.bool !b)
  | v => .error (.negationMismatch v.runtimeType)

end Operator

end ObjectLang
