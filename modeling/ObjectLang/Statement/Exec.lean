import ObjectLang.Expression.Eval
import ObjectLang.Statement
import ObjectLang.Text

/-!
One step of the execution of statements. Expressions inside a statement are evaluated by `eval` and
statements inside it run by `exec`. The marker of a raised exception ends a statement wherever it
appears, before anything else is evaluated, printed, read or assigned. The evaluator ties the steps
of expressions and statements into one recursion that the fuel bounds.
-/

namespace ObjectLang

namespace Eval

def withValue (eval : Form → Eval Operand) (f : Form) (k : Value → Eval Completion) :
    Eval Completion := do
  match (← eval f).value with
  | .exception => return .raised
  | v => k v

def block (exec : Form → Eval Completion) : List Form → Eval Completion
  | [] => return .normal
  | f :: fs => do
    match ← exec f with
    | .normal => block exec fs
    | done => return done

def printed : Value → Except Error String
  | .object v => .error (.unprintable (.ofClass v.cls.name))
  | .void => .error (.unprintable .void)
  | v => .ok v.render

def printLine (eval : Form → Eval Operand) (line : String) : List Form → Eval Completion
  | [] => do
    println line
    return .normal
  | f :: fs => withValue eval f fun v => do printLine eval (line ++ (← ofExcept (printed v))) fs

def condition (eval : Form → Eval Operand) (form : Conditional) (f : Form) :
    Eval (Option Bool) := do
  match (← eval f).value with
  | .bool b => return some b
  | .exception => return none
  | v => fail (.conditionMismatch form v.runtimeType)

def branch (eval : Form → Eval Operand) (exec : Form → Eval Completion)
    (test consequent : Form) (alternative : Option Form) : Eval Completion := do
  match ← condition eval .branch test with
  | none => return .raised
  | some true => exec consequent
  | some false =>
    match alternative with
    | some f => exec f
    | none => return .normal

def loop (eval : Form → Eval Operand) (exec : Form → Eval Completion) (test body : Form) :
    Nat → Eval Completion
  | 0 => throw .outOfFuel
  | fuel + 1 => do
    match ← condition eval .loop test with
    | none => return .raised
    | some false => return .normal
    | some true =>
      match ← exec body with
      | .normal => loop eval exec test body fuel
      | done => return done

def initial (eval : Form → Eval Operand) (l : Local) : Eval (Option Variable) := do
  building (Registry.resolveType l.type)
  match l.init with
  | none => return some (.zeroed l.type)
  | some f =>
    match (← eval f).value with
    | .exception => return none
    | v => return some (← ofExcept (Variable.create l.type v))

/-- The frame of the declared locals, after those already in it, or none if an initial value
raises. Initial values do not see the locals declared beside them. -/
def locals (eval : Form → Eval Operand) (frame : Frame) : List Form → Eval (Option Frame)
  | [] => return some frame
  | f :: fs => do
    let l ← ofExcept (Local.ofForm f)
    match ← initial eval l with
    | none => return none
    | some x =>
      match frame.define? l.name x with
      | some frame => locals eval frame fs
      | none => fail (.duplicateLocal l.name)

def letBlock (eval : Form → Eval Operand) (exec : Form → Eval Completion) (decls body : List Form) :
    Eval Completion := do
  match ← locals eval (.empty .locals) decls with
  | none => return .raised
  | some frame => inScope (← alloc frame) (block exec body)

def received (line : String) : InputKind → Except Error Value
  | .string => .ok (.string line)
  | .integer =>
    match Decimal.word? (Text.trim line.toList) with
    | some n => .ok (.int n)
    | none => .error (.inputNotInteger line)

def input (kind : InputKind) (name : String) : Eval Completion := do
  checkVisible name
  assign name (← ofExcept (received (← readLine) kind))
  return .normal

def tagNull (t : TypeTag) : Value → Value
  | .null none => .null (some t)
  | v => v

def result (eval : Form → Eval Operand) (value : Option Form) : Eval Completion := do
  let declared := (← activation .resultOutside).method.returns
  match value with
  | none => return .returned (Value.zero declared |> tagNull declared)
  | some f => withValue eval f fun v => return .returned (tagNull declared v)

def messageIn (frame : FrameId) : Eval Value := do
  match (← get).store.get? frame exceptionName with
  | some x => return x.value
  | none => return .string ""

/-- Runs the body, and the handler if the body raises. When the handler raises in turn, its message
moves to the enclosing frame. -/
def attempt (exec : Form → Eval Completion) (body handler : Form) : Eval Completion := do
  let frame ← alloc .forException
  let done ← inTry frame do
    match ← exec body with
    | .raised => inHandler (exec handler)
    | done => return done
  match done with
  | .raised =>
    raise (← messageIn frame)
    return .raised
  | done => return done

def statement (fuel : Nat) (eval : Form → Eval Operand) (exec : Form → Eval Completion) :
    Statement → Eval Completion
  | .print operands => printLine eval "" operands
  | .assign name value => do
    checkVisible name
    withValue eval value fun v => do
      assign name v
      return .normal
  | .block body => block exec body
  | .branch test consequent alternative => branch eval exec test consequent alternative
  | .loop test body => loop eval exec test body fuel
  | .bind decls body => letBlock eval exec decls body
  | .input kind name => input kind name
  | .result value => result eval value
  | .attempt body handler => attempt exec body handler
  | .throw message => withValue eval message fun v => do
    raise v
    return .raised
  | .expression f => withValue eval f fun _ => return .normal
  | .invalid e => fail e

end Eval

mutual

def eval : Nat → Form → Eval Operand
  | 0, _ => throw .outOfFuel
  | fuel + 1, f => Eval.expression (eval fuel) (exec fuel) (Expression.ofForm f)

def exec : Nat → Form → Eval Completion
  | 0, _ => throw .outOfFuel
  | fuel + 1, f => Eval.statement fuel (eval fuel) (exec fuel) (Statement.ofForm f)

end

end ObjectLang
