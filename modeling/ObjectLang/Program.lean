import ObjectLang.Statement.Exec
import ObjectLang.Form.Reader

/-!
Programs: from text or forms to a registry, and from a registry to runs of the method `main` of a
fresh object of the class `main`.
-/

namespace ObjectLang

inductive Mode where
  | interpret | test
  deriving DecidableEq

namespace Mode

def standard : Mode := interpret

def usesStandardChannels (m : Mode) : Bool := m == interpret

def limit : Mode → Option Nat
  | interpret => none
  | test => some 500

def limitOr (m : Mode) (asked : Option Nat) : Option Nat := asked.or m.limit

def sink : Mode → Sink
  | interpret => .console ""
  | test => .buffer ""

end Mode

inductive LoadError where
  | unreadable (error : ReadError)
  | stopped (reason : Stop)

inductive Outcome where
  | completed
  | uncaught (message : String)
  deriving DecidableEq

namespace Program

def ofSource (source : String) : Except LoadError Registry :=
  match Form.parse source with
  | .error e => .error (.unreadable e)
  | .ok forms =>
    match Registry.load forms with
    | .error reason => .error (.stopped reason)
    | .ok r => .ok r

end Program

namespace Machine

/-- A machine that has not run yet. Its first frame takes the message of an uncaught exception. -/
def start (r : Registry) (sink : Sink) (source : Source) (limit : Option Nat) : Machine :=
  ⟨.start, Store.empty.push .forException, r, sink, source, limit⟩

end Machine

namespace Eval

def ambientMessage : Eval String := do
  match (← get).store.get? (← get).control.ambient exceptionName with
  | some ⟨_, .string message⟩ => return message
  | _ => return ""

/-- Runs the program once. The machine can be run again afterwards, however the run ends. -/
def run (fuel : Nat) : Eval Outcome := do
  let main ← create (← building (Registry.resolve "main"))
  match ← callMethod (exec fuel) main "main" [] with
  | .exception => return .uncaught (← ambientMessage)
  | _ => return .completed

end Eval

end ObjectLang
