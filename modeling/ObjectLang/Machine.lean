import ObjectLang.Channel
import ObjectLang.Registry.Load
import ObjectLang.Store

/-!
The state of a run, and the computations on it.
-/

namespace ObjectLang

/-- A running method and the view of its receiver at the level that declares it. -/
structure Activation where
  receiver : View
  method : Method

structure Control where
  scopes : Scopes
  activation : Option Activation
  /-- The frame that takes the message of an exception raised now. -/
  ambient : FrameId
  /-- Whether code of an exception handler is running, which may read the message. -/
  handling : Bool
  /-- The number of method calls under way. -/
  depth : Nat

structure Machine where
  control : Control
  store : Store
  registry : Registry
  sink : Sink
  source : Source
  limit : Option Nat

abbrev Eval := EStateM Stop Machine

namespace Control

def start : Control := ⟨[], none, 0, false, 0⟩

def enterScope (frame : FrameId) (c : Control) : Control := { c with scopes := frame :: c.scopes }

def leaveScope (c : Control) : Control := { c with scopes := c.scopes.tail }

def enterTry (frame : FrameId) (c : Control) : Control :=
  { c with scopes := frame :: c.scopes, ambient := frame }

def leaveTry (outer : FrameId) (c : Control) : Control :=
  { c with scopes := c.scopes.tail, ambient := outer }

/-- A method sees the fields of its receiver, the ambient exception and its arguments. -/
def enterCall (receiver : View) (method : Method) (arguments : FrameId) (c : Control) : Control :=
  { c with
    scopes := [arguments, c.ambient, receiver.frame]
    activation := some ⟨receiver, method⟩
    handling := false
    depth := c.depth + 1 }

def leaveCall (caller c : Control) : Control :=
  { c with
    scopes := caller.scopes
    activation := caller.activation
    handling := caller.handling
    depth := c.depth - 1 }

end Control

namespace Eval

def fail (e : Error) : Eval α := throw (.failed e)

def ofExcept : Except Error α → Eval α
  | .ok a => pure a
  | .error e => fail e

/-- Runs `x` under a changed control, and undoes the change however `x` ends. -/
def bracket (enter : Control → Control) (leave : Control → Control → Control) (x : Eval α) :
    Eval α := fun m =>
  let outer := m.control
  match x { m with control := enter outer } with
  | .ok a m => .ok a { m with control := leave outer m.control }
  | .error e m => .error e { m with control := leave outer m.control }

def inScope (frame : FrameId) (x : Eval α) : Eval α :=
  bracket (Control.enterScope frame) (fun _ => Control.leaveScope) x

def inTry (frame : FrameId) (x : Eval α) : Eval α :=
  bracket (Control.enterTry frame) (fun outer => Control.leaveTry outer.ambient) x

def inHandler (x : Eval α) : Eval α :=
  bracket (fun c => { c with handling := true })
    (fun outer c => { c with handling := outer.handling }) x

def inCall (receiver : View) (method : Method) (arguments : FrameId) (x : Eval α) : Eval α :=
  bracket (Control.enterCall receiver method arguments) Control.leaveCall x

def alloc (f : Frame) : Eval FrameId := do
  let id := (← get).store.next
  modify fun m => { m with store := m.store.push f }
  return id

/-- Runs a computation on the registry, which keeps what it registers also when it fails. -/
def building (b : Build α) : Eval α := fun m =>
  match b m.registry with
  | .ok a r => .ok a { m with registry := r }
  | .error e r => .error e { m with registry := r }

def create (c : Class) : Eval View := do
  let frames ← ofExcept c.fieldFrames
  let base := (← get).store.next
  modify fun m => { m with store := m.store.pushAll frames }
  return ⟨base, c, []⟩

def println (line : String) : Eval Unit := modify fun m => { m with sink := m.sink.println line }

def readLine : Eval String := do
  let (line, source) := (← get).source.readLine
  modify fun m => { m with source }
  return line.getD ""

/-- The message variable may be named by handlers only. -/
def checkAccess (name : String) : Eval Unit := do
  if name == exceptionName && !(← get).control.handling then fail .exceptionOutsideHandler

def lookup (name : String) : Eval Variable := do
  checkAccess name
  let m ← get
  match m.store.lookup m.control.scopes name with
  | some x => return x
  | none => fail (.undefinedVariable name)

def checkVisible (name : String) : Eval Unit := do
  checkAccess name
  let m ← get
  if !m.store.contains m.control.scopes name then fail (.undefinedVariable name)

def assign (name : String) (v : Value) : Eval Unit := do
  let m ← get
  match m.store.assignment name v m.control.scopes with
  | .ok (id, x) => modify fun m => { m with store := m.store.set id name x }
  | .error .undefined => fail (.undefinedVariable name)
  | .error (.rejected e) => fail e

/-- Writes a message to the nearest variable for it, or else to that of the ambient frame. -/
def raise (message : Value) : Eval Unit := do
  let m ← get
  if m.store.contains m.control.scopes exceptionName then assign exceptionName message
  else
    match m.store.get? m.control.ambient exceptionName with
    | none => pure ()
    | some x =>
      let y ← ofExcept (x.assign message)
      modify fun m => { m with store := m.store.set m.control.ambient exceptionName y }

end Eval

end ObjectLang
