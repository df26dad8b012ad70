import Mathlib.Logic.Relation
import ObjectLang.Proofs.Control

/-!
Tasks: the evaluations, executions and calls that a run is made of, each started with some fuel on
some machine. One task waits for another when its own code starts the other and goes on with its
outcome; a `try` also starts its body and its handler, whose exceptions it deals with.
-/

namespace ObjectLang

inductive Work where
  | eval (f : Form)
  | exec (f : Form)
  | call (receiver : View) (name : String) (arguments : List Value)

structure Task where
  fuel : Nat
  work : Work
  machine : Machine

/-- The evaluation gives the marker of a raised exception and leaves the machine `s`. -/
def Marks (x : Eval Operand) (m s : Machine) : Prop := ∃ a, x m = .ok a s ∧ a.value = .exception

namespace Task

def final (t : Task) : Machine :=
  match t.work with
  | .eval f => after (eval t.fuel f) t.machine
  | .exec f => after (exec t.fuel f) t.machine
  | .call receiver name vs => after (Eval.callMethod (exec t.fuel) receiver name vs) t.machine

def RaisesIn (t : Task) (s : Machine) : Prop :=
  match t.work with
  | .eval f => Marks (eval t.fuel f) t.machine s
  | .exec f => exec t.fuel f t.machine = .ok .raised s
  | .call receiver name vs =>
    Eval.callMethod (exec t.fuel) receiver name vs t.machine = .ok .exception s

end Task

namespace Machine

def enterLet (frame : Frame) (m : Machine) : Machine :=
  { m with store := m.store.push frame, control := m.control.enterScope m.store.next }

def enterTry (m : Machine) : Machine :=
  { m with store := m.store.push .forException, control := m.control.enterTry m.store.next }

def enterHandler (m : Machine) : Machine := { m with control.handling := true }

def enterCall (view : View) (method : Method) (bindings : List (String × Variable)) (m : Machine) :
    Machine :=
  { m with
    store := m.store.push ⟨.arguments, bindings⟩
    control := m.control.enterCall view method m.store.next }

end Machine

def Target.Gives (fuel : Nat) (m s : Machine) (v : View) : Target → Prop
  | .super => Eval.superView m = .ok v s
  | .value f => ∃ a, eval fuel f m = .ok a s ∧ a.value = .object v

inductive Rounds (fuel : Nat) (test body : Form) : Nat → Machine → Machine → Prop
  | none (m : Machine) : Rounds fuel test body 0 m m
  | more {k : Nat} {m m₁ m₂ m₃ : Machine}
      (htest : Eval.condition (eval fuel) .loop test m = .ok (some true) m₁)
      (hbody : exec fuel body m₁ = .ok .normal m₂)
      (h : Rounds fuel test body k m₂ m₃) : Rounds fuel test body (k + 1) m m₃

/-- The first task starts the second and goes on with its outcome. What comes before the second has
been done, without an exception; the rest has not. -/
inductive Awaits : Task → Task → Prop
  | receiver (hf : Expression.ofForm f = .call (.value g) name args) :
      Awaits ⟨n + 1, .eval f, m⟩ ⟨n, .eval g, m⟩
  | argument (hf : Expression.ofForm f = .call target name (before ++ g :: rest))
      (hv : target.Gives n m m₁ v) (hvs : Eval.arguments (eval n) before m₁ = .ok (some vs) m₂) :
      Awaits ⟨n + 1, .eval f, m⟩ ⟨n, .eval g, m₂⟩
  | invocation (hf : Expression.ofForm f = .call target name args)
      (hv : target.Gives n m m₁ v) (hvs : Eval.arguments (eval n) args m₁ = .ok (some vs) m₂) :
      Awaits ⟨n + 1, .eval f, m⟩ ⟨n, .call v name vs, m₂⟩
  | operand (hf : Expression.ofForm f = .negation g) : Awaits ⟨n + 1, .eval f, m⟩ ⟨n, .eval g, m⟩
  | left (hf : Expression.ofForm f = .binary op g right) :
      Awaits ⟨n + 1, .eval f, m⟩ ⟨n, .eval g, m⟩
  | right (hf : Expression.ofForm f = .binary op left g) (ha : eval n left m = .ok a m₁)
      (hx : a.value.isException = false) : Awaits ⟨n + 1, .eval f, m⟩ ⟨n, .eval g, m₁⟩
  | body (hs : m.registry.selectMethod? receiver name (vs.map Value.runtimeType) =
        some (view, method))
      (hl : m.atLimit? = none) (hb : bindArguments method.params vs = .ok bindings) :
      Awaits ⟨n, .call receiver name vs, m⟩ ⟨n, .exec method.body, m.enterCall view method bindings⟩
  | printed (hf : Statement.ofForm f = .print (before ++ g :: rest))
      (hvs : Eval.arguments (eval n) before m = .ok (some vs) m₁)
      (hp : ∀ v ∈ vs, ∃ text, Eval.printed v = .ok text) :
      Awaits ⟨n + 1, .exec f, m⟩ ⟨n, .eval g, m₁⟩
  | assigned (hf : Statement.ofForm f = .assign name g)
      (hv : Eval.checkVisible name m = .ok () m) : Awaits ⟨n + 1, .exec f, m⟩ ⟨n, .eval g, m⟩
  | inBlock (hf : Statement.ofForm f = .block (before ++ g :: rest))
      (hb : Eval.block (exec n) before m = .ok .normal m₁) :
      Awaits ⟨n + 1, .exec f, m⟩ ⟨n, .exec g, m₁⟩
  | test (hf : Statement.ofForm f = .branch g consequent alternative) :
      Awaits ⟨n + 1, .exec f, m⟩ ⟨n, .eval g, m⟩
  | consequent (hf : Statement.ofForm f = .branch test g alternative)
      (hc : Eval.condition (eval n) .branch test m = .ok (some true) m₁) :
      Awaits ⟨n + 1, .exec f, m⟩ ⟨n, .exec g, m₁⟩
  | alternative (hf : Statement.ofForm f = .branch test consequent (some g))
      (hc : Eval.condition (eval n) .branch test m = .ok (some false) m₁) :
      Awaits ⟨n + 1, .exec f, m⟩ ⟨n, .exec g, m₁⟩
  | loopTest (hf : Statement.ofForm f = .loop g body) (hr : Rounds n g body k m m₁) (hk : k < n) :
      Awaits ⟨n + 1, .exec f, m⟩ ⟨n, .eval g, m₁⟩
  | loopBody (hf : Statement.ofForm f = .loop test g) (hr : Rounds n test g k m m₁) (hk : k < n)
      (hc : Eval.condition (eval n) .loop test m₁ = .ok (some true) m₂) :
      Awaits ⟨n + 1, .exec f, m⟩ ⟨n, .exec g, m₂⟩
  | initializer (hf : Statement.ofForm f = .bind (before ++ d :: rest) body)
      (hb : Eval.locals (eval n) (.empty .locals) before m = .ok (some frame) m₁)
      (hd : Local.ofForm d = .ok l) (hi : l.init = some g)
      (ht : Eval.building (Registry.resolveType l.type) m₁ = .ok () m₂) :
      Awaits ⟨n + 1, .exec f, m⟩ ⟨n, .eval g, m₂⟩
  | inLet (hf : Statement.ofForm f = .bind decls (before ++ g :: rest))
      (hd : Eval.locals (eval n) (.empty .locals) decls m = .ok (some frame) m₁)
      (hb : Eval.block (exec n) before (m₁.enterLet frame) = .ok .normal m₂) :
      Awaits ⟨n + 1, .exec f, m⟩ ⟨n, .exec g, m₂⟩
  | result (hf : Statement.ofForm f = .result (some g)) (ha : m.control.activation = some a) :
      Awaits ⟨n + 1, .exec f, m⟩ ⟨n, .eval g, m⟩
  | message (hf : Statement.ofForm f = .throw g) : Awaits ⟨n + 1, .exec f, m⟩ ⟨n, .eval g, m⟩
  | expression (hf : Statement.ofForm f = .expression g) :
      Awaits ⟨n + 1, .exec f, m⟩ ⟨n, .eval g, m⟩

inductive Guards : Task → Task → Prop
  | body (hf : Statement.ofForm f = .attempt g handler) :
      Guards ⟨n + 1, .exec f, m⟩ ⟨n, .exec g, m.enterTry⟩

inductive Handles : Task → Task → Prop
  | handler (hf : Statement.ofForm f = .attempt body g)
      (hb : exec n body m.enterTry = .ok .raised m₁) :
      Handles ⟨n + 1, .exec f, m⟩ ⟨n, .exec g, m₁.enterHandler⟩

inductive Starts (t u : Task) : Prop
  | awaits (h : Awaits t u)
  | guards (h : Guards t u)
  | handles (h : Handles t u)

def Reaches : Task → Task → Prop := Relation.ReflTransGen Starts

/- A program whose exception leaves a handler, a call, an operator and a line of output. -/

namespace Sample

def fail : Form :=
  .list [.atom "try", .list [.atom "throw", .atom "\"a\""],
    .list [.atom "throw", .list [.atom "+", .atom "exception", .atom "why"]]]

def call : Form := .list [.atom "call", .atom "me", .atom "fail", .atom "\"b\""]

def sum : Form := .list [.atom "+", .atom "1", call]

def print : Form := .list [.atom "print", .atom "\"x\"", sum]

def body : Form := .list [.atom "try", print, .list [.atom "throw", .atom "exception"]]

def failing : Method := ⟨"fail", .int, [⟨"why", .string⟩], fail⟩

def running : Method := ⟨"main", .void, [], body⟩

def nothing : Method :=
  ⟨"nothing", .ofClass "main", [], .list [.atom "return", .atom "null"]⟩

def cls : Class :=
  ⟨⟨"main", [⟨"next", .ofClass "main", none⟩], [failing, running, nothing]⟩, []⟩

def forms : List Form :=
  [.list [.atom "class", .atom "main",
    .list [.atom "field", .atom "main", .atom "next"],
    .list [.atom "method", .atom "int", .atom "fail", .list [.list [.atom "string", .atom "why"]],
      fail],
    .list [.atom "method", .atom "void", .atom "main", .list [], body],
    .list [.atom "method", .atom "main", .atom "nothing", .list [], nothing.body]]]

def start : Machine := Machine.start ⟨[cls], []⟩ (.buffer "") (.queue []) none

def entered : Machine := (after (Eval.create cls) start).enterCall ⟨1, cls, []⟩ running []

def failed : Machine :=
  entered.enterTry.enterCall ⟨1, cls, []⟩ failing [("why", ⟨.string, .string "b"⟩)]

end Sample

theorem exists_raised {x : EStateM.Result Stop Machine Completion}
    (h : (x matches .ok .raised _) = true) : ∃ s, x = .ok .raised s := by
  cases x with
  | ok done s =>
    cases done with
    | raised => exact ⟨s, rfl⟩
    | normal => cases h
    | returned v => cases h
  | error e s => cases h

end ObjectLang
