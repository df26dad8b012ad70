import ObjectLang.Proofs.Shallow

/-!
Properties that pervade the evaluator: those that hold of its operations on the machine and are kept
by sequence and by brackets hold of all that it computes. The traversal of the evaluator is made here
once for all of them.
-/

namespace ObjectLang

/-- What a property has to hold of for the operations that do not change frames or objects.
Computations read what they like of the machine but its channels, which only lines of output and
input are for, and the limit on nested calls. Errors about the calls under way come from the
operation that asks for the running method alone. -/
structure Observes (P : (α : Type) → Eval α → Prop) : Prop where
  pure {α : Type} (a : α) : P α (Pure.pure a)
  fail {α : Type} {e : Error} (h : e.isAboutCalls = false) : P α (Eval.fail e)
  bind {α β : Type} {x : Eval α} {f : α → Eval β} (hx : P α x) (hf : ∀ a, P β (f a)) :
    P β (x >>= f)
  read {α : Type} {k : Machine → Eval α} (hk : ∀ m, P α (k m))
    (hsame : ∀ m sink source limit, k { m with sink, source, limit } = k m) : P α (get >>= k)
  println (line : String) : P Unit (Eval.println line)
  readLine : P String Eval.readLine
  building {α : Type} {b : Build α}
    (h : ∀ r r' e, b r = .error (.failed e) r' → e.isAboutCalls = false) :
    P α (Eval.building b)
  activation (shape : Shape) : P Activation (Eval.activation shape)

structure Operates (P : (α : Type) → Eval α → Prop) : Prop extends Observes P where
  write {g : Machine → Machine} (hcontrol : ∀ m, (g m).control = m.control)
    (hsame : ∀ m sink source limit,
      g { m with sink, source, limit } = { g m with sink, source, limit }) : P Unit (modify g)

/-- What it has to hold of for the whole evaluator, which may also starve, finds the limit on nested
calls reached, and runs code under another control. -/
structure Pervasive (P : (α : Type) → Eval α → Prop) : Prop extends Operates P where
  starve {α : Type} : P α (throw .outOfFuel)
  checkDepth : P Unit Eval.checkDepth
  bracket {α : Type} {enter : Control → Control} {leave : Control → Control → Control}
    {x : Eval α} (hleave : ∀ c, leave c (enter c) = c)
    (hactive : ∀ c, c.activation.isSome → (enter c).activation.isSome) (hx : P α x) :
    P α (Eval.bracket enter leave x)

variable {P : (α : Type) → Eval α → Prop}

namespace Observes

variable (h : Observes P)

include h

theorem ofExcept {α : Type} {r : Except Error α} (hr : Shallow r) : P α (Eval.ofExcept r) := by
  cases r with
  | ok a => exact h.pure a
  | error e => exact h.fail (hr e rfl)

theorem resolve (name : String) : P Class (Eval.building (Registry.resolve name)) :=
  h.building fun _ _ _ => Registry.shallow_resolve

theorem resolveType (t : TypeTag) : P Unit (Eval.building (Registry.resolveType t)) :=
  h.building fun _ _ _ => Registry.shallow_resolveType

theorem checkAccess (name : String) : P Unit (Eval.checkAccess name) := by
  refine h.read (fun m => ?_) fun _ _ _ _ => rfl
  split
  · exact h.fail rfl
  · exact h.pure _

theorem lookup (name : String) : P Variable (Eval.lookup name) := by
  refine h.bind (h.checkAccess name) fun _ => h.read (fun m => ?_) fun _ _ _ _ => rfl
  split
  · exact h.pure _
  · exact h.fail rfl

theorem checkVisible (name : String) : P Unit (Eval.checkVisible name) := by
  refine h.bind (h.checkAccess name) fun _ => h.read (fun m => ?_) fun _ _ _ _ => rfl
  split
  · exact h.fail rfl
  · exact h.pure _

theorem self : P View Eval.self := h.bind (h.activation _) fun _ => h.pure _

theorem superView : P View Eval.superView := by
  refine h.bind (h.activation _) fun a => ?_
  simp only
  split
  · exact h.pure _
  · exact h.fail rfl

theorem messageIn (frame : FrameId) : P Value (Eval.messageIn frame) := by
  refine h.read (fun m => ?_) fun _ _ _ _ => rfl
  split
  · exact h.pure _
  · exact h.pure _

theorem ambientMessage : P String Eval.ambientMessage := by
  refine h.read (fun m => h.read (fun m' => ?_) fun _ _ _ _ => rfl) fun _ _ _ _ => rfl
  split
  · exact h.pure _
  · exact h.pure _

end Observes

namespace Operates

variable (h : Operates P)

include h

theorem alloc (f : Frame) : P FrameId (Eval.alloc f) :=
  h.read (fun _ => h.bind (h.write (fun _ => rfl) fun _ _ _ _ => rfl) fun _ => h.pure _)
    fun _ _ _ _ => rfl

theorem create (c : Class) : P View (Eval.create c) :=
  h.bind (h.ofExcept c.shallow_fieldFrames) fun _ =>
    h.read (fun _ => h.bind (h.write (fun _ => rfl) fun _ _ _ _ => rfl) fun _ => h.pure _)
      fun _ _ _ _ => rfl

theorem newObject (cls : String) : P Value (Eval.newObject cls) :=
  h.bind (h.resolve cls) fun c => h.bind (h.create c) fun _ => h.pure _

theorem assign (name : String) (v : Value) : P Unit (Eval.assign name v) := by
  refine h.read (fun m => ?_) fun _ _ _ _ => rfl
  cases ha : m.store.assignment name v m.control.scopes with
  | ok target => exact h.write (fun _ => rfl) fun _ _ _ _ => rfl
  | error e =>
    cases e with
    | undefined => exact h.fail rfl
    | rejected e => exact h.fail (Store.shallow_assignment ha)

theorem raise (message : Value) : P Unit (Eval.raise message) := by
  refine h.read (fun m => ?_) fun _ _ _ _ => rfl
  split
  · exact h.assign _ _
  · split
    · exact h.pure _
    · exact h.bind (h.ofExcept (Variable.shallow_assign _ _)) fun _ =>
        h.write (fun _ => rfl) fun _ _ _ _ => rfl

theorem input (kind : InputKind) (name : String) : P Completion (Eval.input kind name) :=
  h.bind (h.checkVisible name) fun _ => h.bind h.readLine fun line =>
    h.bind (h.ofExcept (Eval.shallow_received line kind)) fun v =>
      h.bind (h.assign name v) fun _ => h.pure _

end Operates

namespace Pervasive

variable (h : Pervasive P)

include h

/- One level of the evaluator, if the property holds of the code inside it. -/

section Levels

variable {eval : Form → Eval Operand} {exec : Form → Eval Completion}
  (heval : ∀ f, P Operand (eval f)) (hexec : ∀ f, P Completion (exec f))

include hexec in
theorem callMethod (receiver : View) (name : String) (vs : List Value) :
    P Value (Eval.callMethod exec receiver name vs) := by
  refine h.read (fun m => ?_) fun _ _ _ _ => rfl
  split
  · exact h.fail rfl
  · rename_i view method _
    refine h.bind h.checkDepth fun _ => h.bind (h.ofExcept (shallow_bindArguments _ _)) fun _ =>
      h.bind (h.alloc _) fun _ => h.bind ?_ fun _ =>
        h.read (fun _ => h.ofExcept (Registry.shallow_returnValue _ _ _)) fun _ _ _ _ => rfl
    exact h.bracket (fun _ => rfl) (fun _ _ => rfl) (hexec _)

include heval in
theorem arguments (fs : List Form) : P (Option (List Value)) (Eval.arguments eval fs) := by
  induction fs with
  | nil => exact h.pure _
  | cons f fs ih =>
    refine h.bind (heval f) fun a => ?_
    split
    · exact h.pure _
    · exact h.bind ih fun _ => h.pure _

include heval hexec in
theorem callWith (receiver : View) (method : String) (args : List Form) :
    P Value (Eval.callWith eval exec receiver method args) := by
  refine h.bind (h.arguments heval args) fun vs => ?_
  split
  · exact h.callMethod hexec _ _ _
  · exact h.pure _

include heval hexec in
theorem call (target : Target) (method : String) (args : List Form) :
    P Value (Eval.call eval exec target method args) := by
  cases target with
  | super => exact h.bind h.superView fun v => h.callWith heval hexec v method args
  | value f =>
    refine h.bind (heval f) fun a => ?_
    split
    · exact h.callWith heval hexec _ _ _
    · exact h.pure _
    · exact h.fail rfl
    · exact h.fail rfl
    · exact h.fail rfl

include heval in
theorem binary (op : Operator) (left right : Form) :
    P Value (Eval.binary eval op left right) := by
  refine h.bind (heval left) fun a => ?_
  split
  · exact h.pure _
  · refine h.bind (heval right) fun b => ?_
    split
    · exact h.pure _
    · exact h.read (fun _ => h.ofExcept (Registry.shallow_operate _ _ _ _)) fun _ _ _ _ => rfl

include heval in
theorem negation (operand : Form) : P Value (Eval.negation eval operand) := by
  refine h.bind (heval operand) fun a => ?_
  simp only
  split
  · exact h.pure _
  · exact h.ofExcept (Operator.shallow_negate _)

include heval hexec in
theorem expression {f : Form} {e : Expression} (hf : Expression.ofForm f = e) :
    P Operand (Eval.expression eval exec e) := by
  cases e with
  | literal l => exact h.pure _
  | self => exact h.bind h.self fun _ => h.pure _
  | name token => exact h.bind (h.lookup token) fun _ => h.pure _
  | call target method args =>
    exact h.bind (h.call heval hexec target method args) fun _ => h.pure _
  | create cls => exact h.bind (h.newObject cls) fun _ => h.pure _
  | negation operand => exact h.bind (h.negation heval operand) fun _ => h.pure _
  | binary op left right => exact h.bind (h.binary heval op left right) fun _ => h.pure _
  | invalid e => exact h.fail (Expression.shallow_of_invalid hf)

include heval in
theorem withValue (f : Form) {k : Value → Eval Completion} (hk : ∀ v, P Completion (k v)) :
    P Completion (Eval.withValue eval f k) := by
  refine h.bind (heval f) fun a => ?_
  split
  · exact h.pure _
  · exact hk _

include hexec in
theorem block (fs : List Form) : P Completion (Eval.block exec fs) := by
  induction fs with
  | nil => exact h.pure _
  | cons f fs ih =>
    refine h.bind (hexec f) fun done => ?_
    split
    · exact ih
    · exact h.pure _

include heval in
theorem printLine (line : String) (fs : List Form) :
    P Completion (Eval.printLine eval line fs) := by
  induction fs generalizing line with
  | nil => exact h.bind (h.println line) fun _ => h.pure _
  | cons f fs ih =>
    exact h.withValue heval f fun v =>
      h.bind (h.ofExcept (Eval.shallow_printed v)) fun _ => ih _

include heval in
theorem condition (form : Conditional) (f : Form) :
    P (Option Bool) (Eval.condition eval form f) := by
  refine h.bind (heval f) fun a => ?_
  split
  · exact h.pure _
  · exact h.pure _
  · exact h.fail rfl

include heval hexec in
theorem branch (test consequent : Form) (alternative : Option Form) :
    P Completion (Eval.branch eval exec test consequent alternative) := by
  refine h.bind (h.condition heval _ test) fun b => ?_
  split
  · exact h.pure _
  · exact hexec _
  · split
    · exact hexec _
    · exact h.pure _

include heval hexec in
theorem loop (test body : Form) (fuel : Nat) :
    P Completion (Eval.loop eval exec test body fuel) := by
  induction fuel with
  | zero => exact h.starve
  | succ fuel ih =>
    refine h.bind (h.condition heval _ test) fun b => ?_
    split
    · exact h.pure _
    · exact h.pure _
    · refine h.bind (hexec body) fun done => ?_
      split
      · exact ih
      · exact h.pure _

include heval in
theorem initial (l : Local) : P (Option Variable) (Eval.initial eval l) := by
  refine h.bind (h.resolveType l.type) fun _ => ?_
  split
  · exact h.pure _
  · refine h.bind (heval _) fun a => ?_
    split
    · exact h.pure _
    · exact h.bind (h.ofExcept (Variable.shallow_create _ _)) fun _ => h.pure _

include heval in
theorem locals (frame : Frame) (fs : List Form) :
    P (Option Frame) (Eval.locals eval frame fs) := by
  induction fs generalizing frame with
  | nil => exact h.pure _
  | cons f fs ih =>
    refine h.bind (h.ofExcept (Local.shallow_ofForm f)) fun l =>
      h.bind (h.initial heval l) fun x => ?_
    split
    · exact h.pure _
    · split
      · exact ih _
      · exact h.fail rfl

include heval hexec in
theorem letBlock (decls body : List Form) :
    P Completion (Eval.letBlock eval exec decls body) := by
  refine h.bind (h.locals heval _ decls) fun frame => ?_
  split
  · exact h.pure _
  · exact h.bind (h.alloc _) fun _ =>
      h.bracket (fun _ => rfl) (fun _ hc => hc) (h.block hexec body)

include heval in
theorem result (value : Option Form) : P Completion (Eval.result eval value) := by
  refine h.bind (h.activation _) fun a => ?_
  cases value with
  | none => exact h.pure _
  | some f => exact h.withValue heval f fun v => h.pure _

include hexec in
theorem attempt (body handler : Form) : P Completion (Eval.attempt exec body handler) := by
  refine h.bind (h.alloc _) fun frame => h.bind (h.bracket (fun _ => rfl) (fun _ hc => hc) ?_)
    fun done => ?_
  · refine h.bind (hexec body) fun done => ?_
    split
    · exact h.bracket (fun _ => rfl) (fun _ hc => hc) (hexec handler)
    · exact h.pure _
  · split
    · exact h.bind (h.messageIn frame) fun v => h.bind (h.raise v) fun _ => h.pure _
    · exact h.pure _

include heval hexec in
theorem statement (fuel : Nat) {f : Form} {s : Statement} (hf : Statement.ofForm f = s) :
    P Completion (Eval.statement fuel eval exec s) := by
  cases s with
  | print operands => exact h.printLine heval "" operands
  | assign name value =>
    exact h.bind (h.checkVisible name) fun _ =>
      h.withValue heval value fun v => h.bind (h.assign name v) fun _ => h.pure _
  | block body => exact h.block hexec body
  | branch test consequent alternative => exact h.branch heval hexec test consequent alternative
  | loop test body => exact h.loop heval hexec test body fuel
  | bind decls body => exact h.letBlock heval hexec decls body
  | input kind name => exact h.input kind name
  | result value => exact h.result heval value
  | attempt body handler => exact h.attempt hexec body handler
  | throw message =>
    exact h.withValue heval message fun v => h.bind (h.raise v) fun _ => h.pure _
  | expression f => exact h.withValue heval f fun _ => h.pure _
  | invalid e => exact h.fail (Statement.shallow_of_invalid hf)

end Levels

/-- Induction on the fuel: each level only runs code of the level below. -/
theorem evaluator (fuel : Nat) :
    (∀ f, P Operand (eval fuel f)) ∧ ∀ f, P Completion (exec fuel f) := by
  induction fuel with
  | zero => exact ⟨fun _ => h.starve, fun _ => h.starve⟩
  | succ fuel ih =>
    exact ⟨fun _ => h.expression ih.1 ih.2 rfl, fun _ => h.statement ih.1 ih.2 fuel rfl⟩

theorem eval (fuel : Nat) (f : Form) : P Operand (ObjectLang.eval fuel f) := (h.evaluator fuel).1 f

theorem exec (fuel : Nat) (f : Form) : P Completion (ObjectLang.exec fuel f) :=
  (h.evaluator fuel).2 f

theorem run (fuel : Nat) : P Outcome (Eval.run fuel) := by
  refine h.bind (h.resolve "main") fun c => h.bind (h.create c) fun main =>
    h.bind (h.callMethod (h.exec fuel) main "main" []) fun v => ?_
  split
  · exact h.bind h.ambientMessage fun _ => h.pure _
  · exact h.pure _

end Pervasive

end ObjectLang
