import Mathlib.Data.List.Induction
import ObjectLang.Proofs.Limit
import ObjectLang.Proofs.Scope

/-!
Effects: what a task does to the store, by its own code and through the tasks that it starts. A task
adds frames, makes objects and writes to variables that its scopes lead it to, and each task that it
starts does the same in turn. So what new frames, new objects and the writes of single tasks keep
holds of the stores of all runs.
-/

namespace ObjectLang

variable {α β : Type}

def Statement.target? : Statement → Option String
  | .assign name _ | .input _ name => some name
  | _ => none

/-- The statement of the task writes to a variable. An assignment or an input writes to its target.
A message goes to the nearest variable for it, or else to that of the ambient frame. -/
inductive Task.Writes (t : Task) : Store → Store → Prop
  | target (hw : t.work = .exec f) (hf : (Statement.ofForm f).target? = some name)
      (ha : s.assignment name v t.machine.control.scopes = .ok (i, x)) :
      t.Writes s (s.set i name x)
  | message (hw : t.work = .exec f)
      (ha : s.assignment exceptionName v t.machine.control.scopes = .ok (i, x)) :
      t.Writes s (s.set i exceptionName x)
  | ambient (hw : t.work = .exec f)
      (hx : s.get? t.machine.control.ambient exceptionName = some x) (ha : x.assign v = .ok y) :
      t.Writes s (s.set t.machine.control.ambient exceptionName y)

/-- The task adds a frame for a scope: that of the method which it calls, with the parameters of this,
that of a `try`, or that of a `let`, with the locals which this declares. -/
inductive Task.Adds (t : Task) : Outline → Prop
  | arguments (h : Calls t a u) : t.Adds (.arguments a.method.params)
  | message : t.Adds .message
  | locals (hw : t.work = .exec f) (hf : Statement.ofForm f = .bind decls body)
      (hls : decls.mapM Local.ofForm = .ok ls) : t.Adds (.locals ls)

theorem Task.Adds.role_ne {t : Task} {o : Outline} (h : t.Adds o) : ∀ cls, o.role ≠ .fields cls := by
  cases h <;> nofun

inductive Effect (t : Task) : Store → Store → Prop
  | frame (h : t.Adds f.outline) : Effect t s (s.push f)
  | object (hc : Class.fieldFrames c = .ok frames) : Effect t s (s.pushAll frames)
  | write (h : t.Writes s s') : Effect t s s'
  | part (h : Starts t u) : Effect t u.machine.store u.final.store

def Effects (t : Task) : Store → Store → Prop := Relation.ReflTransGen (Effect t)

def Confined (R : Store → Store → Prop) (m : Machine) (x : Eval α) : Prop :=
  Relation.ReflTransGen R m.store (after x m).store

namespace Confined

variable {R : Store → Store → Prop} {m : Machine} {x : Eval α} {f : α → Eval β}

/-- The computation leaves the store as it is. -/
theorem still (h : (after x m).store = m.store) : Confined R m x := by
  rw [Confined, h]

theorem pure (a : α) : Confined R m (pure a) := still rfl

theorem throw (e : Stop) : Confined R m (throw e : Eval α) := still rfl

theorem fail (e : Error) : Confined R m (Eval.fail e : Eval α) := still rfl

theorem ofExcept (r : Except Error α) : Confined R m (Eval.ofExcept r) := by
  cases r with
  | ok a => exact pure a
  | error e => exact fail e

theorem of_ok (h : Confined R m x) {a : α} {s : Machine} (hx : x m = .ok a s) :
    Relation.ReflTransGen R m.store s.store := by
  rwa [Confined, after_of_ok hx] at h

theorem bind (hx : Confined R m x) (hf : ∀ a s, x m = .ok a s → Confined R s (f a)) :
    Confined R m (x >>= f) := by
  cases h : x m with
  | ok a s =>
    rw [Confined, after_bind_of_ok h]
    exact (hx.of_ok h).trans (hf a s h)
  | error e s =>
    rw [Confined, after_bind_of_error h]
    exact hx

theorem get_bind {f : Machine → Eval β} (h : Confined R m (f m)) : Confined R m (get >>= f) := h

theorem ofExcept_bind {r : Except Error α} (h : ∀ a, r = .ok a → Confined R m (f a)) :
    Confined R m (Eval.ofExcept r >>= f) := by
  cases r with
  | ok a => exact h a rfl
  | error e => exact throw _

theorem bracket {enter : Control → Control} {leave : Control → Control → Control}
    (h : Confined R { m with control := enter m.control } x) :
    Confined R m (Eval.bracket enter leave x) := by
  have hstore : (after (Eval.bracket enter leave x) m).store =
      (after x { m with control := enter m.control }).store := by
    unfold after
    cases hx : x { m with control := enter m.control } with
    | ok a s => rw [Eval.bracket_of_ok hx]
    | error e s => rw [Eval.bracket_of_error hx]
  rw [Confined, hstore]
  exact h

/- Operations that leave the store alone. -/

theorem building (b : Build α) : Confined R m (Eval.building b) :=
  still (by rw [Traces.after_building])

theorem checkDepth : Confined R m Eval.checkDepth := by
  refine get_bind ?_
  split
  · exact fail _
  · exact pure _

theorem observes : Observes fun _ x => ∀ m, Confined R m x where
  pure a _ := pure a
  fail _ _ := fail _
  bind hx hf m := (hx m).bind fun a s _ => hf a s
  read hk _ m := get_bind (hk m m)
  println _ _ := still rfl
  readLine _ := still rfl
  building _ _ := building _
  activation shape m := by
    refine get_bind ?_
    split
    · exact pure _
    · exact fail _

/- Operations that add to the store or write to it. -/

theorem create {c : Class}
    (h : ∀ frames, c.fieldFrames = .ok frames → R m.store (m.store.pushAll frames)) :
    Confined R m (Eval.create c) :=
  ofExcept_bind fun frames hc => .single (h frames hc)

variable {t : Task} {n : Nat}

theorem alloc {frame : Frame} (h : t.Adds frame.outline) :
    Confined (Effect t) m (Eval.alloc frame) :=
  .single (.frame h)

theorem newObject (cls : String) : Confined (Effect t) m (Eval.newObject cls) :=
  (building _).bind fun _ _ _ => (create fun _ hc => .object hc).bind fun _ _ _ => pure _

theorem assign {name : String} {v : Value}
    (h : ∀ i x, m.store.assignment name v m.control.scopes = .ok (i, x) →
      t.Writes m.store (m.store.set i name x)) : Confined (Effect t) m (Eval.assign name v) := by
  refine get_bind ?_
  cases ha : m.store.assignment name v m.control.scopes with
  | ok target => exact .single (.write (h _ _ ha))
  | error e => cases e <;> exact fail _

theorem raise {f : Form} (v : Value) (hw : t.work = .exec f)
    (hc : m.control = t.machine.control) : Confined (Effect t) m (Eval.raise v) := by
  refine get_bind ?_
  split
  · exact assign fun i x ha => .message hw (hc ▸ ha)
  · split
    · exact pure _
    · rename_i x hx
      refine ofExcept_bind fun y hy => .single (.write ?_)
      change t.Writes m.store (m.store.set m.control.ambient exceptionName y)
      rw [hc] at hx ⊢
      exact .ambient hw hx hy

theorem evaluated {f : Form} (h : Starts t ⟨n, .eval f, m⟩) : Confined (Effect t) m (eval n f) :=
  .single (.part h)

theorem executed {f : Form} (h : Starts t ⟨n, .exec f, m⟩) : Confined (Effect t) m (exec n f) :=
  .single (.part h)

/- One level of the evaluator, of whose code the task starts the parts. -/

theorem arguments {fs : List Form} (h : ∀ u, Operands n m fs u → Starts t u) :
    Confined (Effect t) m (Eval.arguments (eval n) fs) := by
  induction fs generalizing m with
  | nil => exact pure _
  | cons f fs ih =>
    refine (evaluated (h _ (operands_cons.mpr (.inl rfl)))).bind fun a s ha => ?_
    split
    · exact pure _
    · rename_i hv
      have hx := Value.isException_eq_false.mpr hv
      exact (ih fun u hu => h u (operands_cons.mpr (.inr ⟨a, s, ha, hx, hu⟩))).bind
        fun _ _ _ => pure _

theorem callWith {receiver : View} {name : String} {args : List Form}
    (h : ∀ u, Operands n m args u ∨ (∃ vs s,
      Eval.arguments (eval n) args m = .ok (some vs) s ∧
        u = ⟨n, .call receiver name vs, s⟩) → Starts t u) :
    Confined (Effect t) m (Eval.callWith (eval n) (exec n) receiver name args) := by
  refine (arguments fun u hu => h u (.inl hu)).bind fun r s hr => ?_
  cases r with
  | none => exact pure _
  | some vs => exact .single (.part (h _ (.inr ⟨vs, s, hr, rfl⟩)))

theorem call {target : Target} {name : String} {args : List Form}
    (h : ∀ u, Expression.Parts n m u (.call target name args) → Starts t u) :
    Confined (Effect t) m (Eval.call (eval n) (exec n) target name args) := by
  cases target with
  | super =>
    exact (observes.superView m).bind fun v s hv => callWith fun u hu => h u (.inr ⟨v, s, hv, hu⟩)
  | value f =>
    refine (evaluated (h _ (.inl ⟨f, rfl, rfl⟩))).bind fun a s ha => ?_
    split
    · rename_i v hv
      exact callWith fun u hu => h u (.inr ⟨v, s, ⟨a, ha, hv⟩, hu⟩)
    · exact pure _
    · exact fail _
    · exact fail _
    · exact fail _

theorem binary {op : Operator} {left right : Form}
    (h : ∀ u, Expression.Parts n m u (.binary op left right) → Starts t u) :
    Confined (Effect t) m (Eval.binary (eval n) op left right) := by
  refine (evaluated (h _ (.inl rfl))).bind fun a s ha => ?_
  split
  · exact pure _
  · rename_i hx
    refine (evaluated (h _ (.inr ⟨a, s, ha, by simpa using hx, rfl⟩))).bind fun b s' _ => ?_
    split
    · exact pure _
    · exact get_bind (ofExcept _)

theorem negation {operand : Form} (h : Starts t ⟨n, .eval operand, m⟩) :
    Confined (Effect t) m (Eval.negation (eval n) operand) := by
  refine (evaluated h).bind fun a s _ => ?_
  simp only
  split
  · exact pure _
  · exact ofExcept _

theorem expression {e : Expression} (h : ∀ u, e.Parts n m u → Starts t u) :
    Confined (Effect t) m (Eval.expression (eval n) (exec n) e) := by
  cases e with
  | literal l => exact pure _
  | self => exact (observes.self m).bind fun _ _ _ => pure _
  | name token => exact (observes.lookup token m).bind fun _ _ _ => pure _
  | call target method args => exact (call h).bind fun _ _ _ => pure _
  | create cls => exact (newObject cls).bind fun _ _ _ => pure _
  | negation operand => exact (negation (h _ rfl)).bind fun _ _ _ => pure _
  | binary op left right => exact (binary h).bind fun _ _ _ => pure _
  | invalid e => exact fail e

/-- The value is handed on under the control that its form was evaluated under. -/
theorem withValue {f : Form} {k : Value → Eval Completion} (h : Starts t ⟨n, .eval f, m⟩)
    (hk : ∀ a s, eval n f m = .ok a s → a.value.isException = false → s.control = m.control →
      Confined (Effect t) s (k a.value)) :
    Confined (Effect t) m (Eval.withValue (eval n) f k) := by
  refine (evaluated h).bind fun a s ha => ?_
  split
  · exact pure _
  · rename_i hv
    exact hk a s ha (Value.isException_eq_false.mpr hv) ((restores_eval n f).of_ok ha)

theorem block {fs : List Form} (h : ∀ u, Sequence n m fs u → Starts t u) :
    Confined (Effect t) m (Eval.block (exec n) fs) := by
  induction fs generalizing m with
  | nil => exact pure _
  | cons f fs ih =>
    refine (executed (h _ (sequence_cons.mpr (.inl rfl)))).bind fun done s hs => ?_
    split
    · exact ih fun u hu => h u (sequence_cons.mpr (.inr ⟨s, hs, hu⟩))
    · exact pure _

theorem printLine {line : String} {fs : List Form} (h : ∀ u, Printed n m fs u → Starts t u) :
    Confined (Effect t) m (Eval.printLine (eval n) line fs) := by
  induction fs generalizing m line with
  | nil => exact (observes.println line m).bind fun _ _ _ => pure _
  | cons f fs ih =>
    refine withValue (h _ (printed_cons.mpr (.inl rfl))) fun a s ha hx _ => ?_
    refine ofExcept_bind fun text ht => ih fun u hu => ?_
    exact h u (printed_cons.mpr (.inr ⟨a, s, ha, hx, ⟨text, ht⟩, hu⟩))

theorem condition (form : Conditional) {f : Form} (h : Starts t ⟨n, .eval f, m⟩) :
    Confined (Effect t) m (Eval.condition (eval n) form f) := by
  refine (evaluated h).bind fun a s _ => ?_
  split
  · exact pure _
  · exact pure _
  · exact fail _

theorem branch {test consequent : Form} {alternative : Option Form}
    (h : ∀ u, Statement.Parts n m u (.branch test consequent alternative) → Starts t u) :
    Confined (Effect t) m
      (Eval.branch (eval n) (exec n) test consequent alternative) := by
  refine (condition _ (h _ (.inl rfl))).bind fun b s hb => ?_
  split
  · exact pure _
  · exact executed (h _ (.inr (.inl ⟨s, hb, rfl⟩)))
  · split
    · exact executed (h _ (.inr (.inr ⟨s, _, hb, rfl, rfl⟩)))
    · exact pure _

theorem loop {test body : Form} {rounds : Nat}
    (h : ∀ u, Turns n test body rounds m u → Starts t u) :
    Confined (Effect t) m (Eval.loop (eval n) (exec n) test body rounds) := by
  induction rounds generalizing m with
  | zero => exact throw _
  | succ rounds ih =>
    refine (condition _ (h _ (turns_succ.mpr (.inl rfl)))).bind fun b s hb => ?_
    split
    · exact pure _
    · exact pure _
    · refine (executed (h _ (turns_succ.mpr (.inr ⟨s, hb, .inl rfl⟩)))).bind fun done s' hd => ?_
      split
      · exact ih fun u hu => h u (turns_succ.mpr (.inr ⟨s, hb, .inr ⟨s', hd, hu⟩⟩))
      · exact pure _

theorem initial {l : Local} (h : ∀ u, Initializer n m l u → Starts t u) :
    Confined (Effect t) m (Eval.initial (eval n) l) := by
  refine (building _).bind fun _ s hs => ?_
  split
  · exact pure _
  · rename_i g hg
    refine (evaluated (h _ ⟨g, s, hg, hs, rfl⟩)).bind fun a s' _ => ?_
    split
    · exact pure _
    · exact (ofExcept _).bind fun _ _ _ => pure _

theorem locals {frame : Frame} {ds : List Form}
    (h : ∀ u, Initializers n m frame ds u → Starts t u) :
    Confined (Effect t) m (Eval.locals (eval n) frame ds) := by
  induction ds generalizing m frame with
  | nil => exact pure _
  | cons d ds ih =>
    refine ofExcept_bind fun l hl => ?_
    refine (initial fun u hu => h u ((initializers_cons hl).mpr (.inl hu))).bind fun r s hr => ?_
    cases r with
    | none => exact pure _
    | some x =>
      simp only
      split
      · rename_i frame' hd
        exact ih fun u hu => h u ((initializers_cons hl).mpr (.inr ⟨x, s, frame', hr, hd, hu⟩))
      · exact fail _

theorem letBlock {f : Form} {decls body : List Form} (hw : t.work = .exec f)
    (hf : Statement.ofForm f = .bind decls body)
    (h : ∀ u, Statement.Parts n m u (.bind decls body) → Starts t u) :
    Confined (Effect t) m (Eval.letBlock (eval n) (exec n) decls body) := by
  refine (locals fun u hu => h u (.inl hu)).bind fun r s hr => ?_
  cases r with
  | none => exact pure _
  | some frame =>
    obtain ⟨ls, hls, houtline⟩ := Eval.locals_outline hr
    have hadds : t.Adds frame.outline := houtline ▸ .locals hw hf hls
    refine (alloc hadds).bind fun i s' hs' => ?_
    cases hs'
    exact bracket (block fun u hu => h u (.inr ⟨frame, s, hr, hu⟩))

theorem input {f : Form} {kind : InputKind} {name : String} (hw : t.work = .exec f)
    (hf : (Statement.ofForm f).target? = some name) (hc : m.control = t.machine.control) :
    Confined (Effect t) m (Eval.input kind name) := by
  refine (observes.checkVisible name m).bind fun _ s hs =>
    (observes.readLine s).bind fun line s₁ hs₁ => (ofExcept _).bind fun v s₂ hs₂ =>
      bind (assign fun i x ha => ?_) fun _ _ _ => pure _
  have hcontrol : s₂.control = t.machine.control :=
    (((Restores.ofExcept _).of_ok hs₂).trans (Restores.pervasive.readLine.of_ok hs₁)).trans
      (((Restores.pervasive.checkVisible name).of_ok hs).trans hc)
  exact .target hw hf (hcontrol ▸ ha)

theorem result {value : Option Form}
    (h : ∀ u, Statement.Parts n m u (.result value) → Starts t u) :
    Confined (Effect t) m (Eval.result (eval n) value) := by
  refine (observes.activation _ m).bind fun a s ha => ?_
  obtain ⟨ha, rfl⟩ := Eval.activation_eq_ok.mp ha
  cases value with
  | none => exact pure _
  | some g => exact withValue (h _ ⟨g, a, rfl, ha, rfl⟩) fun _ _ _ _ _ => pure _

theorem guarded {body handler : Form} (hbody : Starts t ⟨n, .exec body, m⟩)
    (hhandler : ∀ s, exec n body m = .ok .raised s →
      Starts t ⟨n, .exec handler, s.enterHandler⟩) :
    Confined (Effect t) m (Eval.guarded (exec n) body handler) := by
  refine (executed hbody).bind fun done s hs => ?_
  cases done with
  | raised => exact bracket (executed (hhandler s hs))
  | normal => exact pure _
  | returned v => exact pure _

theorem attempt {f body handler : Form} (hw : t.work = .exec f)
    (hc : m.control = t.machine.control)
    (h : ∀ u, Statement.Parts n m u (.attempt body handler) → Starts t u) :
    Confined (Effect t) m (Eval.attempt (exec n) body handler) := by
  have htry : Confined (Effect t) m (Eval.alloc .forException >>= fun frame =>
      Eval.inTry frame (Eval.guarded (exec n) body handler)) := by
    refine (alloc .message).bind fun i s hs => ?_
    cases hs
    exact bracket (guarded (h _ (.inl rfl)) fun s hs => h _ (.inr ⟨s, hs, rfl⟩))
  have hrestores : Restores (Eval.alloc .forException >>= fun frame =>
      Eval.inTry frame (Eval.guarded (exec n) body handler)) :=
    (Restores.pervasive.alloc _).bind fun _ => .inTry (.guarded (restores_exec n) body handler)
  refine htry.bind fun done s hs => ?_
  cases done with
  | raised =>
    -- The message is handed on outside the `try`, under the control of the task.
    refine (observes.messageIn _ s).bind fun v s' hs' => (raise v hw ?_).bind fun _ _ _ => pure _
    exact ((Restores.pervasive.messageIn _).of_ok hs').trans ((hrestores.of_ok hs).trans hc)
  | normal => exact pure _
  | returned v => exact pure _

theorem statement (f : Form) :
    Confined (Effect ⟨n + 1, .exec f, m⟩) m
      (Eval.statement n (eval n) (exec n) (Statement.ofForm f)) := by
  have h : ∀ u, (Statement.ofForm f).Parts n m u → Starts ⟨n + 1, .exec f, m⟩ u :=
    fun _ => Statement.Parts.starts
  generalize hf : Statement.ofForm f = e at h
  cases e with
  | print operands => exact printLine h
  | assign name value =>
    have htarget : (Statement.ofForm f).target? = some name := by simp [hf, Statement.target?]
    refine (observes.checkVisible name m).bind fun _ s hs => ?_
    obtain ⟨-, -, rfl⟩ := Eval.checkVisible_eq_ok.mp hs
    refine withValue (h _ ⟨hs, rfl⟩) fun a s' _ _ hc => ?_
    exact (assign fun i x ha => .target rfl htarget (hc ▸ ha)).bind fun _ _ _ => pure _
  | block body => exact block h
  | branch test consequent alternative => exact branch h
  | loop test body => exact loop h
  | bind decls body => exact letBlock rfl hf h
  | input kind name => exact input rfl (by simp [hf, Statement.target?]) rfl
  | result value => exact result h
  | attempt body handler => exact attempt rfl rfl h
  | throw message =>
    refine withValue (h _ rfl) fun a s _ _ hc => ?_
    exact (raise _ rfl hc).bind fun _ _ _ => pure _
  | expression g =>
    exact withValue (h _ rfl) fun _ _ _ _ _ => pure _
  | invalid e => exact fail e

theorem callMethod (receiver : View) (name : String) (vs : List Value) :
    Confined (Effect ⟨n, .call receiver name vs, m⟩) m
      (Eval.callMethod (exec n) receiver name vs) := by
  refine get_bind ?_
  cases hs : m.registry.selectMethod? receiver name (vs.map Value.runtimeType) with
  | none => exact fail _
  | some chosen =>
    obtain ⟨view, method⟩ := chosen
    refine checkDepth.bind fun _ s hd => ofExcept_bind fun bindings hb => ?_
    obtain ⟨hl, rfl⟩ := Eval.checkDepth_eq_ok.mp hd
    obtain ⟨-, -, -, hlength⟩ := Registry.selectMethod?_spec hs
    have houtline := outline_bindArguments hb (by simpa using hlength)
    refine (alloc (houtline ▸ .arguments (.body hs hl hb))).bind fun frame s' hs' => ?_
    cases hs'
    refine bind (bracket (executed (.awaits (.body hs hl hb)))) fun done s _ => ?_
    exact get_bind (ofExcept _)

end Confined

/-- All that a task does to the store are its effects. -/
theorem Task.effects (t : Task) : Effects t t.machine.store t.final.store := by
  obtain ⟨n, work, m⟩ := t
  cases work with
  | call receiver name vs => exact Confined.callMethod receiver name vs
  | eval f =>
    cases n with
    | zero => exact .refl
    | succ n => exact Confined.expression fun _ => Expression.Parts.starts
  | exec f =>
    cases n with
    | zero => exact .refl
    | succ n => exact Confined.statement f

/- What a task does to the store before it starts one of its parts. -/

section Parts

variable {t u : Task} {n : Nat} {m : Machine}

theorem Operands.effects {fs : List Form} (h : Operands n m fs u)
    (hs : ∀ w, Operands n m fs w → Starts t w) : Effects t m.store u.machine.store := by
  induction fs generalizing m with
  | nil => simp [Operands] at h
  | cons f fs ih =>
    obtain rfl | ⟨a, s, ha, hx, h⟩ := operands_cons.mp h
    · exact .refl
    · have hfirst := Confined.evaluated (hs _ (operands_cons.mpr (.inl rfl)))
      refine (hfirst.of_ok ha).trans (ih h fun w hw => ?_)
      exact hs w (operands_cons.mpr (.inr ⟨a, s, ha, hx, hw⟩))

theorem Printed.effects {fs : List Form} (h : Printed n m fs u)
    (hs : ∀ w, Printed n m fs w → Starts t w) : Effects t m.store u.machine.store := by
  induction fs generalizing m with
  | nil => simp [Printed] at h
  | cons f fs ih =>
    obtain rfl | ⟨a, s, ha, hx, htext, h⟩ := printed_cons.mp h
    · exact .refl
    · have hfirst := Confined.evaluated (hs _ (printed_cons.mpr (.inl rfl)))
      refine (hfirst.of_ok ha).trans (ih h fun w hw => ?_)
      exact hs w (printed_cons.mpr (.inr ⟨a, s, ha, hx, htext, hw⟩))

theorem Sequence.effects {fs : List Form} (h : Sequence n m fs u)
    (hs : ∀ w, Sequence n m fs w → Starts t w) : Effects t m.store u.machine.store := by
  induction fs generalizing m with
  | nil => simp [Sequence] at h
  | cons f fs ih =>
    obtain rfl | ⟨s, hf, h⟩ := sequence_cons.mp h
    · exact .refl
    · have hfirst := Confined.executed (hs _ (sequence_cons.mpr (.inl rfl)))
      refine (hfirst.of_ok hf).trans (ih h fun w hw => ?_)
      exact hs w (sequence_cons.mpr (.inr ⟨s, hf, hw⟩))

theorem Turns.effects {test body : Form} {rounds : Nat} (h : Turns n test body rounds m u)
    (hs : ∀ w, Turns n test body rounds m w → Starts t w) :
    Effects t m.store u.machine.store := by
  induction rounds generalizing m with
  | zero => simp [Turns] at h
  | succ rounds ih =>
    have htest := Confined.condition .loop (hs _ (turns_succ.mpr (.inl rfl)))
    obtain rfl | ⟨s, hc, rfl | ⟨s', hb, h⟩⟩ := turns_succ.mp h
    · exact .refl
    · exact htest.of_ok hc
    · have hbody := Confined.executed (hs _ (turns_succ.mpr (.inr ⟨s, hc, .inl rfl⟩)))
      refine ((htest.of_ok hc).trans (hbody.of_ok hb)).trans (ih h fun w hw => ?_)
      exact hs w (turns_succ.mpr (.inr ⟨s, hc, .inr ⟨s', hb, hw⟩⟩))

theorem Initializers.effects {frame : Frame} {ds : List Form} (h : Initializers n m frame ds u)
    (hs : ∀ w, Initializers n m frame ds w → Starts t w) : Effects t m.store u.machine.store := by
  induction ds generalizing m frame with
  | nil => simp [Initializers] at h
  | cons d ds ih =>
    obtain ⟨l, hl⟩ := exists_ofForm_of_initializers h
    obtain ⟨g, s, -, hs, rfl⟩ | ⟨x, s, frame', hx, hd, h⟩ := (initializers_cons hl).mp h
    · exact (Confined.building _).of_ok hs
    · have hfirst := Confined.initial fun w hw => hs w ((initializers_cons hl).mpr (.inl hw))
      refine (hfirst.of_ok hx).trans (ih h fun w hw => ?_)
      exact hs w ((initializers_cons hl).mpr (.inr ⟨x, s, frame', hx, hd, hw⟩))

theorem Expression.Parts.effects {e : Expression} (h : e.Parts n m u)
    (hs : ∀ w, e.Parts n m w → Starts t w) : Effects t m.store u.machine.store := by
  cases e with
  | call target name args =>
    obtain ⟨g, rfl, rfl⟩ | ⟨v, s, hv, h⟩ := h
    · exact .refl
    · have htarget : Effects t m.store s.store := by
        cases target with
        | super => exact (Confined.observes.superView m).of_ok hv
        | value g =>
          obtain ⟨a, ha, -⟩ := hv
          exact (Confined.evaluated (hs _ (.inl ⟨g, rfl, rfl⟩))).of_ok ha
      have hargs : ∀ w, Operands n s args w → Starts t w :=
        fun w hw => hs w (.inr ⟨v, s, hv, .inl hw⟩)
      obtain h | ⟨vs, s', hvs, rfl⟩ := h
      · exact htarget.trans (h.effects hargs)
      · exact htarget.trans ((Confined.arguments hargs).of_ok hvs)
  | negation g =>
    cases h
    exact .refl
  | binary op left right =>
    obtain rfl | ⟨a, s, ha, -, rfl⟩ := h
    · exact .refl
    · exact (Confined.evaluated (hs _ (.inl rfl))).of_ok ha
  | literal | self | name | create | invalid => cases h

theorem Statement.Parts.effects {f : Form} {e : Statement} (h : e.Parts n m u)
    (hw : t.work = .exec f) (hf : Statement.ofForm f = e)
    (hs : ∀ w, e.Parts n m w → Starts t w) : Effects t m.store u.machine.store := by
  cases e with
  | print operands => exact Printed.effects h hs
  | assign name value =>
    obtain ⟨-, rfl⟩ := h
    exact .refl
  | block body => exact Sequence.effects h hs
  | branch test consequent alternative =>
    have htest := Confined.condition .branch (hs _ (.inl rfl))
    obtain rfl | ⟨s, hc, rfl⟩ | ⟨s, g, hc, -, rfl⟩ := h
    · exact .refl
    · exact htest.of_ok hc
    · exact htest.of_ok hc
  | loop test body => exact Turns.effects h hs
  | bind decls body =>
    have hdecls : ∀ w, Initializers n m (.empty .locals) decls w → Starts t w :=
      fun w hw => hs w (.inl hw)
    obtain h | ⟨frame, s, hd, h⟩ := h
    · exact h.effects hdecls
    · obtain ⟨ls, hls, houtline⟩ := Eval.locals_outline hd
      have hframe : Effect t s.store (s.enterLet frame).store :=
        .frame (houtline ▸ .locals hw hf hls)
      refine (((Confined.locals hdecls).of_ok hd).tail hframe).trans (h.effects fun w hw => ?_)
      exact hs w (.inr ⟨frame, s, hd, hw⟩)
  | result value =>
    obtain ⟨g, a, -, -, rfl⟩ := h
    exact .refl
  | attempt body handler =>
    have hframe : Effects t m.store m.enterTry.store := .single (.frame .message)
    obtain rfl | ⟨s, hb, rfl⟩ := h
    · exact hframe
    · have hbody : Effects t m.enterTry.store s.store :=
        (Confined.executed (hs _ (.inl rfl))).of_ok hb
      exact hframe.trans hbody
  | throw g | expression g =>
    cases h
    exact .refl
  | input | invalid => cases h

end Parts

theorem Starts.effects {t u : Task} (h : Starts t u) :
    Effects t t.machine.store u.machine.store := by
  obtain ⟨n, work, m⟩ := t
  cases work with
  | call receiver name vs =>
    obtain ⟨view, method, bindings, hs, hl, hb, rfl⟩ := starts_call.mp h
    obtain ⟨-, -, -, hlength⟩ := Registry.selectMethod?_spec hs
    have houtline := outline_bindArguments hb (by simpa using hlength)
    exact .single (.frame (houtline ▸ .arguments (.body hs hl hb)))
  | eval f =>
    cases n with
    | zero => obtain h | h | h := h <;> cases h
    | succ n => exact (starts_eval.mp h).effects fun _ => starts_eval.mpr
  | exec f =>
    cases n with
    | zero => obtain h | h | h := h <;> cases h
    | succ n => exact (starts_exec.mp h).effects rfl rfl fun _ => starts_exec.mpr

/- Properties of the store that last through all runs. -/

theorem Task.Writes.preserves {t : Task} {s s' : Store} (h : t.Writes s s') : s.Preserves s' := by
  cases h with
  | target _ _ ha | message _ ha =>
    obtain ⟨_, _, x, -, -, hx, hy⟩ := Store.assignment_eq_ok ha
    exact .set hx (Variable.assign_declared hy)
  | ambient _ hx ha => exact .set hx (Variable.assign_declared ha)

theorem Task.preserves (t : Task) : t.machine.store.Preserves t.final.store := by
  obtain ⟨hand, hready⟩ := t.exists_ready []
  obtain ⟨hand', hsteps⟩ := hready.final
  exact hsteps.preserves

theorem Effect.preserves {t : Task} {s s' : Store} (h : Effect t s s') : s.Preserves s' := by
  cases h with
  | frame => exact .push _ _
  | object => exact .pushAll _ _
  | write h => exact h.preserves
  | part => exact Task.preserves _

/-- New frames and objects keep the property, and so do the writes of every task of a run, on any
store that has come of the one the task started on. -/
structure Lasts (start : Machine) (Q : Store → Prop) : Prop where
  frame : ∀ {t : Task} {s : Store} {f : Frame}, Occurs start t → t.Adds f.outline → Q s →
    Q (s.push f)
  object : ∀ {s : Store} {c : Class} {frames : List Frame}, c.fieldFrames = .ok frames → Q s →
    Q (s.pushAll frames)
  write : ∀ {t : Task} {s s' : Store}, Occurs start t → t.machine.store.Preserves s →
    t.Writes s s' → Q s → Q s'

namespace Lasts

variable {start m : Machine} {Q : Store → Prop} {t u : Task}

theorem effects (hl : Lasts start Q) (ht : Occurs start t)
    (hparts : ∀ u, Starts t u → Q u.machine.store → Q u.final.store)
    (hq : Q t.machine.store) {s : Store} (h : Effects t t.machine.store s) :
    t.machine.store.Preserves s ∧ Q s := by
  induction h with
  | refl => exact ⟨.refl _, hq⟩
  | tail _ heffect ih =>
    obtain ⟨hpreserves, hs⟩ := ih
    refine ⟨hpreserves.trans heffect.preserves, ?_⟩
    cases heffect with
    | frame h => exact hl.frame ht h hs
    | object hc => exact hl.object hc hs
    | write h => exact hl.write ht hpreserves h hs
    | part h => exact hparts _ h hs

/-- By induction on the size of the task, for its parts are smaller. -/
theorem final (hl : Lasts start Q) (ht : Occurs start t) (hq : Q t.machine.store) :
    Q t.final.store := by
  induction hn : t.size using Nat.strongRecOn generalizing t with
  | _ n ih =>
    refine (hl.effects ht (fun u hu hstart => ?_) hq t.effects).2
    exact ih u.size (hn ▸ hu.size_lt) (ht.starts hu) hstart rfl

theorem starts (hl : Lasts start Q) (ht : Occurs start t) (h : Starts t u)
    (hq : Q t.machine.store) : Q u.machine.store :=
  (hl.effects ht (fun _ hw => hl.final (ht.starts hw)) hq h.effects).2

theorem reaches (hl : Lasts start Q) (ht : Occurs start t) (h : Reaches t u)
    (hq : Q t.machine.store) : Occurs start u ∧ Q u.machine.store := by
  induction h with
  | refl => exact ⟨ht, hq⟩
  | tail _ h ih => exact ⟨ih.1.starts h, hl.starts ih.1 h ih.2⟩

theorem launches (hl : Lasts start Q) {fuel : Nat} (h : Launches fuel m t) (hq : Q m.store) :
    Q t.machine.store := by
  obtain ⟨c, main, m₁, m₂, hc, hmain, rfl⟩ := h
  obtain ⟨r, -, rfl⟩ := Eval.building_eq_ok.mp hc
  obtain ⟨frames, m₃, hof, hk⟩ := bind_eq_ok.mp hmain
  obtain ⟨hframes, rfl⟩ := Eval.ofExcept_eq_ok.mp hof
  cases hk
  exact hl.object hframes hq

/-- A run makes an object and calls `main` on it, and after that only reads the message. -/
theorem run (hl : Lasts start Q) {fuel : Nat} (hm : ∀ t, Launches fuel m t → Occurs start t)
    (hq : Q m.store) : Q (after (Eval.run fuel) m).store := by
  have hrun : Confined (fun s s' => Q s → Q s') m (Eval.run fuel) := by
    refine (Confined.building _).bind fun c m₁ hc => ?_
    refine (Confined.create fun frames hf => hl.object hf).bind fun main m₂ hmain => ?_
    refine Confined.bind (.single ?_) fun v s _ => ?_
    · exact hl.final (hm ⟨fuel, .call main "main" [], m₂⟩ ⟨c, main, m₁, m₂, hc, hmain, rfl⟩)
    · split
      · exact (Confined.observes.ambientMessage _).bind fun _ _ _ => .pure _
      · exact .pure _
  have hkept : ∀ s, Relation.ReflTransGen (fun s s' => Q s → Q s') m.store s → Q s := by
    intro s h
    induction h with
    | refl => exact hq
    | tail _ h ih => exact h ih
  exact hkept _ hrun

theorem runs (hl : Lasts start Q) (hq : Q start.store) (fuels : List Nat) :
    Q (start.runs fuels).store := by
  induction fuels using List.reverseRecOn with
  | nil => exact hq
  | append_singleton fuels fuel ih =>
    have hruns : start.runs (fuels ++ [fuel]) = after (Eval.run fuel) (start.runs fuels) := by
      simp [Machine.runs]
    rw [hruns]
    exact hl.run (fun t ht => ⟨fuels, fuel, t, ht, .refl⟩) ih

end Lasts

/-- What lasts holds on all machines that the runs pass through. -/
theorem Reachable.lasts {start m : Machine} {Q : Store → Prop} (h : Reachable start m)
    (hl : Lasts start Q) (hq : Q start.store) : Q m.store := by
  have hoccurs : ∀ {t}, Occurs start t → Q t.machine.store := by
    rintro t ⟨fuels, fuel, launched, hlaunched, hr⟩
    have hfirst : Occurs start launched := ⟨fuels, fuel, launched, hlaunched, .refl⟩
    exact (hl.reaches hfirst hr (hl.launches hlaunched (hl.runs hq fuels))).2
  cases h with
  | idle fuels => exact hl.runs hq fuels
  | started h => exact hoccurs h
  | ended h => exact hl.final h (hoccurs h)

end ObjectLang
