import ObjectLang.Proofs.Location
import ObjectLang.Proofs.Message

/-!
What a running method has in scope: the fields of its receiver, the exception frame that was ambient
when it was called, its arguments, and a frame for each `let` and `try` that is open in its body.
The ambient frame is that of the innermost `try`, or else the one from the call.
-/

namespace ObjectLang

namespace Outline

def message : Outline := ⟨.exception, [(exceptionName, .string)]⟩

def arguments (params : List Param) : Outline :=
  ⟨.arguments, params.map fun p => (p.name, p.type)⟩

def locals (ls : List Local) : Outline := ⟨.locals, ls.map fun l => (l.name, l.type)⟩

end Outline

theorem outline_bindArguments {params : List Param} {vs : List Value}
    {bindings : List (String × Variable)} (h : bindArguments params vs = .ok bindings)
    (hlength : vs.length = params.length) :
    Frame.outline ⟨.arguments, bindings⟩ = .arguments params := by
  have hmap : bindings.map (fun b => (b.1, b.2.declared)) =
      params.map fun p => (p.name, p.type) := by
    induction params generalizing vs bindings with
    | nil =>
      cases h
      rfl
    | cons p ps ih =>
      cases vs with
      | nil => cases hlength
      | cons v vs =>
        obtain ⟨x, hx, h⟩ := except_bind_eq_ok.mp h
        obtain ⟨rest, hrest, rfl⟩ := except_map_eq_ok.mp h
        simp [Variable.create_declared hx, ih hrest (Nat.succ.inj hlength)]
  simp [Frame.outline, Outline.arguments, hmap]

theorem Eval.locals_outline {eval : Form → Eval Operand} {frame frame' : Frame} {ds : List Form}
    {m s : Machine} (h : locals eval frame ds m = .ok (some frame') s) :
    ∃ ls, ds.mapM Local.ofForm = .ok ls ∧ frame'.outline =
      ⟨frame.role, frame.outline.entries ++ ls.map fun l => (l.name, l.type)⟩ := by
  induction ds generalizing frame m with
  | nil =>
    cases h
    exact ⟨[], rfl, by simp [Frame.outline]⟩
  | cons d ds ih =>
    obtain ⟨l, x, m₁, hl, hx, h⟩ := locals_cons_eq_ok.mp h
    cases h with
    | inl h =>
      obtain ⟨-, h, -⟩ := h
      cases h
    | inr h =>
      obtain ⟨y, frame'', rfl, hd, h⟩ := h
      obtain ⟨ls, hls, houtline⟩ := ih h
      obtain ⟨hdeclared, -⟩ := initial_variable hx
      obtain ⟨-, rfl⟩ := Frame.define?_eq_some.mp hd
      refine ⟨l :: ls, ?_, ?_⟩
      · simp only [List.mapM_cons, hl, hls]
        rfl
      · rw [houtline]
        simp [Frame.outline, hdeclared]

/- The blocks of a method that are open. -/

/-- A block that is open in a running method, with its frame: a `let` with its declarations, or a
`try`, in its body or in its handler. -/
inductive Block where
  | locals (frame : FrameId) (decls : List Form)
  | attempt (frame : FrameId)

namespace Block

def frame : Block → FrameId
  | locals frame _ => frame
  | attempt frame => frame

def ambient (outer : FrameId) : Block → FrameId
  | locals _ _ => outer
  | attempt frame => frame

def ambientIn (outer : FrameId) : List Block → FrameId
  | [] => outer
  | b :: bs => b.ambient (ambientIn outer bs)

def Framed (s : Store) : Block → Prop
  | locals frame decls =>
    ∃ ls, decls.mapM Local.ofForm = .ok ls ∧ s.outline? frame = some (.locals ls)
  | attempt frame => s.outline? frame = some .message

theorem Framed.preserves {s s' : Store} {b : Block} (h : b.Framed s) (hs : s.Preserves s') :
    b.Framed s' := by
  cases b with
  | locals frame decls =>
    obtain ⟨ls, hls, ho⟩ := h
    exact ⟨ls, hls, hs _ _ ho⟩
  | attempt frame => exact hs _ _ h

end Block

inductive Calls : Task → Activation → Task → Prop
  | body (hs : m.registry.selectMethod? receiver name (vs.map Value.runtimeType) =
        some (view, method))
      (hl : m.atLimit? = none) (hb : bindArguments method.params vs = .ok bindings) :
      Calls ⟨n, .call receiver name vs, m⟩ ⟨view, method⟩
        ⟨n, .exec method.body, m.enterCall view method bindings⟩

inductive Opens : Task → Block → Task → Prop
  | inLet (hf : Statement.ofForm f = .bind decls (before ++ g :: rest))
      (hd : Eval.locals (eval n) (.empty .locals) decls m = .ok (some frame) m₁)
      (hb : Eval.block (exec n) before (m₁.enterLet frame) = .ok .normal m₂) :
      Opens ⟨n + 1, .exec f, m⟩ (.locals m₁.store.next decls) ⟨n, .exec g, m₂⟩
  | inTry (hf : Statement.ofForm f = .attempt g handler) :
      Opens ⟨n + 1, .exec f, m⟩ (.attempt m.store.next) ⟨n, .exec g, m.enterTry⟩
  | inHandler (hf : Statement.ofForm f = .attempt body g)
      (hb : exec n body m.enterTry = .ok .raised m₁) :
      Opens ⟨n + 1, .exec f, m⟩ (.attempt m.store.next) ⟨n, .exec g, m₁.enterHandler⟩

def Continues (t u : Task) : Prop := Awaits t u ∧ (∀ a, ¬ Calls t a u) ∧ ∀ b, ¬ Opens t b u

inductive Inside (body : Task) : List Block → Task → Prop
  | body : Inside body [] body
  | opened (h : Inside body blocks t) (hb : Opens t b u) : Inside body (b :: blocks) u
  | continued (h : Inside body blocks t) (hu : Continues t u) : Inside body blocks u

theorem Calls.starts (h : Calls t a u) : Starts t u := by
  obtain ⟨hs, hl, hb⟩ := h
  exact .awaits (.body hs hl hb)

theorem Opens.starts (h : Opens t b u) : Starts t u := by
  cases h with
  | inLet hf hd hb => exact .awaits (.inLet hf hd hb)
  | inTry hf => exact .guards (.body hf)
  | inHandler hf hb => exact .handles (.handler hf hb)

theorem Starts.cases (h : Starts t u) :
    (∃ a, Calls t a u) ∨ (∃ b, Opens t b u) ∨ Continues t u := by
  cases h with
  | awaits h =>
    by_cases hc : ∃ a, Calls t a u
    · exact .inl hc
    · by_cases ho : ∃ b, Opens t b u
      · exact .inr (.inl ho)
      · exact .inr (.inr ⟨h, not_exists.mp hc, not_exists.mp ho⟩)
  | guards h =>
    obtain ⟨hf⟩ := h
    exact .inr (.inl ⟨_, .inTry hf⟩)
  | handles h =>
    obtain ⟨hf, hb⟩ := h
    exact .inr (.inl ⟨_, .inHandler hf hb⟩)

/-- All that a call starts itself is the body of its method. -/
theorem Starts.calls (h : Starts ⟨n, .call receiver name vs, m⟩ u) :
    ∃ a, Calls ⟨n, .call receiver name vs, m⟩ a u := by
  cases h with
  | awaits h =>
    cases h with
    | body hs hl hb => exact ⟨_, .body hs hl hb⟩
  | guards h => cases h
  | handles h => cases h

theorem Continues.control (h : Continues t u) : u.machine.control = t.machine.control := by
  obtain ⟨ha, hcalls, hopens⟩ := h
  cases ha with
  | receiver | operand | left | assigned | test | result | message | expression => rfl
  | body hs hl hb => exact absurd (.body hs hl hb) (hcalls _)
  | inLet hf hd hb => exact absurd (.inLet hf hd hb) (hopens _)
  | argument _ hv hvs | invocation _ hv hvs =>
    exact ((Restores.pervasive.arguments (restores_eval _) _).of_ok hvs).trans hv.control
  | right _ ha => exact (restores_eval _ _).of_ok ha
  | printed _ hvs => exact (Restores.pervasive.arguments (restores_eval _) _).of_ok hvs
  | inBlock _ hb => exact (Restores.pervasive.block (restores_exec _) _).of_ok hb
  | consequent _ hc | alternative _ hc =>
    exact (Restores.pervasive.condition (restores_eval _) _ _).of_ok hc
  | loopTest _ hr => exact hr.control
  | loopBody _ hr _ hc =>
    exact ((Restores.pervasive.condition (restores_eval _) _ _).of_ok hc).trans hr.control
  | initializer _ hb _ _ ht =>
    exact ((Restores.building _).of_ok ht).trans
      ((Restores.pervasive.locals (restores_eval _) _ _).of_ok hb)

/-- A block puts its frame on the scopes of the code around it, and a `try` makes it ambient. -/
theorem Opens.control (h : Opens t b u) :
    u.machine.control.scopes = b.frame :: t.machine.control.scopes ∧
      u.machine.control.activation = t.machine.control.activation ∧
      u.machine.control.ambient = b.ambient t.machine.control.ambient := by
  cases h with
  | @inLet _ _ _ _ _ n m frame m₁ m₂ _ hd hb =>
    have hlocals := (Restores.pervasive.locals (restores_eval _) _ _).of_ok hd
    have hcontrol : m₂.control = m.control.enterScope m₁.store.next := by
      rw [(Restores.pervasive.block (restores_exec _) _).of_ok hb, ← hlocals]
      rfl
    simp only [hcontrol]
    exact ⟨rfl, rfl, rfl⟩
  | inTry => exact ⟨rfl, rfl, rfl⟩
  | @inHandler _ _ _ n m₁ m _ hb =>
    have hcontrol : m₁.control = m.control.enterTry m.store.next := (restores_exec _ _).of_ok hb
    simp only [Machine.enterHandler, hcontrol]
    exact ⟨rfl, rfl, rfl⟩

theorem Opens.framed (h : Opens t b u) : b.Framed u.machine.store := by
  cases h with
  | @inLet _ _ _ _ _ _ _ frame m₁ m₂ _ hd hb =>
    obtain ⟨ls, hls, houtline⟩ := Eval.locals_outline hd
    obtain ⟨hand, hsteps⟩ : ∃ hand, Steps ⟨m₁.enterLet frame, [], []⟩ ⟨m₂, [], hand⟩ :=
      steps_block hb
    have hframe : (m₁.enterLet frame).store.outline? m₁.store.next = some (.locals ls) := by
      rw [Machine.enterLet, Store.outline?_push_next, houtline]
      rfl
    exact ⟨ls, hls, hsteps.preserves _ _ hframe⟩
  | inTry => exact Store.outline?_push_next _ _
  | inHandler _ hb =>
    obtain ⟨hand, hsteps, -⟩ := (traces_exec _ _ _).steps (k := []) (List.nil_subset []) hb
    exact hsteps.preserves _ _ (Store.outline?_push_next _ _)

/- The frames that runs have in scope. -/

def Moment.Ambient (p : Moment) : Prop :=
  ∀ c ∈ p.machine.control :: p.waiting, p.machine.store.outline? c.ambient = some .message

theorem Step.ambient {p q : Moment} (h : Step p q) (hp : p.Ambient) : q.Ambient := by
  have hall : ∀ c ∈ p.machine.control :: p.waiting,
      q.machine.store.outline? c.ambient = some .message :=
    fun c hc => h.preserves _ _ (hp c hc)
  have hcontrol := (List.forall_mem_cons.mp hall).1
  cases h with
  | print | read | resolve | plain | look | self | create | assign | raise | raiseAmbient =>
    exact hall
  | enterLet | enterHandler | enterCall => exact List.forall_mem_cons.mpr ⟨hcontrol, hall⟩
  | enterTry => exact List.forall_mem_cons.mpr ⟨Store.outline?_push_next _ _, hall⟩
  | leave c => exact (List.forall_mem_cons.mp hall).2

theorem ambient_start (r : Registry) (sink : Sink) (source : Source) (limit : Option Nat) :
    Moment.Ambient ⟨Machine.start r sink source limit, [], []⟩ := by
  intro c hc
  rw [List.mem_singleton.mp hc]
  rfl

/-- The scopes of a method that was entered by `call`, inside these blocks of its body. -/
structure Stacked (call : Task) (a : Activation) (blocks : List Block) (m : Machine) : Prop where
  scopes : m.control.scopes = blocks.map Block.frame ++
    [call.machine.store.next, call.machine.control.ambient, a.receiver.frame]
  ambient : m.control.ambient = Block.ambientIn call.machine.control.ambient blocks
  fields : m.store.outline? a.receiver.frame = some (.fields a.receiver.cls)
  outer : m.store.outline? call.machine.control.ambient = some .message
  arguments : m.store.outline? call.machine.store.next = some (.arguments a.method.params)
  framed : ∀ b ∈ blocks, b.Framed m.store

namespace Stacked

variable {call t u : Task} {a : Activation} {b : Block} {blocks : List Block} {m m' : Machine}

theorem preserves (h : Stacked call a blocks m) (hc : m'.control = m.control)
    (hs : m.store.Preserves m'.store) : Stacked call a blocks m' where
  scopes := by rw [hc]; exact h.scopes
  ambient := by rw [hc]; exact h.ambient
  fields := hs _ _ h.fields
  outer := hs _ _ h.outer
  arguments := hs _ _ h.arguments
  framed b hb := (h.framed b hb).preserves hs

theorem opened (h : Stacked call a blocks t.machine) (hb : Opens t b u)
    (hs : t.machine.store.Preserves u.machine.store) :
    Stacked call a (b :: blocks) u.machine := by
  obtain ⟨hscopes, -, hambient⟩ := hb.control
  refine ⟨?_, ?_, hs _ _ h.fields, hs _ _ h.outer, hs _ _ h.arguments, ?_⟩
  · rw [hscopes, h.scopes]
    rfl
  · rw [hambient, h.ambient]
    rfl
  · exact List.forall_mem_cons.mpr ⟨hb.framed, fun c hc => (h.framed c hc).preserves hs⟩

/-- Above the ambient frame there are only arguments and locals in scope. -/
theorem nearest (h : Stacked call a blocks m) :
    m.store.outline? m.control.ambient = some .message ∧
      ∃ above below, m.control.scopes = above ++ m.control.ambient :: below ∧
        ∀ i ∈ above, ∃ o, m.store.outline? i = some o ∧ o.role.isLocal = true := by
  obtain ⟨hscopes, hambient, -, houter, harguments, hframed⟩ := h
  rw [hscopes, hambient]
  clear hscopes hambient
  -- From the innermost block outward, up to the first `try`.
  induction blocks with
  | nil =>
    refine ⟨houter, [call.machine.store.next], [a.receiver.frame], rfl, ?_⟩
    intro i hi
    rw [List.mem_singleton.mp hi]
    exact ⟨_, harguments, rfl⟩
  | cons b blocks ih =>
    rw [List.forall_mem_cons] at hframed
    cases b with
    | locals frame decls =>
      obtain ⟨hmessage, above, below, heq, hlocal⟩ := ih hframed.2
      obtain ⟨ls, -, ho⟩ := hframed.1
      refine ⟨hmessage, frame :: above, below, ?_, ?_⟩
      · rw [List.map_cons, List.cons_append, heq]
        rfl
      · exact List.forall_mem_cons.mpr ⟨⟨_, ho, rfl⟩, hlocal⟩
    | attempt frame => exact ⟨hframed.1, [], _, rfl, by simp⟩

end Stacked

section Runs

variable {start : Machine} (hlocated : Moment.Located ⟨start, [], []⟩)
  (hambient : Moment.Ambient ⟨start, [], []⟩)

theorem Occurs.preserves {t u : Task} (ht : Occurs start t) (h : Starts t u) :
    t.machine.store.Preserves u.machine.store := by
  obtain ⟨k, hand, -, hready⟩ := ht.steps
  obtain ⟨k', hand', hsteps, -⟩ := h.leads k hand hready
  exact hsteps.preserves

include hlocated hambient in
theorem Calls.stacked {call body : Task} {a : Activation} (h : Calls call a body)
    (hcall : Occurs start call) : Stacked call a [] body.machine := by
  obtain ⟨k, hand, hsteps, -⟩ := hcall.steps
  have houter := hsteps.keeps (fun _ _ => Step.ambient) hambient _ List.mem_cons_self
  obtain ⟨k', hand', hsteps', -⟩ := (hcall.starts h.starts).steps
  have hbody := hsteps'.keeps (fun _ _ => Step.located) hlocated
  have hstore := hcall.preserves h.starts
  cases h with
  | body hs hl hb =>
    obtain ⟨-, -, -, hlength⟩ := Registry.selectMethod?_spec hs
    have houtline := outline_bindArguments hb (by simpa using hlength)
    refine ⟨rfl, rfl, ?_, hstore _ _ houter, ?_, by simp⟩
    · exact (hbody.receivers _ List.mem_cons_self _ rfl).frame
    · rw [← houtline]
      exact Store.outline?_push_next _ _

include hlocated hambient in
/-- Along the body of a method, from task to task, the scopes follow the blocks. -/
theorem Inside.stacked {call body t : Task} {a : Activation} {blocks : List Block}
    (h : Inside body blocks t) (hcall : Occurs start call) (hbody : Calls call a body) :
    Occurs start t ∧ t.machine.control.activation = some a ∧
      Stacked call a blocks t.machine := by
  induction h with
  | body =>
    refine ⟨hcall.starts hbody.starts, ?_, hbody.stacked hlocated hambient hcall⟩
    cases hbody
    rfl
  | opened _ hb ih =>
    obtain ⟨ht, hactive, hstacked⟩ := ih
    obtain ⟨-, hactivation, -⟩ := hb.control
    have hs := ht.preserves hb.starts
    exact ⟨ht.starts hb.starts, hactivation.trans hactive, hstacked.opened hb hs⟩
  | continued _ hu ih =>
    obtain ⟨ht, hactive, hstacked⟩ := ih
    have hs := ht.preserves (.awaits hu.1)
    refine ⟨ht.starts (.awaits hu.1), ?_, hstacked.preserves hu.control hs⟩
    rw [hu.control]
    exact hactive

/-- Every task of a run but the first call is a part of the body of some method. -/
theorem Occurs.inside {t : Task} (h : Occurs start t) :
    (∃ fuels fuel, Launches fuel (start.runs fuels) t) ∨
      ∃ call a body blocks, Occurs start call ∧ Calls call a body ∧ Inside body blocks t := by
  obtain ⟨fuels, fuel, launched, hl, hr⟩ := h
  -- A call starts a body in no block; anything else goes on where the task before it was.
  induction hr with
  | refl => exact .inl ⟨fuels, fuel, hl⟩
  | @tail t u hreach hstep ih =>
    have ht : Occurs start t := ⟨fuels, fuel, launched, hl, hreach⟩
    obtain ⟨a, hc⟩ | hrest := hstep.cases
    · exact .inr ⟨t, a, u, [], ht, hc, .body⟩
    · obtain ⟨fuels, fuel, hfirst⟩ | ⟨call, a, body, blocks, hcall, hc, hin⟩ := ih
      · obtain ⟨c, main, m₁, m₂, -, -, rfl⟩ := hfirst
        obtain ⟨a, hc⟩ := hstep.calls
        exact .inr ⟨_, a, u, [], ht, hc, .body⟩
      · obtain ⟨b, hb⟩ | hu := hrest
        · exact .inr ⟨call, a, body, b :: blocks, hcall, hc, hin.opened hb⟩
        · exact .inr ⟨call, a, body, blocks, hcall, hc, hin.continued hu⟩

theorem Launches.control {fuel : Nat} {m : Machine} {t : Task} (h : Launches fuel m t) :
    t.machine.control = m.control := by
  obtain ⟨c, main, m₁, m₂, hc, hmain, rfl⟩ := h
  exact ((Restores.pervasive.create c).of_ok hmain).trans ((Restores.building _).of_ok hc)

end Runs

/-- The machines on which a task starts, which it leaves, and on which a `try` hands the message of
its handler on. The operand of a `throw` leaves the machine on which its message is written. -/
inductive Task.Passes (t : Task) : Machine → Prop
  | started : t.Passes t.machine
  | ended : t.Passes t.final
  | handsOn (h : Handles t u) (hu : u.RaisesIn s) :
      t.Passes { s with control := t.machine.control }

theorem Task.control_final (t : Task) : t.final.control = t.machine.control := by
  obtain ⟨n, work, m⟩ := t
  cases work with
  | eval f => exact (restores_eval n f).after m
  | exec f => exact (restores_exec n f).after m
  | call receiver name vs =>
    exact (Restores.pervasive.callMethod (restores_exec n) receiver name vs).after m

theorem Task.Passes.control {t : Task} {m : Machine} (h : t.Passes m) :
    m.control = t.machine.control := by
  cases h with
  | started => rfl
  | ended => exact t.control_final
  | handsOn => rfl

theorem Task.Passes.preserves {start m : Machine} {t : Task} (h : t.Passes m)
    (ht : Occurs start t) : t.machine.store.Preserves m.store := by
  obtain ⟨k, hand, -, hready⟩ := ht.steps
  cases h with
  | started => exact .refl _
  | ended =>
    obtain ⟨hand', hsteps⟩ := hready.final
    exact hsteps.preserves
  | handsOn h hu =>
    obtain ⟨hand', hsteps⟩ := h.steps hu k hand
    exact hsteps.preserves

/- Where a message is written. -/

theorem Store.get?_message {s : Store} {i : FrameId} (h : s.outline? i = some .message) :
    ∃ x, s.get? i exceptionName = some x := by
  obtain ⟨f, hf, houtline⟩ := Option.map_eq_some_iff.mp h
  have hlookup := f.lookup_outline exceptionName
  rw [houtline] at hlookup
  obtain ⟨x, hx, -⟩ := Option.map_eq_some_iff.mp hlookup.symm
  exact ⟨x, by simp [Store.get?, hf, hx]⟩

theorem Store.contains_message {s : Store} {scopes above below : Scopes} {i : FrameId}
    (hs : scopes = above ++ i :: below) (h : s.outline? i = some .message) :
    s.contains scopes exceptionName = true := by
  obtain ⟨x, hx⟩ := get?_message h
  simp [contains, hs, hx]

/-- A write to a frame that is not one of fields leaves all fields as they are. -/
theorem Store.frame?_set_of_role {s : Store} {i : FrameId} {o : Outline}
    (ho : s.outline? i = some o) (hr : ∀ cls, o.role ≠ .fields cls) (name : String) (y : Variable)
    {j : FrameId} {f : Frame} {cls : Class} (hf : s.frame? j = some f)
    (hcls : f.role = .fields cls) : (s.set i name y).frame? j = some f := by
  have hne : j ≠ i := by
    intro hij
    rw [← hij, Store.outline?, hf] at ho
    cases ho
    exact hr cls hcls
  rw [frame?_set_of_ne s hne, hf]

/-- The nearest variable for messages is that of the ambient frame, or one above it. -/
theorem Store.assignment_nearest {s : Store} {v : Value} {i j : FrameId} {x y : Variable}
    {above below : Scopes} (hx : s.get? i exceptionName = some x)
    (h : s.assignment exceptionName v (above ++ i :: below) = .ok (j, y)) :
    (j = i ∧ ∀ k ∈ above, s.get? k exceptionName = none) ∨
      j ∈ above ∧ (s.get? j exceptionName).isSome := by
  obtain ⟨above', below', z, heq, hnone, hz, -⟩ := assignment_eq_ok h
  obtain ⟨l, habove, hrest⟩ | ⟨l, habove, hrest⟩ := List.append_eq_append_iff.mp heq
  · cases l with
    | nil =>
      cases hrest
      rw [List.append_nil] at habove
      exact .inl ⟨rfl, habove ▸ hnone⟩
    | cons k l =>
      cases hrest
      rw [hnone i (by simp [habove])] at hx
      cases hx
  · cases l with
    | nil =>
      cases hrest
      rw [List.append_nil] at habove
      exact .inl ⟨rfl, habove ▸ hnone⟩
    | cons k l =>
      cases hrest
      exact .inr ⟨by simp [habove], by simp [hz]⟩

/-- The ambient frame is not looked at when a variable for messages is in scope. -/
theorem Eval.raise_of_contains {m : Machine} {v : Value}
    (h : m.store.contains m.control.scopes exceptionName = true) :
    raise v m = assign exceptionName v m := by
  refine (bind_ok (x := get) rfl _).trans ?_
  simp only [h, if_true]

/-- A write that is refused changes nothing. Any other goes to the ambient frame, or to a frame
above it that has a variable of the name. -/
theorem Eval.raise_cases {m : Machine} {above below : Scopes} (v : Value)
    (hs : m.control.scopes = above ++ m.control.ambient :: below)
    (ho : m.store.outline? m.control.ambient = some .message) :
    (∃ e, raise v m = .error e m) ∨ ∃ i y,
      raise v m = .ok () { m with store := m.store.set i exceptionName y } ∧
      ((i = m.control.ambient ∧ ∀ j ∈ above, m.store.get? j exceptionName = none) ∨
        i ∈ above ∧ (m.store.get? i exceptionName).isSome) := by
  obtain ⟨x, hx⟩ := Store.get?_message ho
  have hcontains := Store.contains_message hs ho
  rw [raise_of_contains hcontains]
  cases ha : m.store.assignment exceptionName v m.control.scopes with
  | error e =>
    refine .inl ?_
    cases e with
    | undefined =>
      refine ⟨.failed (.undefinedVariable exceptionName), (bind_ok (x := get) rfl _).trans ?_⟩
      simp only [ha]
      rfl
    | rejected e =>
      refine ⟨.failed e, (bind_ok (x := get) rfl _).trans ?_⟩
      simp only [ha]
      rfl
  | ok target =>
    obtain ⟨i, y⟩ := target
    refine .inr ⟨i, y, (bind_ok (x := get) rfl _).trans ?_, ?_⟩
    · simp only [ha]
      rfl
    · rw [hs] at ha
      exact Store.assignment_nearest hx ha

/-- While a method runs, its scopes are the frames of the blocks that are open in its body, the
innermost first, then its arguments with their declared types, the exception frame that was ambient
when it was called, and the fields of its receiver at the level that declares the method. The
ambient frame is in scope, it holds messages, and the frames above it are those of arguments and
locals. So a message is written to the ambient frame unless one of these has a variable of the name,
and never to a field. -/
theorem scopes_follow_the_blocks {r : Registry} {sink : Sink} {source : Source}
    {limit : Option Nat} {t : Task} {m : Machine} {a : Activation}
    (ht : Occurs (Machine.start r sink source limit) t) (hm : t.Passes m)
    (ha : m.control.activation = some a) :
    (∃ call body blocks, Occurs (Machine.start r sink source limit) call ∧ Calls call a body ∧
      Inside body blocks t ∧ Stacked call a blocks m) ∧
    ∃ above below, m.control.scopes = above ++ m.control.ambient :: below ∧
      m.store.outline? m.control.ambient = some .message ∧
      (∀ i ∈ above, ∃ o, m.store.outline? i = some o ∧ o.role.isLocal = true) ∧
      ∀ v, (∃ e, Eval.raise v m = .error e m) ∨ ∃ i y,
        Eval.raise v m = .ok () { m with store := m.store.set i exceptionName y } ∧
        ((i = m.control.ambient ∧ ∀ j ∈ above, m.store.get? j exceptionName = none) ∨
          i ∈ above ∧ (m.store.get? i exceptionName).isSome) ∧
        ∀ j f cls, m.store.frame? j = some f → f.role = .fields cls →
          (m.store.set i exceptionName y).frame? j = some f := by
  have hlocated := located_start r sink source limit
  have hambient := ambient_start r sink source limit
  have hcontrol := hm.control
  obtain ⟨fuels, fuel, hl⟩ | ⟨call, a', body, blocks, hcall, hc, hin⟩ := ht.inside
  · rw [hcontrol, hl.control, control_runs] at ha
    cases ha
  · obtain ⟨-, hactive, hstacked⟩ := hin.stacked hlocated hambient hcall hc
    rw [hcontrol, hactive] at ha
    cases ha
    have hstacked := hstacked.preserves hcontrol (hm.preserves ht)
    obtain ⟨hmessage, above, below, hscopes, hlocal⟩ := hstacked.nearest
    refine ⟨⟨call, body, blocks, hcall, hc, hin, hstacked⟩, above, below, hscopes, hmessage,
      hlocal, ?_⟩
    intro v
    refine (Eval.raise_cases v hscopes hmessage).imp_right ?_
    rintro ⟨i, y, hraise, htarget⟩
    refine ⟨i, y, hraise, htarget, ?_⟩
    intro j f cls hf hcls
    obtain ⟨rfl, -⟩ | ⟨hi, -⟩ := htarget
    · exact Store.frame?_set_of_role hmessage nofun _ _ hf hcls
    · obtain ⟨o, ho, hrole⟩ := hlocal i hi
      refine Store.frame?_set_of_role ho ?_ _ _ hf hcls
      intro cls' heq
      rw [heq] at hrole
      cases hrole

/-- In the sample, the body of the `try` in `main` has the frame of the `try` in scope, then the
arguments, the first frame of all and the fields of the object. -/
theorem sample_scopes_follow_the_blocks :
    Occurs Sample.start ⟨7, .exec Sample.print, Sample.entered.enterTry⟩ ∧
      Sample.entered.enterTry.control.scopes = [3, 2, 0, 1] ∧
      ∃ call body blocks, Calls call ⟨⟨1, Sample.cls, []⟩, Sample.running⟩ body ∧
        Inside body blocks ⟨7, .exec Sample.print, Sample.entered.enterTry⟩ ∧
        Stacked call ⟨⟨1, Sample.cls, []⟩, Sample.running⟩ blocks Sample.entered.enterTry := by
  have hbody : Guards ⟨8, .exec Sample.running.body, Sample.entered⟩
      ⟨7, .exec Sample.print, Sample.entered.enterTry⟩ :=
    .body (Eq.refl (Statement.ofForm Sample.body))
  have ht := Sample.occurs_main.starts (.guards hbody)
  obtain ⟨⟨call, body, blocks, -, hcall, hin, hstacked⟩, -⟩ :=
    scopes_follow_the_blocks ht .started rfl
  exact ⟨ht, rfl, call, body, blocks, hcall, hin, hstacked⟩

end ObjectLang
