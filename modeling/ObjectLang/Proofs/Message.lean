import ObjectLang.Proofs.Origin

/-!
Messages: where a `throw` writes its message, and what the handler reads. The message goes to the
nearest variable of its name, which is that of the ambient frame unless a parameter or a local
variable has taken the name.
-/

namespace ObjectLang

def FrameRole.isLocal : FrameRole → Bool
  | .arguments | .locals => true
  | _ => false

def Control.nearer (c : Control) : Scopes := c.scopes.takeWhile (· != c.ambient)

/-- A parameter or local variable that is nearer than the ambient frame has the name of the
message. -/
def Machine.Shadowed (m : Machine) : Prop :=
  ∃ i ∈ m.control.nearer, ∃ f, m.store.frame? i = some f ∧ f.role.isLocal = true ∧
    f.binds exceptionName = true

/-- What was thrown arrives in the ambient frame after these writes, the last one first: each write
carries the message on, or is shadowed and leaves a frame that already held it. -/
def Delivered (v : Value) : List Machine → Prop
  | [] => True
  | w :: earlier => (w.Shadowed ∧ w.message = v) ∨ (¬ w.Shadowed ∧ Delivered v earlier)

theorem delivered_of_clear {v : Value} {writes : List Machine} (h : ∀ w ∈ writes, ¬ w.Shadowed) :
    Delivered v writes := by
  induction writes with
  | nil => trivial
  | cons w earlier ih =>
    rw [List.forall_mem_cons] at h
    exact .inr ⟨h.1, ih h.2⟩

/- Where the ambient frame stands. -/

namespace Control

theorem nearer_enterScope {c : Control} {frame : FrameId} (h : frame ≠ c.ambient) :
    (c.enterScope frame).nearer = frame :: c.nearer := by
  simp [nearer, enterScope, h]

theorem nearer_enterTry (c : Control) (frame : FrameId) : (c.enterTry frame).nearer = [] := by
  simp [nearer, enterTry]

theorem nearer_enterCall {c : Control} {frame : FrameId} (h : frame ≠ c.ambient) (view : View)
    (method : Method) : (c.enterCall view method frame).nearer = [frame] := by
  simp [nearer, enterCall, h]

end Control

structure Control.Placed (s : Store) (c : Control) : Prop where
  ambient : ∃ f x, s.frame? c.ambient = some f ∧ f.get? exceptionName = some x ∧
    x.declared = .string
  nearer : ∀ i ∈ c.nearer, ∃ f, s.frame? i = some f ∧ f.role.isLocal = true

namespace Control.Placed

variable {s s' : Store} {c : Control}

theorem preserves (h : c.Placed s) (hr : s.Preserves s') : c.Placed s' := by
  constructor
  · obtain ⟨f, x, hf, hx, hd⟩ := h.ambient
    obtain ⟨f', hf', -, hget⟩ := hr.frame? hf
    obtain ⟨x', hx', hd'⟩ := hget _ x hx
    exact ⟨f', x', hf', hx', hd'.trans hd⟩
  · intro i hi
    obtain ⟨f, hf, hl⟩ := h.nearer i hi
    obtain ⟨f', hf', hrole, -⟩ := hr.frame? hf
    exact ⟨f', hf', by rwa [hrole]⟩

theorem ambient_ne_next (h : c.Placed s) : s.next ≠ c.ambient := by
  obtain ⟨f, x, hf, -⟩ := h.ambient
  exact Nat.ne_of_gt (Store.lt_next_of_frame? hf)

theorem enterScope (h : c.Placed s) {frame : Frame} (hf : frame.role.isLocal = true) :
    (c.enterScope s.next).Placed (s.push frame) := by
  have hr := h.preserves (.push s frame)
  refine ⟨hr.ambient, fun i hi => ?_⟩
  rw [nearer_enterScope h.ambient_ne_next] at hi
  cases List.mem_cons.mp hi with
  | inl h =>
    subst h
    exact ⟨frame, Store.frame?_push_next s frame, hf⟩
  | inr hi => exact hr.nearer i hi

theorem enterTry (c : Control) (s : Store) :
    (c.enterTry s.next).Placed (s.push .forException) := by
  refine ⟨⟨_, _, Store.frame?_push_next s .forException, rfl, rfl⟩, fun i hi => ?_⟩
  rw [nearer_enterTry] at hi
  cases hi

theorem enterCall (h : c.Placed s) (view : View) (method : Method) {frame : Frame}
    (hf : frame.role.isLocal = true) :
    (c.enterCall view method s.next).Placed (s.push frame) := by
  have hr := h.preserves (.push s frame)
  refine ⟨hr.ambient, fun i hi => ?_⟩
  rw [nearer_enterCall h.ambient_ne_next, List.mem_singleton] at hi
  rw [hi]
  exact ⟨frame, Store.frame?_push_next s frame, hf⟩

end Control.Placed

def Moment.Placed (p : Moment) : Prop :=
  ∀ c ∈ p.machine.control :: p.waiting, c.Placed p.machine.store

theorem Moment.Placed.preserves {p : Moment} {s : Store} (h : p.Placed)
    (hr : p.machine.store.Preserves s) : ∀ c ∈ p.machine.control :: p.waiting, c.Placed s :=
  fun c hc => (h c hc).preserves hr

theorem Step.placed {p q : Moment} (h : Step p q) (hp : p.Placed) : q.Placed := by
  have hwaiting := hp.preserves h.preserves
  have hcontrol := hp _ List.mem_cons_self
  cases h with
  | print | read | resolve | plain | look | self | create | assign | raise | raiseAmbient =>
    exact hwaiting
  | enterLet hr =>
    exact List.forall_mem_cons.mpr ⟨hcontrol.enterScope (by rw [hr]; rfl), hwaiting⟩
  | enterTry => exact List.forall_mem_cons.mpr ⟨.enterTry _ _, hwaiting⟩
  | enterHandler => exact List.forall_mem_cons.mpr ⟨⟨hcontrol.ambient, hcontrol.nearer⟩, hwaiting⟩
  | enterCall => exact List.forall_mem_cons.mpr ⟨hcontrol.enterCall _ _ rfl, hwaiting⟩
  | leave c => exact (List.forall_mem_cons.mp hwaiting).2

theorem placed_start (r : Registry) (sink : Sink) (source : Source) (limit : Option Nat) :
    Moment.Placed ⟨Machine.start r sink source limit, [], []⟩ := by
  intro c hc
  rw [List.mem_singleton.mp hc]
  exact ⟨⟨_, _, rfl, rfl, rfl⟩, fun i hi => by cases hi⟩

/- What a write does to the message of the ambient frame. -/

theorem TypeTag.string_of_admits {v : Value} (h : TypeTag.string.admits v = true) :
    ∃ text, v = .string text := by
  cases v <;> first | exact ⟨_, rfl⟩ | cases h

theorem mem_of_mem_takeWhile_append {α : Type} {p : α → Bool} {a i : α} {above below : List α}
    (ha : p a = false) (h : i ∈ (above ++ a :: below).takeWhile p) : i ∈ above := by
  induction above with
  | nil => simp [ha] at h
  | cons b above ih =>
    rw [List.cons_append, List.takeWhile_cons] at h
    split at h
    · cases List.mem_cons.mp h with
      | inl h =>
        subst h
        exact List.mem_cons_self
      | inr h => exact List.mem_cons_of_mem b (ih h)
    · cases h

/-- The scopes are the nearer frames, followed by the ambient frame unless that is not in scope. -/
theorem Control.scopes_eq (c : Control) :
    c.scopes = c.nearer ∨ ∃ below, c.scopes = c.nearer ++ c.ambient :: below := by
  have hsplit : c.nearer ++ c.scopes.dropWhile (· != c.ambient) = c.scopes :=
    List.takeWhile_append_dropWhile
  cases hrest : c.scopes.dropWhile (· != c.ambient) with
  | nil =>
    rw [hrest, List.append_nil] at hsplit
    exact .inl hsplit.symm
  | cons i below =>
    have hi : i = c.ambient := by
      have hhead := List.head_dropWhile_not (· != c.ambient) (l := c.scopes) (by simp [hrest])
      simpa [hrest] using hhead
    rw [hrest, hi] at hsplit
    exact .inr ⟨below, hsplit.symm⟩

theorem Control.Placed.unbound {m : Machine} (hp : m.control.Placed m.store)
    (h : ¬ m.Shadowed) : ∀ i ∈ m.control.nearer, m.store.get? i exceptionName = none := by
  intro i hi
  obtain ⟨f, hf, hl⟩ := hp.nearer i hi
  cases hx : m.store.get? i exceptionName with
  | none => rfl
  | some x =>
    refine absurd ⟨i, hi, f, hf, hl, ?_⟩ h
    simpa [Frame.binds, Store.get?, hf] using congrArg Option.isSome hx

theorem Machine.Shadowed.bound {m : Machine} (h : m.Shadowed) :
    ∃ i ∈ m.control.nearer, ∃ x, m.store.get? i exceptionName = some x := by
  obtain ⟨i, hi, f, hf, -, hb⟩ := h
  obtain ⟨x, hx⟩ := Option.isSome_iff_exists.mp hb
  exact ⟨i, hi, x, by rw [Store.get?, hf]; exact hx⟩

theorem Control.Placed.get? {m : Machine} (hp : m.control.Placed m.store) :
    ∃ x, m.store.get? m.control.ambient exceptionName = some x ∧ x.declared = .string := by
  obtain ⟨f, x, hf, hx, hd⟩ := hp.ambient
  exact ⟨x, by rw [Store.get?, hf]; exact hx, hd⟩

/-- A write goes to the nearest variable for messages in scope, or else to that of the ambient
frame. -/
theorem Eval.raise_ok {v : Value} {m s : Machine} (h : raise v m = .ok () s) :
    (∃ i y, m.store.assignment exceptionName v m.control.scopes = .ok (i, y) ∧
      s = { m with store := m.store.set i exceptionName y }) ∨
    m.store.contains m.control.scopes exceptionName = false ∧
      ∀ x, m.store.get? m.control.ambient exceptionName = some x →
        ∃ y, x.assign v = .ok y ∧
          s = { m with store := m.store.set m.control.ambient exceptionName y } := by
  obtain ⟨m₁, m₂, hget, hk⟩ := bind_eq_ok.mp h
  cases hget
  cases hc : m.store.contains m.control.scopes exceptionName with
  | true =>
    rw [hc] at hk
    obtain ⟨m₃, m₄, hget, hk⟩ := bind_eq_ok.mp hk
    cases hget
    cases ha : m.store.assignment exceptionName v m.control.scopes with
    | ok p =>
      rw [ha] at hk
      cases hk
      exact .inl ⟨p.1, p.2, rfl, rfl⟩
    | error e =>
      rw [ha] at hk
      cases e <;> cases hk
  | false =>
    rw [hc] at hk
    refine .inr ⟨rfl, fun x hx => ?_⟩
    simp only [Bool.false_eq_true, ite_false, hx] at hk
    obtain ⟨y, m₃, hy, hset⟩ := bind_eq_ok.mp hk
    obtain ⟨hassign, rfl⟩ := ofExcept_eq_ok.mp hy
    cases hset
    exact ⟨y, hassign, rfl⟩

theorem Store.message_eq {s : Store} {frame : FrameId} {x : Variable}
    (h : s.get? frame exceptionName = some x) : s.message frame = x.value := by
  simp [message, h]

theorem Machine.message_set_ambient {m : Machine} {v : Value} {x y : Variable}
    (hx : m.store.get? m.control.ambient exceptionName = some x) (hd : x.declared = .string)
    (hy : x.assign v = .ok y) :
    Machine.message { m with store := m.store.set m.control.ambient exceptionName y } = v := by
  obtain ⟨hadmits, rfl⟩ := Variable.assign_eq_ok.mp hy
  rw [hd] at hadmits
  obtain ⟨text, rfl⟩ := TypeTag.string_of_admits hadmits
  exact Store.message_eq (Store.get?_set_self hx)

/-- A shadowed write does not reach the ambient frame. -/
theorem message_of_shadowed {v : Value} {m s : Machine} (hm : m.Shadowed)
    (h : Eval.raise v m = .ok () s) : s.message = m.message := by
  obtain ⟨i, hi, x, hx⟩ := hm.bound
  have hscopes : i ∈ m.control.scopes := List.takeWhile_subset _ hi
  cases Eval.raise_ok h with
  | inl h =>
    obtain ⟨j, y, ha, rfl⟩ := h
    obtain ⟨above, below, z, heq, hnone, -⟩ := Store.assignment_eq_ok ha
    have hj : m.control.ambient ≠ j := by
      intro h
      subst h
      rw [Control.nearer, heq] at hi
      rw [hnone i (mem_of_mem_takeWhile_append (by simp) hi)] at hx
      cases hx
    unfold Machine.message Store.message
    rw [Store.get?_set_of_ne m.store hj]
  | inr h =>
    obtain ⟨hc, -⟩ := h
    rw [Store.contains_eq_false.mp hc i hscopes] at hx
    cases hx

/-- Any other write leaves the message there. -/
theorem message_of_clear {v : Value} {m s : Machine} (hp : m.control.Placed m.store)
    (hm : ¬ m.Shadowed) (h : Eval.raise v m = .ok () s) : s.message = v := by
  obtain ⟨x, hx, hd⟩ := hp.get?
  have hnearer := hp.unbound hm
  cases Eval.raise_ok h with
  | inl h =>
    obtain ⟨i, y, ha, rfl⟩ := h
    cases m.control.scopes_eq with
    | inl heq =>
      rw [heq, ← List.append_nil m.control.nearer, Store.assignment_append hnearer] at ha
      cases ha
    | inr h =>
      obtain ⟨below, heq⟩ := h
      rw [heq, Store.assignment_append hnearer, Store.assignment, hx] at ha
      cases hy : x.assign v with
      | error e =>
        simp only [hy] at ha
        cases ha
      | ok z =>
        simp only [hy] at ha
        cases ha
        exact Machine.message_set_ambient hx hd hy
  | inr h =>
    obtain ⟨-, hambient⟩ := h
    obtain ⟨y, hy, rfl⟩ := hambient x hx
    exact Machine.message_set_ambient hx hd hy

/- From the `throw` to the frame that the handler reads. -/

theorem Rounds.control {n k : Nat} {test body : Form} {m m₁ : Machine}
    (h : Rounds n test body k m m₁) : m₁.control = m.control := by
  induction h with
  | none => rfl
  | more htest hbody _ ih =>
    rw [ih, (restores_exec n body).of_ok hbody]
    exact (Restores.pervasive.condition (restores_eval n) _ test).of_ok htest

theorem Target.Gives.control {n : Nat} {m m₁ : Machine} {v : View} {target : Target}
    (h : target.Gives n m m₁ v) : m₁.control = m.control := by
  cases target with
  | super => exact Restores.pervasive.superView.of_ok h
  | value f =>
    obtain ⟨a, ha, -⟩ := h
    exact (restores_eval n f).of_ok ha

/-- Tasks that wait for each other share the ambient frame. -/
theorem Awaits.ambient {t u : Task} (h : Awaits t u) :
    u.machine.control.ambient = t.machine.control.ambient := by
  cases h with
  | receiver | operand | left | assigned | test | result | message | expression => rfl
  | body => rfl
  | argument _ hv hvs | invocation _ hv hvs =>
    rw [(Restores.pervasive.arguments (restores_eval _) _).of_ok hvs, hv.control]
  | right _ ha => rw [(restores_eval _ _).of_ok ha]
  | printed _ hvs => rw [(Restores.pervasive.arguments (restores_eval _) _).of_ok hvs]
  | inBlock _ hb => rw [(Restores.pervasive.block (restores_exec _) _).of_ok hb]
  | consequent _ hc | alternative _ hc =>
    rw [(Restores.pervasive.condition (restores_eval _) _ _).of_ok hc]
  | loopTest _ hr => rw [hr.control]
  | loopBody _ hr _ hc =>
    rw [(Restores.pervasive.condition (restores_eval _) _ _).of_ok hc, hr.control]
  | initializer _ hb _ _ ht =>
    rw [(Restores.building _).of_ok ht, (Restores.pervasive.locals (restores_eval _) _ _).of_ok hb]
  | inLet _ hd hb =>
    have hlocals := (Restores.pervasive.locals (restores_eval _) _ _).of_ok hd
    rw [(Restores.pervasive.block (restores_exec _) _).of_ok hb]
    exact (congrArg Control.ambient hlocals :)

section Delivery

variable {start : Machine} (hplaced : Moment.Placed ⟨start, [], []⟩)

include hplaced in
theorem Occurs.placed {t : Task} {s : Machine} (ht : Occurs start t)
    (h : ∀ k hand, ∃ hand', Steps ⟨t.machine, k, hand⟩ ⟨s, k, hand'⟩) :
    s.control.Placed s.store := by
  obtain ⟨k, hand, hsteps, -⟩ := ht.steps
  obtain ⟨hand', hsteps'⟩ := h k hand
  exact (hsteps.trans hsteps').keeps (fun _ _ => Step.placed) hplaced _ List.mem_cons_self

/-- From the start of a `try` to the point where the message of its handler is written. -/
theorem Handles.steps {t u : Task} {s : Machine} (h : Handles t u) (hu : u.RaisesIn s)
    (k : List Control) (hand : List Value) :
    ∃ hand', Steps ⟨t.machine, k, hand⟩ ⟨{ s with control := t.machine.control }, k, hand'⟩ := by
  cases h with
  | @handler f body g n m₁ m hf hb =>
    obtain ⟨hand₁, hs₁, -⟩ :=
      (traces_exec _ _ _).steps (k := m.control :: k) (List.nil_subset hand) hb
    obtain ⟨hand₂, hs₂, -⟩ :=
      (traces_exec _ _ _).steps (k := m₁.control :: m.control :: k) (List.nil_subset hand₁) hu
    have hbody := (Steps.of_step .enterTry).trans hs₁
    have hhandler := (Steps.of_step .enterHandler).trans hs₂
    have hleave := (hbody.trans hhandler).trans (.of_step (.leave m₁.control))
    exact ⟨hand₂, hleave.trans (.of_step (.leave m.control))⟩

include hplaced in
/-- What was thrown is in the ambient frame if and only if it was delivered. -/
theorem Raises.message_iff {t : Task} {v : Value} {writes : List Machine} {s : Machine}
    (h : Raises t v writes s) (ht : Occurs start t) : s.message = v ↔ Delivered v writes := by
  induction h with
  | @thrown f g n m v w s hf hv hr =>
    have hw : w.control.Placed w.store := by
      refine Occurs.placed hplaced ht fun k hand => ?_
      obtain ⟨a, ha, -⟩ := hv
      exact steps_eval ha
    by_cases hs : w.Shadowed
    · simp [Delivered, hs, message_of_shadowed hs hr]
    · simp [Delivered, hs, message_of_clear hw hs hr]
  | @unwound t u v writes s ha hu ih =>
    rw [← ih (ht.starts (.awaits ha))]
    have hcontrol : s.control.ambient = t.machine.control.ambient := by
      rw [hu.raisesIn.control, ha.ambient]
    unfold Machine.message
    rw [hcontrol]
  | @rethrown t u v writes s s' hh hu hr ih =>
    have hw := Occurs.placed hplaced ht (hh.steps hu.raisesIn)
    by_cases hs : Machine.Shadowed { s with control := t.machine.control }
    · simp [Delivered, hs, message_of_shadowed hs hr]
    · simp [Delivered, hs, message_of_clear hw hs hr, ih (ht.starts (.handles hh))]

/-- What the message tells of the exception with which the task has ended: it began with a `throw`,
and the message is what was thrown if and only if that was delivered, as it is when no write was
shadowed. -/
structure Tells (message : String) (t : Task) (s : Machine) : Prop where
  began : ∃ thrown writes, Raises t thrown writes s
  exactly_if : ∀ thrown writes, Raises t thrown writes s →
    (.string message = thrown ↔ Delivered thrown writes)
  if_clear : ∀ thrown writes, Raises t thrown writes s → (∀ w ∈ writes, ¬ w.Shadowed) →
    .string message = thrown

theorem Task.RaisesIn.final {t : Task} {s : Machine} (h : t.RaisesIn s) : t.final = s := by
  obtain ⟨n, work, m⟩ := t
  cases work with
  | eval f =>
    obtain ⟨a, ha, -⟩ := h
    exact after_of_ok ha
  | exec f => exact after_of_ok h
  | call receiver name vs => exact after_of_ok h

variable (htyped : Moment.Typed ⟨start, [], []⟩)

include hplaced htyped in
theorem Occurs.tells {t : Task} {s : Machine} (ht : Occurs start t) (h : t.RaisesIn s) :
    ∃ message, s.store.get? s.control.ambient exceptionName = some ⟨.string, .string message⟩ ∧
      Tells message t s := by
  obtain ⟨k, hand, hsteps, hready⟩ := ht.steps
  obtain ⟨hand', hfinal⟩ := hready.final
  rw [h.final] at hfinal
  have hs := hsteps.trans hfinal
  have hstore := (hs.keeps (fun _ _ => Step.typed) htyped).store
  obtain ⟨x, hx, hd⟩ := (hs.keeps (fun _ _ => Step.placed) hplaced _ List.mem_cons_self).get?
  have hadmits := (hstore.get? hx).admits
  rw [hd] at hadmits
  obtain ⟨message, hv⟩ := TypeTag.string_of_admits hadmits
  obtain ⟨declared, value⟩ := x
  cases hd
  cases hv
  have hmessage : s.message = .string message := Store.message_eq hx
  refine ⟨message, hx, exists_raises htyped ht h, fun thrown writes hr => ?_,
    fun thrown writes hr hclear => ?_⟩
  · rw [← hmessage]
    exact hr.message_iff hplaced ht
  · rw [← hmessage]
    exact (hr.message_iff hplaced ht).mpr (delivered_of_clear hclear)

end Delivery

/-- A handler finds its own frame first. -/
theorem Eval.lookup_of_head {m : Machine} {i : FrameId} {rest : Scopes} {x : Variable}
    (hh : m.control.handling = true) (hs : m.control.scopes = i :: rest)
    (hx : m.store.get? i exceptionName = some x) : lookup exceptionName m = .ok x m := by
  have hlookup : m.store.lookup m.control.scopes exceptionName = some x := by
    simp [Store.lookup, hs, hx]
  exact lookup_eq_ok.mpr ⟨fun _ => hh, hlookup, rfl⟩

theorem Eval.run_uncaught {fuel : Nat} {m s : Machine} {message : String}
    (h : run fuel m = .ok (.uncaught message) s) :
    ∃ t m₁, Launches fuel m t ∧ t.RaisesIn m₁ ∧ ambientMessage m₁ = .ok message s := by
  obtain ⟨c, m₁, hc, hk⟩ := bind_eq_ok.mp h
  obtain ⟨main, m₂, hmain, hk⟩ := bind_eq_ok.mp hk
  obtain ⟨v, m₃, hv, hk⟩ := bind_eq_ok.mp hk
  cases v with
  | exception =>
    obtain ⟨text, m₄, htext, hk⟩ := bind_eq_ok.mp hk
    cases hk
    exact ⟨_, m₃, ⟨c, main, m₁, m₂, hc, hmain, rfl⟩, hv, htext⟩
  | _ => cases hk

namespace Sample

def throwing : Form := .list [.atom "throw", .atom "\"boom\""]

def shadowing : Form :=
  .list [.atom "let", .list [.list [.atom "string", .atom "exception", .atom "\"x\""]], throwing]

def losing : Method :=
  ⟨"main", .void, [], .list [.atom "try", shadowing, .list [.atom "print", .atom "exception"]]⟩

def shadowed : Class := ⟨⟨"main", [], [losing]⟩, []⟩

def shadowedForms : List Form :=
  [.list [.atom "class", .atom "main",
    .list [.atom "method", .atom "void", .atom "main", .list [], losing.body]]]

def shadowedStart : Machine := Machine.start ⟨[shadowed], []⟩ (.buffer "") (.queue []) none

def shadowedMain : Machine :=
  (after (Eval.create shadowed) shadowedStart).enterCall ⟨1, shadowed, []⟩ losing []

def shadowedThrow : Machine :=
  shadowedMain.enterTry.enterLet ⟨.locals, [("exception", ⟨.string, .string "x"⟩)]⟩

end Sample

theorem exists_ended {x : EStateM.Result Stop Machine Outcome} {outcome : Outcome}
    (h : (match x with | .ok a _ => a == outcome | .error _ _ => false) = true) :
    ∃ s, x = .ok outcome s := by
  cases x with
  | ok a s => exact ⟨s, by rw [eq_of_beq h]⟩
  | error e s => cases h

/-- In every run of a loaded program, a handler that starts finds the message of the exception that
its `try` caught, and a run that ends with an uncaught exception reports its message. Either is what
was thrown, at any depth of blocks, calls and handlers, if and only if that was delivered. -/
theorem handlers_read_what_was_delivered {forms : List Form} {r : Registry}
    (h : Registry.load forms = .ok r) (sink : Sink) (source : Source) (limit : Option Nat) :
    (∀ (n : Nat) (f body handler : Form) (m s : Machine),
      Occurs (Machine.start r sink source limit) ⟨n + 1, .exec f, m⟩ →
      Statement.ofForm f = .attempt body handler → exec n body m.enterTry = .ok .raised s →
      ∃ message,
        Eval.lookup exceptionName s.enterHandler =
          .ok ⟨.string, .string message⟩ s.enterHandler ∧
        Tells message ⟨n, .exec body, m.enterTry⟩ s) ∧
    ∀ (fuels : List Nat) (fuel : Nat) (message : String) (s : Machine),
      Eval.run fuel ((Machine.start r sink source limit).runs fuels) =
        .ok (.uncaught message) s →
      ∃ main, Launches fuel ((Machine.start r sink source limit).runs fuels) main ∧
        Tells message main s := by
  have hplaced := placed_start r sink source limit
  have htyped := typed_start h sink source limit
  constructor
  · intro n f body handler m s ht hf hbody
    have hguard := ht.starts (.guards (.body hf))
    obtain ⟨message, hx, htells⟩ := hguard.tells hplaced htyped hbody
    have hcontrol := (restores_exec n body).of_ok hbody
    have hscopes : s.control.scopes = m.store.next :: m.control.scopes := by
      rw [hcontrol]
      rfl
    rw [hcontrol] at hx
    exact ⟨message, Eval.lookup_of_head rfl hscopes hx, htells⟩
  · intro fuels fuel message s hrun
    obtain ⟨main, m, hl, hraises, hmessage⟩ := Eval.run_uncaught hrun
    have hmain : Occurs (Machine.start r sink source limit) main := ⟨fuels, fuel, main, hl, .refl⟩
    obtain ⟨text, hx, htells⟩ := hmain.tells hplaced htyped hraises
    rw [Eval.ambientMessage_of_get? hx] at hmessage
    cases hmessage
    exact ⟨main, hl, htells⟩

/-- In the sample, what is thrown by the handler in `fail` goes on to the handler in `main` and from
there to the end of the run. -/
theorem sample_message_is_delivered :
    Registry.load Sample.forms = .ok Sample.start.registry ∧
      Occurs Sample.start ⟨8, .exec Sample.running.body, Sample.entered⟩ ∧
      (∃ message s, exec 7 Sample.print Sample.entered.enterTry = .ok .raised s ∧
        Eval.lookup exceptionName s.enterHandler =
          .ok ⟨.string, .string message⟩ s.enterHandler ∧
        Tells message ⟨7, .exec Sample.print, Sample.entered.enterTry⟩ s) ∧
      ∃ s main, Eval.run 8 Sample.start = .ok (.uncaught "ab") s ∧
        Launches 8 Sample.start main ∧ Tells "ab" main s := by
  have hload : Registry.load Sample.forms = .ok Sample.start.registry := rfl
  have htold := handlers_read_what_was_delivered hload (.buffer "") (.queue []) none
  obtain ⟨s, hs⟩ : ∃ s, exec 7 Sample.print Sample.entered.enterTry = .ok .raised s :=
    exists_raised (by decide +kernel)
  obtain ⟨message, hlookup, htells⟩ :=
    htold.1 7 _ _ _ _ s Sample.occurs_main (Eq.refl (Statement.ofForm Sample.body)) hs
  obtain ⟨s', hs'⟩ : ∃ s, Eval.run 8 Sample.start = .ok (.uncaught "ab") s :=
    exists_ended (by decide +kernel)
  obtain ⟨main, hmain, htells'⟩ := htold.2 [] 8 "ab" s' hs'
  refine ⟨hload, Sample.occurs_main, ⟨message, s, hs, hlookup, htells⟩, ?_⟩
  exact ⟨s', main, hs', hmain, htells'⟩

/-- A local variable of that name takes the message, and the handler reads an empty one. -/
theorem shadowed_message_is_lost :
    ∃ writes s, Registry.load Sample.shadowedForms = .ok Sample.shadowedStart.registry ∧
      Occurs Sample.shadowedStart ⟨5, .exec Sample.losing.body, Sample.shadowedMain⟩ ∧
      exec 4 Sample.shadowing Sample.shadowedMain.enterTry = .ok .raised s ∧
      Raises ⟨4, .exec Sample.shadowing, Sample.shadowedMain.enterTry⟩ (.string "boom") writes s ∧
      Eval.lookup exceptionName s.enterHandler = .ok ⟨.string, .string ""⟩ s.enterHandler := by
  have hmain : Awaits ⟨5, .call ⟨1, Sample.shadowed, []⟩ "main" [],
      after (Eval.create Sample.shadowed) Sample.shadowedStart⟩
      ⟨5, .exec Sample.losing.body, Sample.shadowedMain⟩ := .body rfl rfl rfl
  have ht : Occurs Sample.shadowedStart ⟨5, .exec Sample.losing.body, Sample.shadowedMain⟩ :=
    ⟨[], 5, _, ⟨Sample.shadowed, _, Sample.shadowedStart, _, rfl, rfl, rfl⟩,
      .single (.awaits hmain)⟩
  have hf : Statement.ofForm Sample.shadowing =
      .bind [.list [.atom "string", .atom "exception", .atom "\"x\""]]
        ([] ++ Sample.throwing :: []) := rfl
  have hlet : Awaits ⟨4, .exec Sample.shadowing, Sample.shadowedMain.enterTry⟩
      ⟨3, .exec Sample.throwing, Sample.shadowedThrow⟩ := .inLet hf rfl rfl
  have hthrow : Raises ⟨3, .exec Sample.throwing, Sample.shadowedThrow⟩ (.string "boom") _ _ :=
    .thrown rfl ⟨_, rfl, rfl, rfl⟩ rfl
  exact ⟨_, _, rfl, ht, rfl, .unwound hlet hthrow, rfl⟩

end ObjectLang
