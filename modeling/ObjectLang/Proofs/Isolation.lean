import ObjectLang.Proofs.Heap
import ObjectLang.Proofs.Limit

/-!
Calls are isolated from their callers. The body of a method runs on a machine that owes nothing to
the scopes, the activation and the handling flag of the caller, so the call cannot depend on them.
And it can only write to frames that it has in scope, its ambient frame and the fields of objects
that it can get at, so the arguments and locals of the methods that wait for it stay as they are.
-/

namespace ObjectLang

variable {α : Type}

/- Frames that nothing leads to. -/

def View.Occupies (v : View) (i : FrameId) : Prop := v.base ≤ i ∧ i < v.base + v.whole.length

namespace View

theorem SameObject.occupies {v w : View} {i : FrameId} (h : v.SameObject w) :
    w.Occupies i ↔ v.Occupies i := by
  rw [Occupies, Occupies, h.1, h.2]

theorem occupies_frame (v : View) : v.Occupies v.frame := by
  have hlength : v.whole.length = v.derived.length + (v.level + 1) := by
    simp [whole, level, Class.line, Class.depth]
  rw [Occupies, frame, hlength]
  exact ⟨Nat.le_add_right _ _, Nat.add_lt_add_left (by omega) _⟩

/-- The places that an object takes hold fields. -/
theorem Located.outline?_of_occupies {s : Store} {v : View} {i : FrameId} (h : v.Located s)
    (hi : v.Occupies i) : ∃ d, s.outline? i = some (.fields d) := by
  obtain ⟨hbase, hlt⟩ := hi
  obtain ⟨k, rfl⟩ := Nat.exists_eq_add_of_le hbase
  have hdepth : k ≤ v.object.cls.depth := by
    have hk : k < v.whole.length := Nat.lt_of_add_lt_add_left hlt
    rw [← v.line_object] at hk
    exact Nat.le_of_lt_succ hk
  obtain ⟨d, hline, rfl⟩ := Class.exists_at_depth hdepth
  exact ⟨d, h d (v.line_object ▸ hline)⟩

/-- A frame that is not one of fields belongs to no object. -/
theorem Located.not_occupies {s : Store} {v : View} {i : FrameId} (h : v.Located s)
    (hi : s.Apart i) : ¬ v.Occupies i := by
  intro hoccupies
  obtain ⟨d, hd⟩ := h.outline?_of_occupies hoccupies
  obtain ⟨o, ho, hrole⟩ := hi
  rw [hd] at ho
  cases ho
  exact hrole d rfl

end View

theorem Store.frame?_pushAll_of_lt (s : Store) (fs : List Frame) {i : FrameId} (h : i < s.next) :
    (s.pushAll fs).frame? i = s.frame? i := by
  have hlength : i < s.frames.toList.length := by simpa [next] using h
  rw [frame?, frame?, ← Array.getElem?_toList, frames_pushAll,
    List.getElem?_append_left hlength, Array.getElem?_toList]

/-- Nothing that the run can get at leads to the frame: it is in no scope, takes no message and
belongs to no object. -/
structure Moment.Spares (i : FrameId) (p : Moment) : Prop where
  allocated : i < p.machine.store.next
  scopes : ∀ c ∈ p.machine.control :: p.waiting, i ∉ c.scopes ∧ i ≠ c.ambient
  objects : p.Sees (fun _ v => ¬ v.Occupies i) (fun _ v => ¬ v.Occupies i)

theorem lasting_spared (i : FrameId) :
    Lasting (i + 1) (fun _ v => ¬ v.Occupies i) (fun _ v => ¬ v.Occupies i) where
  values _ hv := hv
  receivers _ hv := hv
  created hn _ hv := Nat.not_lt_of_le hv.1 hn
  self {_ v} hv := fun h => hv (v.sameObject_mostDerived.occupies.mp h)
  called hv := hv
  sameObject hv hw := fun h => hv (hw.occupies.mp h)

/-- Every step leaves such a frame as it is, and alone. -/
theorem Step.spares {p q : Moment} {i : FrameId} (h : Step p q) (hp : p.Spares i) :
    q.Spares i ∧ q.machine.store.frame? i = p.machine.store.frame? i := by
  have hobjects := h.sees (lasting_spared i) hp.allocated hp.objects
  have hallocated := Nat.lt_of_lt_of_le hp.allocated h.preserves.next_le
  have hscopes := hp.scopes
  obtain ⟨⟨hnow, hambient⟩, hwaiting⟩ := List.forall_mem_cons.mp hscopes
  have hwritten : ∀ {name v j x}, p.machine.store.assignment name v p.machine.control.scopes =
      .ok (j, x) → (p.machine.store.set j name x).frame? i = p.machine.store.frame? i := by
    intro name v j x ha
    obtain ⟨above, below, _, heq, -⟩ := Store.assignment_eq_ok ha
    refine Store.frame?_set_of_ne _ ?_ _ _
    rintro rfl
    exact hnow (by simp [heq])
  have hne := Nat.ne_of_lt hp.allocated
  cases h with
  | print | read | resolve | plain | look | self => exact ⟨⟨hallocated, hscopes, hobjects⟩, rfl⟩
  | create =>
    refine ⟨⟨hallocated, hscopes, hobjects⟩, ?_⟩
    exact Store.frame?_pushAll_of_lt _ _ hp.allocated
  | assign _ _ ha | raise _ ha => exact ⟨⟨hallocated, hscopes, hobjects⟩, hwritten ha⟩
  | raiseAmbient =>
    exact ⟨⟨hallocated, hscopes, hobjects⟩, Store.frame?_set_of_ne _ hambient _ _⟩
  | enterLet =>
    refine ⟨⟨hallocated, List.forall_mem_cons.mpr ⟨⟨?_, hambient⟩, hscopes⟩, hobjects⟩, ?_⟩
    · exact List.not_mem_cons_of_ne_of_not_mem hne hnow
    · exact Store.frame?_push_of_lt _ _ hp.allocated
  | enterTry =>
    refine ⟨⟨hallocated, List.forall_mem_cons.mpr ⟨⟨?_, hne⟩, hscopes⟩, hobjects⟩, ?_⟩
    · exact List.not_mem_cons_of_ne_of_not_mem hne hnow
    · exact Store.frame?_push_of_lt _ _ hp.allocated
  | enterHandler =>
    exact ⟨⟨hallocated, List.forall_mem_cons.mpr ⟨⟨hnow, hambient⟩, hscopes⟩, hobjects⟩, rfl⟩
  | enterCall =>
    refine ⟨⟨hallocated, List.forall_mem_cons.mpr ⟨⟨?_, hambient⟩, hscopes⟩, hobjects⟩, ?_⟩
    · -- The last frame in scope is one of the receiver's, which does not have this one.
      have hreceiver := hobjects.receivers _ List.mem_cons_self _ rfl
      simp only [Machine.enterCall, Control.enterCall, List.mem_cons, List.not_mem_nil, or_false,
        not_or]
      refine ⟨hne, hambient, ?_⟩
      rintro rfl
      exact hreceiver (View.occupies_frame _)
    · exact Store.frame?_push_of_lt _ _ hp.allocated
  | leave c => exact ⟨⟨hallocated, hwaiting, hobjects⟩, rfl⟩

theorem Steps.spares {p q : Moment} {i : FrameId} (h : Steps p q) (hp : p.Spares i) :
    q.machine.store.frame? i = p.machine.store.frame? i := by
  have hkept : q.Spares i ∧ q.machine.store.frame? i = p.machine.store.frame? i := by
    refine h.keeps (P := fun q => q.Spares i ∧
      q.machine.store.frame? i = p.machine.store.frame? i) ?_ ⟨hp, rfl⟩
    rintro q r hstep ⟨hq, heq⟩
    exact ⟨(hstep.spares hq).1, (hstep.spares hq).2.trans heq⟩
  exact hkept.2

/- What a call takes from its caller. -/

def Machine.withControl (c : Control) (m : Machine) : Machine := { m with control := c }

/-- The controls differ at most in what a call replaces: the scopes, the activation and the handling
flag. -/
def Control.Alike (c d : Control) : Prop := d.ambient = c.ambient ∧ d.depth = c.depth

namespace Ending

def withControl (c : Control) : Ending α → Ending α
  | .ok a m => .ok a (m.withControl c)
  | .error e m => .error e (m.withControl c)

def ofBody (method : Method) (caller : Control) : Ending Completion → Ending Value
  | .ok done m =>
    match m.registry.returnValue method done with
    | .ok v => .ok v (m.withControl caller)
    | .error e => .error (.failed e) (m.withControl caller)
  | .error e m => .error e (m.withControl caller)

theorem withControl_ofBody (method : Method) (c d : Control) (x : Ending Completion) :
    (x.ofBody method c).withControl d = x.ofBody method d := by
  cases x with
  | ok done m =>
    simp only [ofBody]
    cases m.registry.returnValue method done <;> rfl
  | error e m => rfl

end Ending

namespace Eval

variable {exec : Form → Eval Completion} {receiver view : View} {name : String} {vs : List Value}
  {method : Method} {bindings : List (String × Variable)} {m : Machine}

theorem invoke_eq (hexec : ∀ f, Restores (exec f))
    (hb : bindArguments method.params vs = .ok bindings) :
    invoke exec view method vs m =
      Ending.ofBody method m.control (exec method.body (m.enterCall view method bindings)) := by
  have hinvoke : invoke exec view method vs m =
      (inCall view method m.store.next (exec method.body) >>= fun done => do
        ofExcept ((← get).registry.returnValue method done))
          { m with store := m.store.push ⟨.arguments, bindings⟩ } := by
    simp only [invoke, hb]
    rfl
  rw [hinvoke]
  cases h : exec method.body (m.enterCall view method bindings) with
  | error e t =>
    have hcontrol : t.control = m.control.enterCall view method m.store.next := by
      have hafter := (hexec method.body).after (m.enterCall view method bindings)
      simp only [after, h] at hafter
      exact hafter
    refine (bind_error (bracket_of_error h) _).trans ?_
    rw [hcontrol]
    rfl
  | ok done t =>
    have hcontrol : t.control = m.control.enterCall view method m.store.next :=
      (hexec method.body).of_ok h
    refine (bind_ok (bracket_of_ok h) _).trans ?_
    rw [hcontrol]
    refine (bind_ok (x := get) rfl _).trans ?_
    simp only [Ending.ofBody]
    cases t.registry.returnValue method done <;> rfl

/-- A call is refused before anything happens, or it runs the body of a method. Which of these, and
the machine that the body starts on, are the same for all callers that are alike. -/
theorem callMethod_cases (hexec : ∀ f, Restores (exec f)) (receiver : View) (name : String)
    (vs : List Value) (m : Machine) :
    (∃ e, ∀ c, m.control.Alike c →
      callMethod exec receiver name vs (m.withControl c) = .error e (m.withControl c)) ∨
    ∃ view method bindings,
      m.registry.selectMethod? receiver name (vs.map Value.runtimeType) = some (view, method) ∧
      bindArguments method.params vs = .ok bindings ∧
      ∀ c, m.control.Alike c → callMethod exec receiver name vs (m.withControl c) =
        Ending.ofBody method c (exec method.body (m.enterCall view method bindings)) := by
  have hlimit : ∀ c, m.control.Alike c → (m.withControl c).atLimit? = m.atLimit? := by
    intro c hc
    simp only [Machine.atLimit?, Machine.withControl, hc.2]
  cases hs : m.registry.selectMethod? receiver name (vs.map Value.runtimeType) with
  | none => exact .inl ⟨_, fun c _ => callMethod_of_none hs⟩
  | some target =>
    obtain ⟨view, method⟩ := target
    cases hl : m.atLimit? with
    | some limit => exact .inl ⟨_, fun c hc => callMethod_at_limit hs ((hlimit c hc).trans hl)⟩
    | none =>
      have hinvoke : ∀ c, m.control.Alike c → callMethod exec receiver name vs (m.withControl c) =
          invoke exec view method vs (m.withControl c) :=
        fun c hc => callMethod_eq_invoke hs ((hlimit c hc).trans hl)
      cases hb : bindArguments method.params vs with
      | error e =>
        refine .inl ⟨.failed e, fun c hc => (hinvoke c hc).trans ?_⟩
        simp only [invoke, hb]
        rfl
      | ok bindings =>
        refine .inr ⟨view, method, bindings, rfl, hb, fun c hc => ?_⟩
        rw [hinvoke c hc, invoke_eq hexec hb]
        have hentered : (m.withControl c).enterCall view method bindings =
            m.enterCall view method bindings := by
          simp only [Machine.enterCall, Machine.withControl, Control.enterCall, hc.1, hc.2]
        rw [hentered]
        rfl

/-- The call ends in the same way for all callers that are alike. -/
theorem callMethod_withControl (hexec : ∀ f, Restores (exec f)) (receiver : View) (name : String)
    (vs : List Value) {m : Machine} {c : Control} (hc : m.control.Alike c) :
    callMethod exec receiver name vs (m.withControl c) =
      Ending.withControl c (callMethod exec receiver name vs m) := by
  have hself : m.control.Alike m.control := ⟨rfl, rfl⟩
  have hm : m.withControl m.control = m := rfl
  obtain ⟨e, he⟩ | ⟨view, method, bindings, -, -, hbody⟩ :=
    callMethod_cases hexec receiver name vs m
  · have h := he _ hself
    rw [hm] at h
    rw [he c hc, h]
    rfl
  · have h := hbody _ hself
    rw [hm] at h
    rw [hbody c hc, h, Ending.withControl_ofBody]

end Eval

/- What a call can write to. -/

theorem Store.Layered.located {s : Store} (hs : s.Layered) {v : View} (h : s.Holds v.object) :
    v.Located s :=
  fun _ hd => hs.below h.last (v.line_object.symm ▸ hd)

/-- The body of a method is led to no frame that is not one of fields and was there before, except
the ambient one. -/
theorem Machine.spares_enterCall {m : Machine} {receiver view : View} {name : String}
    {vs : List Value} {method : Method} {bindings : List (String × Variable)} {i : FrameId}
    (hstore : m.store.All fun x => x.value.Located m.store)
    (hreceiver : receiver.Located m.store) (hvs : ∀ x ∈ vs, x.Located m.store)
    (hs : m.registry.selectMethod? receiver name (vs.map Value.runtimeType) = some (view, method))
    (hb : bindArguments method.params vs = .ok bindings) (hi : m.store.Apart i)
    (hambient : i ≠ m.control.ambient) :
    Moment.Spares i ⟨m.enterCall view method bindings, [], []⟩ := by
  obtain ⟨hsame, -⟩ := Registry.selectMethod?_spec hs
  have hview : ¬ view.Occupies i := (hreceiver.sameObject hsame).not_occupies hi
  obtain ⟨o, ho, -⟩ := id hi
  have hlt := Store.lt_next_of_outline? ho
  refine ⟨Nat.lt_of_lt_of_le hlt (Store.Preserves.push _ _).next_le, ?_, by simp, ?_, ?_⟩
  · intro c hc
    rw [List.mem_singleton.mp hc]
    refine ⟨?_, hambient⟩
    simp only [Machine.enterCall, Control.enterCall, List.mem_cons, List.not_mem_nil, or_false,
      not_or]
    refine ⟨Nat.ne_of_lt hlt, hambient, ?_⟩
    rintro rfl
    exact hview view.occupies_frame
  · refine (hstore.mono fun x hx v hv => (hx v hv).not_occupies hi).push fun b hmem v hv => ?_
    obtain hx | hx := bindArguments_values hb b hmem
    · exact (hvs _ hx v hv).not_occupies hi
    · exact absurd hv (Value.not_object_of_isPlain hx v)
  · intro c hc a ha
    rw [List.mem_singleton.mp hc] at ha
    cases ha
    exact hview

/-- A call leaves alone every frame that is not one of fields, except the ambient one. -/
theorem Eval.callMethod_spares {n : Nat} {m : Machine} {receiver : View} {name : String}
    {vs : List Value} {i : FrameId} (hstore : m.store.All fun x => x.value.Located m.store)
    (hreceiver : receiver.Located m.store) (hvs : ∀ x ∈ vs, x.Located m.store)
    (hi : m.store.Apart i) (hambient : i ≠ m.control.ambient) :
    (after (callMethod (exec n) receiver name vs) m).store.frame? i = m.store.frame? i := by
  obtain ⟨e, he⟩ | ⟨view, method, bindings, hs, hb, hbody⟩ :=
    callMethod_cases (restores_exec n) receiver name vs m
  · have h : callMethod (exec n) receiver name vs m = .error e m := he _ ⟨rfl, rfl⟩
    simp only [after, h]
  · have h : callMethod (exec n) receiver name vs m = Ending.ofBody method m.control
        (exec n method.body (m.enterCall view method bindings)) := hbody _ ⟨rfl, rfl⟩
    have hafter : (after (callMethod (exec n) receiver name vs) m).store =
        (after (exec n method.body) (m.enterCall view method bindings)).store := by
      simp only [after, h]
      cases exec n method.body (m.enterCall view method bindings) with
      | ok done t =>
        simp only [Ending.ofBody]
        cases t.registry.returnValue method done <;> rfl
      | error e t => rfl
    have hspares := Machine.spares_enterCall hstore hreceiver hvs hs hb hi hambient
    obtain ⟨hand, hsteps, -⟩ := traces_exec n method.body (m.enterCall view method bindings) [] []
      (List.Subset.refl _)
    obtain ⟨o, ho, -⟩ := hi
    rw [hafter, hsteps.spares hspares]
    exact Store.frame?_push_of_lt _ _ (Store.lt_next_of_outline? ho)

/-- Locals are private to their activation. A call of a method, on an object of the store and with
objects of the store among its arguments, ends in the same way whatever scopes, activation and
handling flag the caller has: with the same value or error, and on a machine that differs in the
control only. And it leaves all frames of arguments and locals that there are as they are, so that
of the frames before the call only those of fields and of messages can have changed. -/
theorem locals_are_private {r : Registry} {sink : Sink} {source : Source} {limit : Option Nat}
    {m : Machine} (hm : Reachable (Machine.start r sink source limit) m) {receiver : View}
    {vs : List Value} (hreceiver : m.store.Holds receiver.object)
    (hvs : ∀ v, .object v ∈ vs → m.store.Holds v.object) (name : String) (n : Nat) :
    (∀ scopes activation handling,
      let caller := { m.control with scopes, activation, handling }
      Eval.callMethod (exec n) receiver name vs (m.withControl caller) =
        Ending.withControl caller (Eval.callMethod (exec n) receiver name vs m)) ∧
    (∀ i frame, m.store.frame? i = some frame →
      frame.role = .arguments ∨ frame.role = .locals →
      (after (Eval.callMethod (exec n) receiver name vs) m).store.frame? i = some frame) ∧
    ∀ i frame, m.store.frame? i = some frame →
      (after (Eval.callMethod (exec n) receiver name vs) m).store.frame? i ≠ some frame →
      frame.role = .exception ∨ ∃ cls, frame.role = .fields cls := by
  obtain ⟨k, hand, hsteps⟩ := hm.steps
  have hlayered : m.store.Layered := hsteps.layered
  have hlocated := hsteps.keeps (fun _ _ => Step.located) (located_start r sink source limit)
  have hambient : m.store.outline? m.control.ambient = some .message :=
    hsteps.keeps (fun _ _ => Step.ambient) (ambient_start r sink source limit) _ List.mem_cons_self
  have hlocals : ∀ i frame, m.store.frame? i = some frame →
      frame.role = .arguments ∨ frame.role = .locals →
      (after (Eval.callMethod (exec n) receiver name vs) m).store.frame? i = some frame := by
    intro i frame hi hrole
    have houtline : m.store.outline? i = some frame.outline := by rw [Store.outline?, hi]; rfl
    have hapart : m.store.Apart i := by
      refine ⟨_, houtline, fun cls hcls => ?_⟩
      have hcls : frame.role = .fields cls := hcls
      simp [hcls] at hrole
    have hne : i ≠ m.control.ambient := by
      rintro rfl
      rw [hambient] at houtline
      have hmessage : FrameRole.exception = frame.role :=
        congrArg Outline.role (Option.some.inj houtline)
      simp [← hmessage] at hrole
    rw [Eval.callMethod_spares hlocated.store (hlayered.located hreceiver) ?_ hapart hne, hi]
    rintro x hx v rfl
    exact hlayered.located (hvs v hx)
  refine ⟨fun scopes activation handling => ?_, hlocals, ?_⟩
  · exact Eval.callMethod_withControl (restores_exec n) receiver name vs ⟨rfl, rfl⟩
  · intro i frame hi hchanged
    cases hrole : frame.role with
    | fields cls => exact .inr ⟨cls, rfl⟩
    | arguments => exact absurd (hlocals i frame hi (.inl hrole)) hchanged
    | locals => exact absurd (hlocals i frame hi (.inr hrole)) hchanged
    | exception => exact .inl rfl

/- A program that calls a method on the field `n` from the scope of a local of that name. -/

namespace Sample

def bump : Method :=
  ⟨"bump", .void, [⟨"by", .int⟩], .list [.atom "set", .atom "n", .atom "by"]⟩

def callBump : Form := .list [.atom "call", .atom "me", .atom "bump", .atom "7"]

def mask : Form :=
  .list [.atom "let", .list [.list [.atom "int", .atom "n", .atom "5"]], callBump]

def masking : Method := ⟨"main", .void, [], mask⟩

def counter : Class := ⟨⟨"main", [⟨"n", .int, none⟩], [bump, masking]⟩, []⟩

def counting : Machine := Machine.start ⟨[counter], []⟩ (.buffer "") (.queue []) none

def counted : Machine :=
  (after (Eval.create counter) counting).enterCall ⟨1, counter, []⟩ masking []

def masked : Machine := counted.enterLet ⟨.locals, [("n", ⟨.int, .int 5⟩)]⟩

theorem occurs_masking : Occurs counting ⟨8, .exec masking.body, counted⟩ := by
  have hmain : Awaits ⟨8, .call ⟨1, counter, []⟩ "main" [], after (Eval.create counter) counting⟩
      ⟨8, .exec masking.body, counted⟩ := .body rfl rfl rfl
  exact ⟨[], 8, _, ⟨counter, _, counting, _, rfl, rfl, rfl⟩, .single (.awaits hmain)⟩

theorem occurs_callBump : Occurs counting ⟨7, .exec callBump, masked⟩ := by
  have hform : Statement.ofForm mask =
      .bind [.list [.atom "int", .atom "n", .atom "5"]] ([] ++ callBump :: []) := rfl
  have hlet : Awaits ⟨8, .exec masking.body, counted⟩ ⟨7, .exec callBump, masked⟩ :=
    .inLet hform rfl rfl
  exact occurs_masking.starts (.awaits hlet)

end Sample

/-- In the sample, the call changes the field and not the local of the caller, and it does so for a
caller without scopes too. -/
theorem sample_locals_are_private :
    let call := Eval.callMethod (exec 6) ⟨1, Sample.counter, []⟩ "bump" [.int 7]
    let outside := { Sample.masked.control with scopes := [], activation := none }
    Reachable Sample.counting Sample.masked ∧
      (after call Sample.masked).store.get? 1 "n" = some ⟨.int, .int 7⟩ ∧
      (after call Sample.masked).store.frame? 3 = some ⟨.locals, [("n", ⟨.int, .int 5⟩)]⟩ ∧
      call (Sample.masked.withControl outside) =
        Ending.withControl outside (call Sample.masked) := by
  intro call outside
  have hm : Reachable Sample.counting Sample.masked := .started Sample.occurs_callBump
  have hreceiver : Sample.masked.store.Holds (View.object ⟨1, Sample.counter, []⟩) := by
    refine ⟨rfl, fun d hd => ?_⟩
    have hrole : FrameRole.arguments = .fields d := congrArg Outline.role (Option.some.inj hd)
    cases hrole
  have hvs : ∀ v, .object v ∈ [Value.int 7] → Sample.masked.store.Holds v.object := by simp
  obtain ⟨hcaller, hlocals, -⟩ := locals_are_private hm hreceiver hvs "bump" 6
  exact ⟨hm, rfl, hlocals 3 _ rfl (.inr rfl), hcaller [] none false⟩

end ObjectLang
