import ObjectLang.Proofs.Completion
import ObjectLang.Proofs.Step

/-!
Traces: every computation of the evaluator takes steps from the machine it starts on to the one it
leaves, however it ends, and then has the values it gives at hand.
-/

namespace ObjectLang

variable {α β : Type}

def Value.held : Value → List Value
  | .exception => []
  | v => [v]

def Completion.held : Completion → List Value
  | .returned v => [v]
  | _ => []

theorem Value.held_eq {v : Value} (h : v = .exception → False) : v.held = [v] := by
  cases v <;> simp_all [held]

theorem Value.held_subset (v : Value) : v.held ⊆ [v] := by
  cases v <;> simp [held]

/-- Started on `m` with some values at hand, the computation takes steps to the machine it leaves,
and has further values at hand if it succeeds. -/
def Traces (m : Machine) (needs : List Value) (x : Eval α) (gives : α → List Value) : Prop :=
  ∀ k hand, needs ⊆ hand → ∃ hand', Steps ⟨m, k, hand⟩ ⟨after x m, k, hand'⟩ ∧
    ∀ a s, x m = .ok a s → gives a ⊆ hand'

namespace Traces

variable {m m₁ s : Machine} {needs needs' : List Value} {x y : Eval α} {f : α → Eval β}
  {gives gives' : α → List Value} {results : β → List Value}

theorem of_ok {a : α} (h : x m = .ok a s)
    (hs : ∀ k hand, needs ⊆ hand → ∃ hand', Steps ⟨m, k, hand⟩ ⟨s, k, hand'⟩ ∧ gives a ⊆ hand') :
    Traces m needs x gives := by
  intro k hand hn
  obtain ⟨hand', hsteps, hg⟩ := hs k hand hn
  refine ⟨hand', by rwa [after_of_ok h], ?_⟩
  intro b t hb
  rw [h] at hb
  cases hb
  exact hg

/-- The computation changes nothing, and what it gives is at hand already. -/
theorem of_pure {a : α} (h : x m = .ok a m) (hg : gives a ⊆ needs) : Traces m needs x gives :=
  of_ok h fun _ hand hn => ⟨hand, .refl _, List.Subset.trans hg hn⟩

theorem pure {a : α} (h : gives a ⊆ needs) : Traces m needs (pure a) gives := of_pure rfl h

theorem throw {e : Stop} : Traces m needs (throw e : Eval α) gives :=
  fun _ hand _ => ⟨hand, .refl _, fun _ _ h => by cases h⟩

theorem fail {e : Error} : Traces m needs (Eval.fail e : Eval α) gives := throw

theorem congr (h : x m = y m) (hy : Traces m needs y gives) : Traces m needs x gives := by
  intro k hand hn
  simpa only [after, h] using hy k hand hn

theorem mono (h : Traces m needs x gives) (hn : needs ⊆ needs') (hg : ∀ a, gives' a ⊆ gives a) :
    Traces m needs' x gives' := by
  intro k hand hsub
  obtain ⟨hand', hsteps, hgives⟩ := h k hand (List.Subset.trans hn hsub)
  exact ⟨hand', hsteps, fun a s hx => List.Subset.trans (hg a) (hgives a s hx)⟩

theorem steps (h : Traces m needs x gives) {k : List Control} {hand : List Value}
    (hn : needs ⊆ hand) {a : α} (hx : x m = .ok a s) :
    ∃ hand', Steps ⟨m, k, hand⟩ ⟨s, k, hand'⟩ ∧ gives a ⊆ hand' := by
  obtain ⟨hand', hsteps, hgives⟩ := h k hand hn
  rw [after_of_ok hx] at hsteps
  exact ⟨hand', hsteps, hgives a s hx⟩

theorem bind (hx : Traces m needs x gives)
    (hf : ∀ a s, x m = .ok a s → Traces s (gives a ++ needs) (f a) results) :
    Traces m needs (x >>= f) results := by
  intro k hand hn
  obtain ⟨hand₁, hsteps, hgives⟩ := hx k hand hn
  cases h : x m with
  | ok a s =>
    have hneeds : gives a ++ needs ⊆ hand₁ :=
      List.append_subset.mpr ⟨hgives a s h, List.Subset.trans hn hsteps.hand_subset⟩
    obtain ⟨hand₂, hsteps', hgives'⟩ := hf a s h k hand₁ hneeds
    rw [after_of_ok h] at hsteps
    refine ⟨hand₂, ?_, by rwa [bind_ok h]⟩
    rw [after_bind_of_ok h]
    exact hsteps.trans hsteps'
  | error e s =>
    refine ⟨hand₁, by rwa [after_bind_of_error h], ?_⟩
    intro b t hb
    rw [bind_error h] at hb
    cases hb

theorem get_bind {f : Machine → Eval β} (h : Traces m needs (f m) results) :
    Traces m needs (get >>= f) results :=
  congr rfl h

theorem ofExcept_bind {r : Except Error α}
    (h : ∀ a, r = .ok a → Traces m needs (f a) results) :
    Traces m needs (Eval.ofExcept r >>= f) results := by
  cases r with
  | ok a => exact h a rfl
  | error e => exact throw

/-- Code under a changed control: a step enters it and a step leaves it. -/
theorem bracket {enter : Control → Control} {leave : Control → Control → Control}
    (hr : Restores x) (hl : ∀ c, leave c (enter c) = c)
    (hy : y m = Eval.bracket enter leave x m₁) (hc : m₁.control = m.control)
    (hstep : ∀ k hand, needs ⊆ hand →
      Step ⟨m, k, hand⟩ ⟨{ m₁ with control := enter m.control }, m.control :: k, hand⟩)
    (hx : Traces { m₁ with control := enter m.control } needs x gives) :
    Traces m needs y gives := by
  intro k hand hn
  obtain ⟨hand', hsteps, hgives⟩ := hx (m.control :: k) hand hn
  have hafter : after y m =
      { after x { m₁ with control := enter m.control } with control := m.control } := by
    have hcontrol := hr.after { m₁ with control := enter m.control }
    unfold after at hcontrol ⊢
    rw [hy, Eval.bracket, hc]
    cases h : x { m₁ with control := enter m.control } <;> simp_all only
  refine ⟨hand', ?_, ?_⟩
  · rw [hafter]
    exact ((Steps.of_step (hstep k hand hn)).trans hsteps).trans (.of_step (.leave m.control))
  · intro a s h
    rw [hy, hr.bracket_eq_ok hl, hc] at h
    obtain ⟨t, ht, -⟩ := h
    exact hgives a t ht

theorem inLet {frame : Frame} (hr : Restores x) (hrole : frame.role = .locals)
    (hm : ∀ b ∈ frame.bindings, b.2.Made) (hv : frame.values ⊆ needs)
    (hx : Traces (m.enterLet frame) needs x gives) :
    Traces m needs (Eval.alloc frame >>= fun id => Eval.inScope id x) gives := by
  have hy : (Eval.alloc frame >>= fun id => Eval.inScope id x) m =
      Eval.bracket (Control.enterScope m.store.next) (fun _ => Control.leaveScope) x
        { m with store := m.store.push frame } := rfl
  exact bracket hr (fun _ => rfl) hy rfl
    (fun k hand hn => .enterLet hrole hm (List.Subset.trans hv hn)) hx

theorem inTry (hr : Restores x) (hx : Traces m.enterTry needs x gives) :
    Traces m needs (Eval.alloc .forException >>= fun id => Eval.inTry id x) gives := by
  have hy : (Eval.alloc .forException >>= fun id => Eval.inTry id x) m =
      Eval.bracket (Control.enterTry m.store.next) (fun outer => Control.leaveTry outer.ambient) x
        { m with store := m.store.push .forException } := rfl
  exact bracket hr (fun _ => rfl) hy rfl (fun k hand hn => .enterTry) hx

theorem inHandler (hr : Restores x) (hx : Traces m.enterHandler needs x gives) :
    Traces m needs (Eval.inHandler x) gives := by
  have hy : Eval.inHandler x m = Eval.bracket (fun c => { c with handling := true })
      (fun outer c => { c with handling := outer.handling }) x m := rfl
  exact bracket hr (fun _ => rfl) hy rfl (fun k hand hn => .enterHandler) hx

theorem inCall {receiver view : View} {name : String} {vs : List Value} {method : Method}
    {bindings : List (String × Variable)} (hr : Restores x)
    (hreceiver : .object receiver ∈ needs ∨
      ∃ a, m.control.activation = some a ∧ a.receiver.parent? = some receiver)
    (hvs : vs ⊆ needs)
    (hs : m.registry.selectMethod? receiver name (vs.map Value.runtimeType) = some (view, method))
    (hl : m.atLimit? = none) (hb : bindArguments method.params vs = .ok bindings)
    (hx : Traces (m.enterCall view method bindings) needs x gives) :
    Traces m needs
      (Eval.alloc ⟨.arguments, bindings⟩ >>= fun id => Eval.inCall view method id x) gives := by
  have hy : (Eval.alloc ⟨.arguments, bindings⟩ >>= fun id => Eval.inCall view method id x) m =
      Eval.bracket (Control.enterCall view method m.store.next) Control.leaveCall x
        { m with store := m.store.push ⟨.arguments, bindings⟩ } := rfl
  refine bracket hr (fun _ => rfl) hy rfl (fun k hand hn => ?_) hx
  exact .enterCall (hreceiver.imp_left fun h => hn h) (List.Subset.trans hvs hn) hs hl hb

/- The operations on the machine. -/

theorem plain {a : α} (v : Value) (hv : v.isPlain = true) (hg : gives a ⊆ v :: needs) :
    Traces m needs (Pure.pure a) gives := by
  refine of_ok rfl fun k hand hn => ⟨v :: hand, .of_step (.plain hv), ?_⟩
  exact List.Subset.trans hg (List.cons_subset_cons v hn)

theorem ofExcept_plain {r : Except Error Value} (h : ∀ v, r = .ok v → v.isPlain = true) :
    Traces m needs (Eval.ofExcept r) fun v => [v] := by
  cases r with
  | ok v => exact plain v (h v rfl) (by simp)
  | error e => exact throw

theorem after_building (b : Build α) (m : Machine) :
    after (Eval.building b) m = { m with registry := after b m.registry } := by
  unfold after Eval.building
  cases b m.registry <;> rfl

theorem resolve (name : String) :
    Traces m needs (Eval.building (Registry.resolve name)) fun _ => [] := by
  intro k hand _
  refine ⟨hand, ?_, fun _ _ _ => List.nil_subset _⟩
  rw [after_building]
  exact .of_step (.resolve name)

theorem resolveType (t : TypeTag) :
    Traces m needs (Eval.building (Registry.resolveType t)) fun _ => [] := by
  cases t with
  | ofClass name =>
    refine congr (y := Eval.building (Registry.resolve name) >>= fun _ => Pure.pure ()) ?_
      ((resolve name).bind fun _ _ _ => pure (List.nil_subset _))
    unfold Registry.resolveType Build.ofType
    simp only [Eval.building, Bind.bind, EStateM.bind]
    cases Registry.resolve name m.registry <;> rfl
  | _ => exact of_pure rfl (List.nil_subset _)

theorem create {c : Class} (hc : c ∈ m.registry.classes) :
    Traces m needs (Eval.create c) fun v => [.object v] := by
  refine ofExcept_bind fun frames hf => of_ok rfl fun k hand _ => ?_
  exact ⟨_, .of_step (.create hc hf), by simp⟩

theorem println (line : String) : Traces m needs (Eval.println line) fun _ => [] :=
  of_ok rfl fun _ hand _ => ⟨hand, .of_step (.print line), List.nil_subset _⟩

theorem readLine : Traces m needs Eval.readLine fun _ => [] :=
  of_ok rfl fun _ hand _ => ⟨hand, .of_step .read, List.nil_subset _⟩

theorem checkAccess (name : String) : Traces m needs (Eval.checkAccess name) fun _ => [] := by
  refine get_bind ?_
  split
  · exact fail
  · exact pure (List.nil_subset _)

theorem checkVisible (name : String) : Traces m needs (Eval.checkVisible name) fun _ => [] := by
  refine (checkAccess name).bind fun _ s _ => get_bind ?_
  split
  · exact fail
  · exact pure (List.nil_subset _)

theorem lookup (name : String) : Traces m needs (Eval.lookup name) fun x => [x.value] := by
  refine (checkAccess name).bind fun _ s _ => get_bind ?_
  cases hx : s.store.lookup s.control.scopes name with
  | none => exact fail
  | some x =>
    obtain ⟨i, -, hi⟩ := List.exists_of_findSome?_eq_some hx
    exact of_ok rfl fun k hand _ => ⟨_, .of_step (.look hi), by simp⟩

theorem assign {name : String} {v : Value}
    (hname : name = exceptionName → m.control.handling = true) (hv : v ∈ needs) :
    Traces m needs (Eval.assign name v) fun _ => [] := by
  refine get_bind ?_
  cases ha : m.store.assignment name v m.control.scopes with
  | ok p =>
    refine of_ok rfl fun k hand hn => ⟨hand, ?_, List.nil_subset _⟩
    exact .of_step (.assign (hn hv) hname ha)
  | error e => cases e <;> exact fail

theorem raise {v : Value} (hv : v ∈ needs) : Traces m needs (Eval.raise v) fun _ => [] := by
  refine get_bind ?_
  cases hc : m.store.contains m.control.scopes exceptionName with
  | true =>
    refine get_bind ?_
    cases ha : m.store.assignment exceptionName v m.control.scopes with
    | ok p =>
      refine of_ok rfl fun k hand hn => ⟨hand, ?_, List.nil_subset _⟩
      exact .of_step (.raise (hn hv) ha)
    | error e => cases e <;> exact fail
  | false =>
    simp only [Bool.false_eq_true, ite_false]
    cases hx : m.store.get? m.control.ambient exceptionName with
    | none => exact pure (List.nil_subset _)
    | some x =>
      refine ofExcept_bind fun y ha => of_ok rfl fun k hand hn => ⟨hand, ?_, List.nil_subset _⟩
      exact .of_step (.raiseAmbient (hn hv) hc hx ha)

theorem messageIn (frame : FrameId) : Traces m needs (Eval.messageIn frame) fun v => [v] := by
  refine get_bind ?_
  cases hx : m.store.get? frame exceptionName with
  | some x => exact of_ok rfl fun k hand _ => ⟨_, .of_step (.look hx), by simp⟩
  | none => exact plain (.string "") rfl (by simp)

theorem ambientMessage : Traces m needs Eval.ambientMessage fun _ => [] := by
  refine get_bind (get_bind ?_)
  split
  · exact pure (List.nil_subset _)
  · exact pure (List.nil_subset _)

theorem checkDepth (m : Machine) : Traces m needs Eval.checkDepth fun _ => [] := by
  refine get_bind ?_
  split
  · exact fail
  · exact pure (List.nil_subset _)

theorem activation (shape : Shape) : Traces m needs (Eval.activation shape) fun _ => [] := by
  refine get_bind ?_
  split
  · exact pure (List.nil_subset _)
  · exact fail

theorem superView (m : Machine) : Traces m needs Eval.superView fun _ => [] := by
  refine (activation _).bind fun a s _ => ?_
  simp only
  split
  · exact pure (List.nil_subset _)
  · exact fail

theorem self : Traces m needs Eval.self fun v => [.object v] := by
  refine (activation _).bind fun a s h => of_ok rfl fun k hand _ => ?_
  obtain ⟨ha, rfl⟩ := Eval.activation_eq_ok.mp h
  exact ⟨_, .of_step (.self ha), by simp⟩

end Traces

theorem Frame.values_define? {f f' : Frame} {name : String} {x : Variable}
    (h : f.define? name x = some f') : f'.values = f.values ++ [x.value] := by
  obtain ⟨-, rfl⟩ := define?_eq_some.mp h
  simp [values]

/- The locals of a `let`, whatever their initial values are evaluated by. -/

theorem Local.type_eq {f : Form} {l : Local} (h : ofForm f = .ok l) :
    ∃ name, l.type = TypeTag.ofName name := by
  unfold ofForm at h
  split at h <;> cases h <;> exact ⟨_, rfl⟩

/-- A local has the type that it is declared with, and is zeroed or created with a value. -/
theorem Eval.initial_variable {eval : Form → Eval Operand} {l : Local} {x : Variable}
    {m s : Machine} (h : initial eval l m = .ok (some x) s) :
    x.declared = l.type ∧ (x = .zeroed l.type ∨ ∃ v, Variable.create l.type v = .ok x) := by
  obtain ⟨_, m₁, -, h⟩ := bind_eq_ok.mp h
  cases hi : l.init with
  | none =>
    rw [hi] at h
    cases h
    exact ⟨rfl, .inl rfl⟩
  | some g =>
    rw [hi] at h
    obtain ⟨a, m₂, -, h⟩ := bind_eq_ok.mp h
    cases hv : a.value <;> simp only [hv] at h
    case exception => cases h
    all_goals
      obtain ⟨y, m₃, hy, h⟩ := bind_eq_ok.mp h
      cases h
      have hy := (ofExcept_eq_ok.mp hy).1
      exact ⟨Variable.create_declared hy, .inr ⟨_, hy⟩⟩

theorem Eval.initial_made {eval : Form → Eval Operand} {f : Form} {l : Local} {x : Variable}
    {m s : Machine} (hl : Local.ofForm f = .ok l) (h : initial eval l m = .ok (some x) s) :
    x.Made := by
  obtain ⟨name, ht⟩ := Local.type_eq hl
  obtain ⟨hd, hx⟩ := initial_variable h
  rw [← hd] at ht hx
  exact ⟨⟨name, ht⟩, hx⟩

theorem Eval.locals_made {eval : Form → Eval Operand} {frame frame' : Frame} {fs : List Form}
    {m s : Machine} (h : locals eval frame fs m = .ok (some frame') s)
    (hf : ∀ b ∈ frame.bindings, b.2.Made) :
    frame'.role = frame.role ∧ ∀ b ∈ frame'.bindings, b.2.Made := by
  induction fs generalizing frame m with
  | nil =>
    cases h
    exact ⟨rfl, hf⟩
  | cons f fs ih =>
    obtain ⟨l, x, m₁, hl, hx, h⟩ := locals_cons_eq_ok.mp h
    cases h with
    | inl h =>
      obtain ⟨-, h, -⟩ := h
      cases h
    | inr h =>
      obtain ⟨y, frame'', rfl, hd, h⟩ := h
      have hy := initial_made hl hx
      obtain ⟨-, rfl⟩ := Frame.define?_eq_some.mp hd
      have hmade : ∀ b ∈ frame.bindings ++ [(l.name, y)], b.2.Made := by
        intro b hb
        cases List.mem_append.mp hb with
        | inl hb => exact hf b hb
        | inr hb => rwa [List.mem_singleton.mp hb]
      obtain ⟨hrole, hall⟩ := ih h hmade
      exact ⟨hrole, hall⟩

theorem Registry.returnValue_held {r : Registry} {method : Method} {done : Completion} {v : Value}
    (h : r.returnValue method done = .ok v) : v.isPlain = true ∨ v.held ⊆ done.held := by
  obtain ⟨rfl, rfl⟩ | ⟨w, hw, -, rfl⟩ := returnValue_eq_ok h
  · exact .inr (List.nil_subset _)
  · cases w.retag_eq method.returns with
    | inl hv =>
      rw [hv]
      cases hw with
      | inl hw =>
        subst hw
        exact .inr w.held_subset
      | inr hw =>
        subst hw
        exact .inl (Value.isPlain_zero _)
    | inr hv => exact .inl hv

/- One level of the evaluator takes steps if the code inside it does. -/

section Levels

variable {eval : Form → Eval Operand} {exec : Form → Eval Completion}
  (heval : ∀ f m, Traces m [] (eval f) fun a => a.value.held)
  (hexec : ∀ f m, Traces m [] (exec f) Completion.held)
  (reval : ∀ f, Restores (eval f)) (rexec : ∀ f, Restores (exec f))

namespace Traces

variable {m : Machine} {needs : List Value}

/-- What was at hand stays so. -/
theorem keep {x : Eval α} {gives : α → List Value} (h : Traces m [] x gives) :
    Traces m needs x gives :=
  h.mono (List.nil_subset _) fun _ => List.Subset.refl _

include hexec rexec in
theorem callMethod {receiver : View} {name : String} {vs : List Value}
    (hr : .object receiver ∈ needs ∨
      ∃ a, m.control.activation = some a ∧ a.receiver.parent? = some receiver)
    (hvs : vs ⊆ needs) : Traces m needs (Eval.callMethod exec receiver name vs) Value.held := by
  refine get_bind ?_
  cases hs : m.registry.selectMethod? receiver name (vs.map Value.runtimeType) with
  | none => exact fail
  | some chosen =>
    obtain ⟨view, method⟩ := chosen
    refine bind (checkDepth m) fun _ s hd => ?_
    obtain ⟨hl, rfl⟩ := Eval.checkDepth_eq_ok.mp hd
    refine ofExcept_bind fun bindings hb => ?_
    have hbody := inCall (rexec method.body) hr hvs hs hl hb (keep (hexec method.body _))
    refine congr rfl (hbody.bind (f := fun done => do
      Eval.ofExcept ((← get).registry.returnValue method done)) fun done t _ => get_bind ?_)
    cases hv : t.registry.returnValue method done with
    | error e => exact throw
    | ok v =>
      cases Registry.returnValue_held hv with
      | inl hp => exact plain v hp (List.Subset.trans v.held_subset (by simp))
      | inr hd => exact pure (List.Subset.trans hd (by simp))

include heval in
theorem arguments (fs : List Form) :
    Traces m needs (Eval.arguments eval fs) fun r => r.getD [] := by
  induction fs generalizing m needs with
  | nil => exact pure (by simp)
  | cons f fs ih =>
    refine (keep (heval f m)).bind fun a s _ => ?_
    split
    · exact pure (by simp)
    · rename_i hv
      refine ih.bind fun r _ _ => pure ?_
      rw [Value.held_eq hv]
      cases r <;> simp

include heval hexec reval rexec in
theorem callWith {receiver : View} (name : String) (args : List Form)
    (hr : .object receiver ∈ needs ∨
      ∃ a, m.control.activation = some a ∧ a.receiver.parent? = some receiver) :
    Traces m needs (Eval.callWith eval exec receiver name args) Value.held := by
  refine (arguments heval args).bind fun r s h => ?_
  have hcontrol : s.control = m.control := (Restores.pervasive.arguments reval args).of_ok h
  split
  · refine callMethod hexec rexec ?_ (by simp)
    rw [hcontrol]
    exact hr.imp_left fun h => List.mem_append_right _ h
  · exact pure (List.nil_subset _)

include heval hexec reval rexec in
theorem call (target : Target) (name : String) (args : List Form) :
    Traces m needs (Eval.call eval exec target name args) Value.held := by
  cases target with
  | super =>
    refine bind (superView m) fun v s h => callWith heval hexec reval rexec name args (.inr ?_)
    obtain ⟨a, ha, hv, rfl⟩ := Eval.superView_eq_ok.mp h
    exact ⟨a, ha, hv⟩
  | value f =>
    refine (keep (heval f m)).bind fun a s _ => ?_
    split
    · rename_i v hv
      exact callWith heval hexec reval rexec name args (.inl (by simp [hv, Value.held]))
    · exact pure (List.nil_subset _)
    · exact fail
    · exact fail
    · exact fail

include heval in
theorem binary (op : Operator) (left right : Form) :
    Traces m needs (Eval.binary eval op left right) Value.held := by
  refine (keep (heval left m)).bind fun a s _ => ?_
  split
  · exact pure (List.nil_subset _)
  · refine (keep (heval right s)).bind fun b t _ => ?_
    split
    · exact pure (List.nil_subset _)
    · refine get_bind ((ofExcept_plain fun v hv => ?_).mono (List.Subset.refl _) Value.held_subset)
      exact Value.isPlain_of_isScalar (Registry.isScalar_operate hv)

include heval in
theorem negation (operand : Form) : Traces m needs (Eval.negation eval operand) Value.held := by
  refine (keep (heval operand m)).bind fun a s _ => ?_
  simp only
  split
  · exact pure (List.nil_subset _)
  · refine (ofExcept_plain fun v hv => ?_).mono (List.Subset.refl _) Value.held_subset
    exact Value.isPlain_of_isScalar (Operator.isScalar_negate hv)

theorem newObject (cls : String) : Traces m needs (Eval.newObject cls) fun v => [v] := by
  refine (resolve cls).bind fun c s h => ?_
  obtain ⟨r, hr, rfl⟩ := Eval.building_eq_ok.mp h
  exact (create (Registry.mem_of_resolve hr)).bind fun v _ _ => pure (by simp)

/-- The value of an operand is that of the computation. -/
theorem temporary {x : Eval Value} (h : Traces m needs x Value.held) :
    Traces m needs (do return Operand.temporary (← x)) fun a => a.value.held :=
  h.bind fun v _ _ => pure (by simp [Operand.temporary, Operand.typed])

include heval hexec reval rexec in
theorem expression (e : Expression) :
    Traces m needs (Eval.expression eval exec e) fun a => a.value.held := by
  cases e with
  | literal l =>
    refine plain (.ofLiteral l) (Value.isPlain_ofLiteral l) ?_
    exact List.Subset.trans (Value.held_subset _) (by simp [Operand.temporary, Operand.typed])
  | self =>
    exact self.bind fun v _ _ => pure (by simp [Operand.typed, Value.held])
  | name token =>
    refine (lookup token).bind fun x _ _ => pure ?_
    exact List.Subset.trans (Value.held_subset _) (by simp [Operand.typed])
  | call target method args => exact temporary (call heval hexec reval rexec target method args)
  | create cls =>
    exact temporary ((newObject cls).mono (List.Subset.refl _) Value.held_subset)
  | negation operand => exact temporary (negation heval operand)
  | binary op left right => exact temporary (binary heval op left right)
  | invalid e => exact fail

include heval in
theorem withValue (f : Form) {k : Value → Eval Completion}
    (hk : ∀ v s, Yields (eval f) m v s → Traces s (v :: needs) (k v) Completion.held) :
    Traces m needs (Eval.withValue eval f k) Completion.held := by
  refine (keep (heval f m)).bind fun a s h => ?_
  split
  · exact pure (List.nil_subset _)
  · rename_i hv
    rw [Value.held_eq hv]
    exact hk _ _ ⟨a, h, rfl, Value.isException_eq_false.mpr hv⟩

include hexec in
theorem block (fs : List Form) : Traces m needs (Eval.block exec fs) Completion.held := by
  induction fs generalizing m needs with
  | nil => exact pure (List.nil_subset _)
  | cons f fs ih =>
    refine (keep (hexec f m)).bind fun done s _ => ?_
    split
    · exact ih
    · exact pure (by simp)

include heval in
theorem printLine (line : String) (fs : List Form) :
    Traces m needs (Eval.printLine eval line fs) Completion.held := by
  induction fs generalizing m needs line with
  | nil => exact (println line).bind fun _ _ _ => pure (List.nil_subset _)
  | cons f fs ih => exact withValue heval f fun v s _ => ofExcept_bind fun text _ => ih _

include heval in
theorem condition (form : Conditional) (f : Form) :
    Traces m needs (Eval.condition eval form f) fun _ => [] := by
  refine (keep (heval f m)).bind fun a s _ => ?_
  split
  · exact pure (List.nil_subset _)
  · exact pure (List.nil_subset _)
  · exact fail

include heval hexec in
theorem branch (test consequent : Form) (alternative : Option Form) :
    Traces m needs (Eval.branch eval exec test consequent alternative) Completion.held := by
  refine (condition heval _ test).bind fun b s _ => ?_
  split
  · exact pure (List.nil_subset _)
  · exact keep (hexec _ s)
  · split
    · exact keep (hexec _ s)
    · exact pure (List.nil_subset _)

include heval hexec in
theorem loop (test body : Form) (fuel : Nat) :
    Traces m needs (Eval.loop eval exec test body fuel) Completion.held := by
  induction fuel generalizing m needs with
  | zero => exact throw
  | succ fuel ih =>
    refine (condition heval _ test).bind fun b s _ => ?_
    split
    · exact pure (List.nil_subset _)
    · exact pure (List.nil_subset _)
    · refine (keep (hexec body s)).bind fun done t _ => ?_
      split
      · exact ih
      · exact pure (by simp)

theorem input (kind : InputKind) (name : String) :
    Traces m needs (Eval.input kind name) Completion.held := by
  refine (checkVisible name).bind fun _ s hs => readLine.bind fun line t ht => ?_
  obtain ⟨hname, -, rfl⟩ := Eval.checkVisible_eq_ok.mp hs
  have hcontrol : t.control = s.control := Restores.pervasive.readLine.of_ok ht
  refine (ofExcept_plain fun v hv => ?_).bind fun v u hu => ?_
  · exact Value.isPlain_of_isScalar (Eval.isScalar_received hv)
  · obtain ⟨-, rfl⟩ := Eval.ofExcept_eq_ok.mp hu
    rw [← hcontrol] at hname
    exact (assign hname (by simp)).bind fun _ _ _ => pure (List.nil_subset _)

include heval in
theorem result (value : Option Form) :
    Traces m needs (Eval.result eval value) Completion.held := by
  refine (activation _).bind fun a s _ => ?_
  cases value with
  | none =>
    have hplain : (Eval.tagNull a.method.returns (.zero a.method.returns)).isPlain = true := by
      cases Eval.tagNull_eq a.method.returns (.zero a.method.returns) with
      | inl hv =>
        rw [hv]
        exact Value.isPlain_zero _
      | inr hv => exact hv
    exact plain _ hplain (by simp [Completion.held])
  | some f =>
    refine withValue heval f fun v t _ => ?_
    cases Eval.tagNull_eq a.method.returns v with
    | inl hv => exact pure (by simp [Completion.held, hv])
    | inr hv => exact plain _ hv (by simp [Completion.held])

include heval in
theorem initial (l : Local) :
    Traces m needs (Eval.initial eval l) fun r => r.toList.map Variable.value := by
  refine (resolveType l.type).bind fun _ s _ => ?_
  split
  · exact plain _ (Value.isPlain_zero l.type) (by simp [Variable.zeroed])
  · refine (keep (heval _ s)).bind fun a t _ => ?_
    split
    · exact pure (List.nil_subset _)
    · rename_i hv
      rw [Value.held_eq hv]
      refine ofExcept_bind fun x hx => ?_
      cases Variable.create_value hx with
      | inl hx => exact pure (by simp [hx])
      | inr hx => exact plain _ hx (by simp)

include heval in
theorem locals (frame : Frame) (fs : List Form) (hf : frame.values ⊆ needs) :
    Traces m needs (Eval.locals eval frame fs) fun r => (r.map Frame.values).getD [] := by
  induction fs generalizing m needs frame with
  | nil => exact pure (by simpa using hf)
  | cons f fs ih =>
    refine ofExcept_bind fun l _ => (initial heval l).bind fun r s _ => ?_
    cases r with
    | none => exact pure (List.nil_subset _)
    | some x =>
      cases hd : frame.define? l.name x with
      | none =>
        simp only [hd]
        exact fail
      | some frame' =>
        simp only [hd]
        refine ih frame' ?_
        rw [Frame.values_define? hd]
        simpa using List.Subset.trans hf (by simp)

include heval hexec rexec in
theorem letBlock (decls body : List Form) :
    Traces m needs (Eval.letBlock eval exec decls body) Completion.held := by
  refine (locals heval _ decls (by simp [Frame.empty, Frame.values])).bind fun r s hr => ?_
  cases r with
  | none => exact pure (List.nil_subset _)
  | some frame =>
    obtain ⟨hrole, hmade⟩ := Eval.locals_made hr (by simp [Frame.empty])
    exact inLet (Restores.pervasive.block rexec body) hrole hmade (by simp) (block hexec body)

include hexec rexec in
theorem attempt (body handler : Form) :
    Traces m needs (Eval.attempt exec body handler) Completion.held := by
  have hguarded : Traces m needs (Eval.alloc .forException >>= fun frame =>
      Eval.inTry frame (Eval.guarded exec body handler)) Completion.held := by
    refine inTry (.guarded rexec body handler) ((keep (hexec body _)).bind fun done s _ => ?_)
    split
    · exact inHandler (rexec handler) (keep (hexec handler _))
    · exact pure (by simp)
  refine congr (Eval.attempt_eq exec body handler m) (hguarded.bind fun done s _ => ?_)
  unfold Eval.rethrown
  split
  · exact (messageIn _).bind fun v _ _ =>
      (raise (by simp)).bind fun _ _ _ => pure (List.nil_subset _)
  · exact pure (by simp)

include heval hexec reval rexec in
theorem statement (fuel : Nat) (e : Statement) :
    Traces m needs (Eval.statement fuel eval exec e) Completion.held := by
  cases e with
  | print operands => exact printLine heval "" operands
  | assign name value =>
    refine (checkVisible name).bind fun _ s hs => withValue heval value fun v t ht => ?_
    obtain ⟨hname, -, rfl⟩ := Eval.checkVisible_eq_ok.mp hs
    obtain ⟨a, ha, -⟩ := ht
    rw [← (reval value).of_ok ha] at hname
    exact (assign hname (by simp)).bind fun _ _ _ => pure (List.nil_subset _)
  | block body => exact block hexec body
  | branch test consequent alternative => exact branch heval hexec test consequent alternative
  | loop test body => exact loop heval hexec test body fuel
  | bind decls body => exact letBlock heval hexec rexec decls body
  | input kind name => exact input kind name
  | result value => exact result heval value
  | attempt body handler => exact attempt hexec rexec body handler
  | throw message =>
    exact withValue heval message fun v _ _ =>
      (raise (by simp)).bind fun _ _ _ => pure (List.nil_subset _)
  | expression f => exact withValue heval f fun _ _ _ => pure (List.nil_subset _)
  | invalid e => exact fail

end Traces

end Levels

/-- Induction on the fuel, as for the control. -/
theorem traces_evaluator (fuel : Nat) :
    (∀ f m, Traces m [] (eval fuel f) fun a => a.value.held) ∧
      ∀ f m, Traces m [] (exec fuel f) Completion.held := by
  induction fuel with
  | zero => exact ⟨fun _ _ => .throw, fun _ _ => .throw⟩
  | succ fuel ih =>
    have heval := restores_eval fuel
    have hexec := restores_exec fuel
    exact ⟨fun _ _ => .expression ih.1 ih.2 heval hexec _,
      fun _ _ => .statement ih.1 ih.2 heval hexec fuel _⟩

theorem traces_eval (fuel : Nat) (f : Form) (m : Machine) :
    Traces m [] (eval fuel f) fun a => a.value.held :=
  (traces_evaluator fuel).1 f m

theorem traces_exec (fuel : Nat) (f : Form) (m : Machine) :
    Traces m [] (exec fuel f) Completion.held :=
  (traces_evaluator fuel).2 f m

theorem traces_run (fuel : Nat) (m : Machine) : Traces m [] (Eval.run fuel) fun _ => [] := by
  refine (Traces.resolve "main").bind fun c s h => ?_
  obtain ⟨r, hr, rfl⟩ := Eval.building_eq_ok.mp h
  refine (Traces.create (Registry.mem_of_resolve hr)).bind fun main s _ => ?_
  refine (Traces.callMethod (traces_exec fuel) (restores_exec fuel) (.inl (by simp))
    (List.nil_subset _)).bind fun v s _ => ?_
  split
  · exact Traces.ambientMessage.bind fun _ _ _ => .pure (List.nil_subset _)
  · exact .pure (List.nil_subset _)

end ObjectLang
