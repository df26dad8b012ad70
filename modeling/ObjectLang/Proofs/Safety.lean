import ObjectLang.Proofs.Levels
import ObjectLang.Proofs.Loading
import ObjectLang.Proofs.Pervasive
import ObjectLang.Proofs.Places

/-!
Branches that no run takes. Whatever the forms of a program are, its code runs inside methods, its
views see levels that their objects have, and names that were in scope before an operand was
evaluated are in scope afterwards.
-/

namespace ObjectLang

/- Errors about code outside of any method. -/

def Error.isOutside : Error → Bool
  | .malformed .selfOutside | .malformed .superOutside | .malformed .resultOutside => true
  | _ => false

theorem Error.isOutside_of_isAboutCalls {e : Error} (h : e.isAboutCalls = false) :
    e.isOutside = false := by
  unfold isOutside
  split <;> first | cases h | rfl

def Indoors {α : Type} (x : Eval α) : Prop :=
  ∀ c : Control, c.activation.isSome → Triple (fun m => m.control = c) x (fun _ m => m.control = c)
    fun stop m => m.control = c ∧ ∀ e, stop = .failed e → e.isOutside = false

namespace Indoors

variable {α : Type} {m s : Machine} {x : Eval α}

theorem not_outside (h : Indoors x) (ha : m.control.activation.isSome) {e : Error}
    (hx : x m = .error (.failed e) s) : e.isOutside = false := by
  have hends := h m.control ha m rfl
  rw [hx] at hends
  exact hends.2 e rfl

theorem read {k : Machine → Eval α} (hk : ∀ m, Indoors (k m)) : Indoors (get >>= k) :=
  fun c hc m hm => hk m c hc m hm

theorem fail {e : Error} (h : e.isOutside = false) : Indoors (Eval.fail e : Eval α) := by
  rintro c - m hm
  refine ⟨hm, ?_⟩
  rintro _ ⟨⟩
  exact h

theorem pervasive : Pervasive fun _ x => Indoors x where
  pure a _ _ := Triple.pure fun _ hm => hm
  starve _ _ := Triple.throw fun _ hm => ⟨hm, nofun⟩
  fail h := fail (Error.isOutside_of_isAboutCalls h)
  bind hx hf c hc := (hx c hc).bind fun a => hf a c hc
  read hk _ := read hk
  write hcontrol _ _ _ := Triple.modify fun m hm => (hcontrol m).trans hm
  println _ _ _ := Triple.modify fun _ hm => hm
  readLine := read fun _ _ _ =>
    Triple.bind (Triple.modify fun _ hm => hm) fun _ => Triple.pure fun _ hm => hm
  building := by
    rintro α b h c - m hm
    unfold Eval.building
    cases hb : b m.registry with
    | ok a r => exact hm
    | error stop r =>
      refine ⟨hm, ?_⟩
      rintro e rfl
      exact Error.isOutside_of_isAboutCalls (h _ _ e hb)
  bracket := by
    intro α enter leave x hleave hactive hx c hc m hm
    have hinner := hx (enter c) (hactive c hc) { m with control := enter m.control }
      (congrArg enter hm)
    unfold Eval.bracket
    simp only
    cases h : x { m with control := enter m.control } with
    | ok a s =>
      rw [h] at hinner
      simp only at hinner ⊢
      rw [hinner, hm, hleave]
    | error stop s =>
      rw [h] at hinner
      obtain ⟨hcontrol, herror⟩ := hinner
      refine ⟨?_, herror⟩
      rw [hcontrol, hm, hleave]
  checkDepth := by
    refine read fun m => ?_
    split
    · exact fail rfl
    · exact fun _ _ => Triple.pure fun _ hm => hm
  activation shape c hc m hm := by
    obtain ⟨a, ha⟩ := Option.isSome_iff_exists.mp hc
    rw [Eval.activation_eq_ok.mpr ⟨hm ▸ ha, rfl⟩]
    exact hm

end Indoors

def NotOutside {α : Type} (x : Eval α) : Prop :=
  Triple (fun _ => True) x (fun _ _ => True) fun stop _ => ∀ e, stop = .failed e → e.isOutside = false

namespace NotOutside

variable {α β : Type} {x : Eval α} {f : α → Eval β}

theorem of_error (h : NotOutside x) {m s : Machine} {e : Error} (hx : x m = .error (.failed e) s) :
    e.isOutside = false := by
  have hends := h m trivial
  rw [hx] at hends
  exact hends e rfl

theorem pure (a : α) : NotOutside (pure a : Eval α) := Triple.pure fun _ _ => trivial

theorem fail {e : Error} (h : e.isOutside = false) : NotOutside (Eval.fail e : Eval α) := by
  rintro m - _ ⟨⟩
  exact h

theorem bind (hx : NotOutside x) (hf : ∀ a, NotOutside (f a)) : NotOutside (x >>= f) :=
  Triple.bind hx hf

theorem read {k : Machine → Eval α} (hk : ∀ m, NotOutside (k m)) : NotOutside (get >>= k) :=
  fun m hm => hk m m hm

theorem ofExcept {r : Except Error α} (h : Shallow r) : NotOutside (Eval.ofExcept r) := by
  cases r with
  | ok a => exact pure a
  | error e => exact fail (Error.isOutside_of_isAboutCalls (h e rfl))

/-- A called method runs inside. -/
theorem inCall (view : View) (method : Method) (frame : FrameId) (hx : Indoors x) :
    NotOutside (Eval.inCall view method frame x) := by
  rintro m -
  unfold Eval.inCall Eval.bracket
  simp only
  cases h : x { m with control := m.control.enterCall view method frame } with
  | ok a s => trivial
  | error stop s =>
    rintro e rfl
    exact hx.not_outside rfl h

theorem resolve (name : String) : NotOutside (Eval.building (Registry.resolve name)) := by
  rintro m -
  unfold Eval.building
  cases h : Registry.resolve name m.registry with
  | ok c r => trivial
  | error stop r =>
    rintro e rfl
    exact Error.isOutside_of_isAboutCalls (Registry.shallow_resolve h)

theorem alloc (f : Frame) : NotOutside (Eval.alloc f) := fun _ _ => trivial

theorem create (c : Class) : NotOutside (Eval.create c) :=
  (ofExcept c.shallow_fieldFrames).bind fun _ _ _ => trivial

theorem callMethod (fuel : Nat) (receiver : View) (name : String) (vs : List Value) :
    NotOutside (Eval.callMethod (exec fuel) receiver name vs) := by
  refine read fun m => ?_
  split
  · exact fail rfl
  · refine bind ?_ fun _ => (ofExcept (shallow_bindArguments _ _)).bind fun _ =>
      (alloc _).bind fun _ => (inCall _ _ _ (Indoors.pervasive.exec fuel _)).bind fun _ =>
        read fun _ => ofExcept (Registry.shallow_returnValue _ _ _)
    refine read fun m => ?_
    split
    · exact fail rfl
    · exact pure _

theorem run (fuel : Nat) : NotOutside (Eval.run fuel) := by
  refine (resolve "main").bind fun c => (create c).bind fun main =>
    (callMethod fuel main "main" []).bind fun v => ?_
  split
  · refine bind (read fun m => read fun m' => ?_) fun _ => pure _
    split
    · exact pure _
    · exact pure _
  · exact pure _

end NotOutside

namespace Registry

theorem shallow_declare (r : Registry) (f : Form) : Shallow (r.declare f) := by
  have hname : ∀ name, Shallow (r.checkName name) := by
    intro name
    unfold checkName
    split
    · simp [Error.isAboutCalls]
    · split <;> simp [Error.isAboutCalls]
  have hclass : ∀ name ancestors decls, Shallow (r.addClass name ancestors decls) :=
    fun name _ decls => (ClassBody.shallow_ofForms name decls).map _
  have hheir : ∀ name rest, Shallow (r.addHeir name rest) := by
    intro name rest
    unfold addHeir
    split
    · split
      · split
        · exact hclass _ _ _
        · simp [Error.isAboutCalls]
      · simp [Error.isAboutCalls]
    · exact hclass _ _ _
  unfold declare
  split
  · unfold declareClass
    split
    · exact (hname _).bind fun _ => hheir _ _
    · simp [Error.isAboutCalls]
  · unfold declareTemplate
    split
    · refine (hname _).bind fun _ => ?_
      split <;> simp [Error.isAboutCalls]
    · simp [Error.isAboutCalls]
  · simp [Error.isAboutCalls]

theorem shallow_load {forms : List Form} {e : Error} (h : load forms = .error (.failed e)) :
    e.isAboutCalls = false := by
  rw [← Schedule.load_inOrder] at h
  cases hd : declareAll forms with
  | error e' =>
    rw [Schedule.load_eq_error hd] at h
    cases h
    exact Shallow.foldlM shallow_declare _ _ e hd
  | ok r =>
    obtain ⟨_, hload, -⟩ | ⟨e', n, hload, -, -, hexpand⟩ := Schedule.load_cases (s := .inOrder) hd
    · rw [hload] at h
      cases h
    · rw [hload] at h
      cases h
      exact r.shallow_expand n e hexpand

end Registry

/- Views of objects. -/

/-- The object has a level where the view looks, and the fields of its class are in the store. -/
structure View.InRange (s : Store) (v : View) : Prop where
  level_lt : v.level < v.object.levels.length
  current : v.object.levels[v.level]? = some v
  fields : s.outline? v.frame = some (.fields v.cls)

theorem View.getElem?_levels (v : View) : v.object.levels[v.level]? = some v := by
  obtain ⟨front, hfront, -⟩ := upward_descend v.base v.cls v.derived
  have hwhole : v.mostDerived.upward = front ++ v.upward := hfront
  have hobject : View.upward ⟨v.object.base, v.object.cls, []⟩ = v.mostDerived.upward := by
    have hbase : v.mostDerived.base = v.base := v.sameObject_mostDerived.1
    rw [upward, upward, derived_mostDerived, hbase]
    rfl
  have hhead : v.upward[0]? = some v := by
    obtain ⟨base, ⟨own, ancestors⟩, derived⟩ := v
    cases ancestors <;> rfl
  have hlength := v.length_upward
  have hlt : v.level < (front ++ v.upward).length := by
    rw [List.length_append]
    omega
  have hplace : (front ++ v.upward).length - 1 - v.level = front.length := by
    rw [List.length_append]
    omega
  rw [Instance.levels, hobject, hwhole, List.getElem?_reverse hlt, hplace,
    List.getElem?_append_right (Nat.le_refl _), Nat.sub_self, hhead]

theorem View.Located.inRange {s : Store} {v : View} (h : v.Located s) : v.InRange s :=
  ⟨(List.getElem?_eq_some_iff.mp v.getElem?_levels).1, v.getElem?_levels, h.frame⟩

/-- The views that a task works with, each on the machine where it does: those that variables hold,
those of the running receiver, of a called object and of arguments, and what comes of the task. -/
inductive Task.Views : Task → Machine → View → Prop
  | stored (hx : t.machine.store.get? i name = some x) (hv : x.value = .object v) :
      Views t t.machine v
  | running (ha : t.machine.control.activation = some a) : Views t t.machine a.receiver
  | self (ha : t.machine.control.activation = some a) : Views t t.machine a.receiver.mostDerived
  | super (hv : Eval.superView t.machine = .ok v m) : Views t m v
  | called : Views ⟨n, .call v name vs, m⟩ m v
  | argument (hv : .object v ∈ vs) : Views ⟨n, .call receiver name vs, m⟩ m v
  | searched (hv : receiver.atLevel? l = some v) : Views ⟨n, .call receiver name vs, m⟩ m v
  | value (hf : eval n f m = .ok a s) (hv : a.value = .object v) : Views ⟨n, .eval f, m⟩ s v
  | returned (hf : exec n f m = .ok (.returned (.object v)) s) : Views ⟨n, .exec f, m⟩ s v
  | result (h : Eval.callMethod (exec n) receiver name vs m = .ok (.object v) s) :
      Views ⟨n, .call receiver name vs, m⟩ s v

section Runs

variable {r : Registry} {sink : Sink} {source : Source} {limit : Option Nat} {t : Task}
  {m : Machine}

theorem Steps.located {p : Moment} (h : Steps ⟨Machine.start r sink source limit, [], []⟩ p) :
    p.Located :=
  h.keeps (fun _ _ => Step.located) (located_start r sink source limit)

theorem Moment.Located.receives {p : Moment} (h : p.Located) {v : View} (hv : p.Receives v) :
    v.Located p.machine.store :=
  (Moment.located_iff.mp h).receives lasting_located hv

theorem Occurs.located (ht : Occurs (Machine.start r sink source limit) t) {v : View}
    (hv : t.Views m v) : v.Located m.store := by
  obtain ⟨k, hand, hsteps, hready⟩ := ht.steps
  have hlocated := hsteps.located
  cases hv with
  | stored hx hv => exact hlocated.store.get? hx v hv
  | running ha => exact hlocated.receivers _ List.mem_cons_self _ ha
  | self ha =>
    exact (hlocated.receivers _ List.mem_cons_self _ ha).sameObject (View.sameObject_mostDerived _)
  | super hv =>
    obtain ⟨a, ha, hp, rfl⟩ := Eval.superView_eq_ok.mp hv
    exact (hlocated.receivers _ List.mem_cons_self _ ha).sameObject (View.sameObject_parent? hp)
  | called => exact hlocated.receives hready.1
  | argument hv => exact hlocated.hand _ (hready.2 hv) _ rfl
  | searched hv =>
    have hobject := (hlocated.receives hready.1).sameObject (View.sameObject_mostDerived _)
    exact hobject.sameObject (View.sameObject_upward (List.mem_of_find?_eq_some hv))
  | value hf hv =>
    obtain ⟨hand', hsteps', hgives⟩ := (traces_eval _ _ _).steps (List.nil_subset hand) hf
    exact (hsteps.trans hsteps').located.hand _ (hgives (by simp [hv, Value.held])) _ rfl
  | returned hf =>
    obtain ⟨hand', hsteps', hgives⟩ := (traces_exec _ _ _).steps (List.nil_subset hand) hf
    exact (hsteps.trans hsteps').located.hand _ (hgives (by simp [Completion.held])) _ rfl
  | @result n receiver name vs m₀ v s h =>
    have htraces : Traces m₀ hand (Eval.callMethod (exec n) receiver name vs) Value.held :=
      .callMethod (traces_exec n) (restores_exec n) hready.1 hready.2
    obtain ⟨hand', hsteps', hgives⟩ := htraces.steps (List.Subset.refl hand) h
    exact (hsteps.trans hsteps').located.hand _ (hgives (by simp [Value.held])) _ rfl

/- The running method and its scopes. -/

/-- Expressions and statements are parts of the body of a method. -/
theorem Occurs.exists_activation (ht : Occurs (Machine.start r sink source limit) t)
    (hwork : ∀ receiver name vs, t.work ≠ .call receiver name vs) :
    ∃ a, t.machine.control.activation = some a := by
  obtain ⟨fuels, fuel, c, main, m₁, m₂, -, -, rfl⟩ | ⟨call, a, body, blocks, hcall, hc, hin⟩ :=
    ht.inside
  · exact absurd rfl (hwork _ _ _)
  · obtain ⟨-, hactive, -⟩ := hin.stacked (located_start r sink source limit)
      (ambient_start r sink source limit) hcall hc
    exact ⟨a, hactive⟩

/-- Wherever a method runs, a variable for messages is in scope. -/
theorem Occurs.contains_message (ht : Occurs (Machine.start r sink source limit) t)
    (hm : t.Passes m) (hwork : ∀ receiver name vs, t.work ≠ .call receiver name vs) :
    m.store.contains m.control.scopes exceptionName = true := by
  obtain ⟨fuels, fuel, c, main, m₁, m₂, -, -, rfl⟩ | ⟨call, a, body, blocks, hcall, hc, hin⟩ :=
    ht.inside
  · exact absurd rfl (hwork _ _ _)
  · obtain ⟨-, -, hstacked⟩ := hin.stacked (located_start r sink source limit)
      (ambient_start r sink source limit) hcall hc
    obtain ⟨hmessage, above, below, hscopes, -⟩ :=
      (hstacked.preserves hm.control (hm.preserves ht)).nearest
    exact Store.contains_message hscopes hmessage

theorem Calls.depth_final {a : Activation} {u : Task} (h : Calls t a u) :
    u.final.control.depth = t.machine.control.depth + 1 := by
  rw [u.control_final]
  cases h
  rfl

end Runs

/- Names that are looked for before a value is there to assign. -/

/-- A visible name is still in scope when the same code runs on with a store that has grown, so an
assignment to it fails for the type of the value only. -/
theorem Eval.assign_of_visible {name : String} {m s t : Machine} {v : Value} {stop : Stop}
    (hvisible : checkVisible name m = .ok () m) (hcontrol : s.control = m.control)
    (hstore : m.store.Preserves s.store) (h : assign name v s = .error stop t) :
    ∃ declared got, stop = .failed (.assignmentMismatch declared got) := by
  obtain ⟨-, hcontains, -⟩ := checkVisible_eq_ok.mp hvisible
  have hscope : s.store.contains s.control.scopes name = true := by
    rw [hcontrol]
    exact hstore.contains hcontains
  have hassign := (bind_ok (x := get) rfl _).symm.trans h
  cases ha : s.store.assignment name v s.control.scopes with
  | ok target =>
    simp only [ha] at hassign
    cases hassign
  | error e =>
    cases e with
    | undefined => exact absurd ha (Store.assignment_of_contains hscope v)
    | rejected e =>
      simp only [ha] at hassign
      cases hassign
      obtain ⟨x, rfl⟩ := Store.assignment_eq_rejected ha
      exact ⟨x.declared, v.runtimeType, rfl⟩

/-- Whatever forms make up a program, none of the following happens. Forms of any shape are read
without going beyond the end of a list. A view looks at a level that its object has, and a new object
has a level to be seen at. The count of calls under way does not fall below none. No code runs
outside of a method, and neither loading nor a run fails for it. The search for a method misses no
level. A message always finds a variable in scope, so that the ambient frame is not looked at. A
variable that was found before an operand was evaluated, or before a line was read, is still there to
be assigned. -/
theorem impossible_branches_are_not_taken (r : Registry) (sink : Sink) (source : Source)
    (limit : Option Nat) :
    let start := Machine.start r sink source limit
    (∀ f, Statement.read? f = some (Statement.ofForm f) ∧
      Expression.read? f = some (Expression.ofForm f) ∧
      ∀ r : Registry, r.readClass? f = some (r.declareClass f) ∧
        r.readTemplate? f = some (r.declareTemplate f)) ∧
    (∀ t m v, Occurs start t → t.Views m v → v.InRange m.store) ∧
    (∀ c frames, Class.fieldFrames c = .ok frames → frames.length = c.depth + 1) ∧
    (∀ t a u, Calls t a u → u.final.control.depth = t.machine.control.depth + 1) ∧
    (∀ forms e, Registry.load forms = .error (.failed e) → e.isOutside = false) ∧
    (∀ fuels fuel e m, Eval.run fuel (start.runs fuels) = .error (.failed e) m →
      e.isOutside = false) ∧
    (∀ t, Occurs start t → (∀ receiver name vs, t.work ≠ .call receiver name vs) →
      ∀ shape, ∃ a, Eval.activation shape t.machine = .ok a t.machine) ∧
    (∀ (r : Registry) (receiver : View) name types,
      (∀ l ≤ receiver.level, ∃ w, receiver.atLevel? l = some w ∧ w.level = l) ∧
      r.selectFrom? receiver name types receiver.level = r.selectMethod? receiver name types) ∧
    (∀ n f g m a s, Occurs start ⟨n + 1, .exec f, m⟩ → Statement.ofForm f = .throw g →
      eval n g m = .ok a s → s.store.contains s.control.scopes exceptionName = true) ∧
    (∀ t u s, Occurs start t → Handles t u → u.RaisesIn s →
      s.store.contains t.machine.control.scopes exceptionName = true) ∧
    ∀ name m s, Eval.checkVisible name m = .ok () m →
      (∃ n g a, eval n g m = .ok a s) ∨ (∃ line, Eval.readLine m = .ok line s) →
      ∀ v stop t, Eval.assign name v s = .error stop t →
        ∃ declared got, stop = .failed (.assignmentMismatch declared got) := by
  intro start
  refine ⟨fun f => ⟨Statement.read?_eq f, Expression.read?_eq f, fun r =>
      ⟨r.readClass?_eq f, r.readTemplate?_eq f⟩⟩,
    fun t m v ht hv => (ht.located hv).inRange, ?_, fun t a u => Calls.depth_final,
    fun forms e h => Error.isOutside_of_isAboutCalls (Registry.shallow_load h),
    fun fuels fuel e m => (NotOutside.run fuel).of_error, ?_, ?_, ?_, ?_, ?_⟩
  · intro c frames h
    exact (Class.fieldFramesFrom_spec h).1
  · intro t ht hwork shape
    obtain ⟨a, ha⟩ := ht.exists_activation hwork
    exact ⟨a, Eval.activation_eq_ok.mpr ⟨ha, rfl⟩⟩
  · intro r receiver name types
    refine ⟨fun l hl => ?_, Registry.selectFrom?_level⟩
    obtain ⟨w, hw, hlevel, -⟩ := View.exists_atLevel? hl
    exact ⟨w, hw, hlevel⟩
  · intro n f g m a s ht hf hg
    have hfinal : Task.final ⟨n, .eval g, m⟩ = s := after_of_ok hg
    have hpasses := Task.Passes.ended (t := ⟨n, .eval g, m⟩)
    rw [hfinal] at hpasses
    exact (ht.starts (.awaits (.message hf))).contains_message hpasses nofun
  · intro t u s ht hu hraised
    refine ht.contains_message (.handsOn hu hraised) ?_
    cases hu
    exact nofun
  · rintro name m s hvisible (⟨n, g, a, hg⟩ | ⟨line, hline⟩) v stop t h
    · obtain ⟨hand, hsteps, -⟩ := (traces_eval n g m).steps (k := []) (List.nil_subset []) hg
      exact Eval.assign_of_visible hvisible ((restores_eval n g).of_ok hg) hsteps.preserves h
    · cases hline
      refine Eval.assign_of_visible hvisible ?_ ?_ h
      · rfl
      · exact .refl _

/-- In the sample, the receiver of `main` is seen at a level that it has, and the handler in `main`
throws a message that finds a variable. A `let` without declarations is refused and not sliced. -/
theorem sample_branches_are_not_taken :
    View.InRange Sample.entered.store ⟨1, Sample.cls, []⟩ ∧
      (∃ s, exec 7 (.list [.atom "throw", .atom "exception"])
          (after (exec 7 Sample.print) Sample.entered.enterTry).enterHandler = .ok .raised s ∧
        s.store.contains Sample.entered.control.scopes exceptionName = true) ∧
      Statement.read? (.list [.atom "let"]) = some (.invalid (.malformed .locals)) := by
  obtain ⟨hread, hviews, -, -, -, -, -, -, -, hhandsOn, -⟩ :=
    impossible_branches_are_not_taken ⟨[Sample.cls], []⟩ (.buffer "") (.queue []) none
  have hmain := Sample.occurs_main
  have hrunning : Task.Views ⟨8, .exec Sample.running.body, Sample.entered⟩ Sample.entered
      ⟨1, Sample.cls, []⟩ := .running (a := ⟨⟨1, Sample.cls, []⟩, Sample.running⟩) rfl
  obtain ⟨m, hm⟩ : ∃ m, exec 7 Sample.print Sample.entered.enterTry = .ok .raised m :=
    exists_raised (by decide +kernel)
  obtain ⟨s, hs⟩ : ∃ s, exec 7 (.list [.atom "throw", .atom "exception"])
      (after (exec 7 Sample.print) Sample.entered.enterTry).enterHandler = .ok .raised s :=
    exists_raised (by decide +kernel)
  have hhandler : Handles ⟨8, .exec Sample.running.body, Sample.entered⟩
      ⟨7, .exec (.list [.atom "throw", .atom "exception"]), m.enterHandler⟩ := .handler rfl hm
  refine ⟨hviews _ _ _ hmain hrunning, ⟨s, hs, ?_⟩, (hread _).1⟩
  rw [after_of_ok hm] at hs
  exact hhandsOn _ _ s hmain hhandler hs

end ObjectLang
