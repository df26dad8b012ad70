import ObjectLang.Proofs.Heap

/-!
Dispatch: an object is held, passed and given at its own class only, whatever the class of the
method that has it. A call on a value therefore looks for its method from the object's own class, and
so does a call on the receiver in a method that the class inherits.
-/

namespace ObjectLang

/- The search for a method. -/

namespace Registry

def firstMethod? (r : Registry) (line : List ClassBody) (name : String) (types : List TypeTag) :
    Option (ClassBody × Method) :=
  line.findSome? fun b => (r.bestMethod? b name types).map fun method => (b, method)

def chosen? (r : Registry) (v : View) (name : String) (types : List TypeTag) :
    Option (ClassBody × Method) :=
  (r.selectMethod? v name types).map fun chosen => (chosen.1.cls.own, chosen.2)

end Registry

theorem View.map_upwardFrom (base : FrameId) (own : ClassBody)
    (derived ancestors : List ClassBody) :
    (upwardFrom base own derived ancestors).map (fun v => v.cls.own) = own :: ancestors := by
  induction ancestors generalizing own derived with
  | nil => rfl
  | cons p ps ih => simp [upwardFrom, ih]

theorem Registry.chosen?_eq (r : Registry) (v : View) (name : String) (types : List TypeTag) :
    r.chosen? v name types = r.firstMethod? v.cls.line name types := by
  have hline : v.cls.line = v.upward.map fun w => w.cls.own :=
    (View.map_upwardFrom v.base v.cls.own v.derived v.cls.ancestors).symm
  rw [chosen?, selectMethod?, firstMethod?, hline, List.findSome?_map, List.map_findSome?]
  congr 1
  funext w
  simp [Option.map_map, Function.comp_def]

/- Objects at their own class. -/

namespace View.Whole

variable {s : Store} {v w : View}

theorem object_cls (h : v.Whole s) : v.object.cls = v.cls := by
  rw [object_of_derived h.derived]

/-- The search starts at the class of the object. -/
theorem chosen?_eq (h : v.Whole s) (r : Registry) (name : String) (types : List TypeTag) :
    r.chosen? v name types = r.firstMethod? v.object.cls.line name types := by
  rw [h.object_cls]
  exact r.chosen?_eq v name types

theorem eq_of_base (hs : s.Layered) (hv : v.Whole s) (hw : w.Whole s) (h : v.base = w.base) :
    v = w := by
  have hobject := hs.holds_unique hw.held hv.held h
  rw [object_of_derived hv.derived, object_of_derived hw.derived] at hobject
  obtain ⟨base, cls, derived⟩ := v
  obtain ⟨base', cls', derived'⟩ := w
  cases hv.derived
  cases hw.derived
  cases hobject
  rfl

theorem same_iff (hs : s.Layered) (hv : v.Whole s) (hw : w.Whole s) :
    v.same w = true ↔ v.base = w.base := by
  constructor
  · intro h
    simp only [same, Bool.and_eq_true, beq_iff_eq] at h
    exact h.1
  · intro h
    cases eq_of_base hs hv hw h
    simp [same]

end View.Whole

/- Objects that the tasks of a run have. -/

theorem Eval.self_of_activation {m : Machine} {a : Activation}
    (ha : m.control.activation = some a) : self m = .ok a.receiver.mostDerived m :=
  bind_ok (activation_eq_ok.mpr ⟨ha, rfl⟩) _

theorem eval_self {n : Nat} {g : Form} {m : Machine} {a : Activation}
    (hg : Expression.ofForm g = .self) (ha : m.control.activation = some a) :
    eval (n + 1) g m =
      .ok (.typed (.object a.receiver.mostDerived) (.ofClass a.receiver.mostDerived.cls.name)) m := by
  rw [eval, hg]
  exact bind_ok (Eval.self_of_activation ha) _

section Runs

variable {r : Registry} {sink : Sink} {source : Source} {limit : Option Nat}

theorem Occurs.whole_eval {n : Nat} {f : Form} {m s : Machine} {a : Operand} {v : View}
    (h : Occurs (Machine.start r sink source limit) ⟨n, .eval f, m⟩) (hf : eval n f m = .ok a s)
    (hv : a.value = .object v) : v.Whole s.store := by
  obtain ⟨k, hand, hsteps, -⟩ := h.steps
  obtain ⟨hand', hsteps', hgives⟩ := (traces_eval n f m).steps (List.nil_subset hand) hf
  exact (hsteps.trans hsteps').whole.hand v (hgives (by simp [hv, Value.held]))

theorem Occurs.whole_exec {n : Nat} {f : Form} {m s : Machine} {v : View}
    (h : Occurs (Machine.start r sink source limit) ⟨n, .exec f, m⟩)
    (hf : exec n f m = .ok (.returned (.object v)) s) : v.Whole s.store := by
  obtain ⟨k, hand, hsteps, -⟩ := h.steps
  obtain ⟨hand', hsteps', hgives⟩ := (traces_exec n f m).steps (List.nil_subset hand) hf
  exact (hsteps.trans hsteps').whole.hand v (hgives (by simp [Completion.held]))

theorem Occurs.whole_call {n : Nat} {receiver : View} {name : String} {vs : List Value}
    {m : Machine} (h : Occurs (Machine.start r sink source limit) ⟨n, .call receiver name vs, m⟩) :
    (∀ v, .object v ∈ vs → v.Whole m.store) ∧
      (receiver.Whole m.store ∨
        ∃ a, m.control.activation = some a ∧ a.receiver.parent? = some receiver) ∧
      ∀ v s, Eval.callMethod (exec n) receiver name vs m = .ok (.object v) s → v.Whole s.store := by
  obtain ⟨k, hand, hsteps, hreceives, hvs⟩ := h.steps
  have hwhole := hsteps.whole
  refine ⟨fun v hv => hwhole.hand v (hvs hv), hreceives.imp_left (hwhole.hand receiver), ?_⟩
  intro v s hv
  have htraces : Traces m hand (Eval.callMethod (exec n) receiver name vs) Value.held :=
    .callMethod (traces_exec n) (restores_exec n) hreceives hvs
  obtain ⟨hand', hsteps', hgives⟩ := htraces.steps (List.Subset.refl hand) hv
  exact (hsteps.trans hsteps').whole.hand v (hgives (by simp [Value.held]))

/-- The call of a method on the value of a form finds an object at its own class. -/
theorem Occurs.whole_receiver {n : Nat} {f g : Form} {name : String} {args : List Form}
    {m m₁ m₂ : Machine} {a : Operand} {v : View} {vs : List Value}
    (h : Occurs (Machine.start r sink source limit) ⟨n + 1, .eval f, m⟩)
    (hf : Expression.ofForm f = .call (.value g) name args) (hg : eval n g m = .ok a m₁)
    (hv : a.value = .object v) (hvs : Eval.arguments (eval n) args m₁ = .ok (some vs) m₂) :
    Starts ⟨n + 1, .eval f, m⟩ ⟨n, .call v name vs, m₂⟩ ∧ v.Whole m₂.store := by
  have hcall : Awaits ⟨n + 1, .eval f, m⟩ ⟨n, .call v name vs, m₂⟩ :=
    .invocation hf ⟨a, hg, hv⟩ hvs
  obtain ⟨k, hand, hsteps, -⟩ := h.steps
  obtain ⟨hand₁, hsteps₁, hgives⟩ := (traces_eval n g m).steps (List.nil_subset hand) hg
  obtain ⟨hand₂, hsteps₂, -⟩ : ∃ hand₂, Steps ⟨m₁, k, hand₁⟩ ⟨m₂, k, hand₂⟩ ∧ vs ⊆ hand₂ :=
    steps_arguments hvs
  have hhand : .object v ∈ hand₂ := hsteps₂.hand_subset (hgives (by simp [hv, Value.held]))
  exact ⟨.awaits hcall, ((hsteps.trans hsteps₁).trans hsteps₂).whole.hand v hhand⟩

end Runs

/-- In every machine that a run passes through, the objects in variables are held at their own
classes. So are those that expressions give, that methods return and that calls have as arguments,
and the receivers of all calls but those by `super`. Hence a call on a value looks for the method
from the object's own class, two objects are the same view if and only if they are in the same place,
and a call on the running receiver looks from the receiver's own class, whatever class declares the
running method. -/
theorem objects_are_held_whole (r : Registry) (sink : Sink) (source : Source) (limit : Option Nat) :
    (∀ m, Reachable (Machine.start r sink source limit) m →
      m.store.All fun x => ∀ v, x.value = .object v → v.Whole m.store) ∧
    (∀ n f m a s v, Occurs (Machine.start r sink source limit) ⟨n, .eval f, m⟩ →
      eval n f m = .ok a s → a.value = .object v → v.Whole s.store) ∧
    (∀ n f m s v, Occurs (Machine.start r sink source limit) ⟨n, .exec f, m⟩ →
      exec n f m = .ok (.returned (.object v)) s → v.Whole s.store) ∧
    (∀ n receiver name vs m,
      Occurs (Machine.start r sink source limit) ⟨n, .call receiver name vs, m⟩ →
      (∀ v, .object v ∈ vs → v.Whole m.store) ∧
      (receiver.Whole m.store ∨
        ∃ a, m.control.activation = some a ∧ a.receiver.parent? = some receiver) ∧
      ∀ v s, Eval.callMethod (exec n) receiver name vs m = .ok (.object v) s → v.Whole s.store) ∧
    (∀ n f g name args m m₁ m₂ a v vs,
      Occurs (Machine.start r sink source limit) ⟨n + 1, .eval f, m⟩ →
      Expression.ofForm f = .call (.value g) name args → eval n g m = .ok a m₁ →
      a.value = .object v → Eval.arguments (eval n) args m₁ = .ok (some vs) m₂ →
      Starts ⟨n + 1, .eval f, m⟩ ⟨n, .call v name vs, m₂⟩ ∧ v.Whole m₂.store ∧
      ∀ types, m₂.registry.chosen? v name types =
        m₂.registry.firstMethod? v.object.cls.line name types) ∧
    (∀ (m : Machine) (v w : View), Reachable (Machine.start r sink source limit) m →
      v.Whole m.store → w.Whole m.store →
      (v.same w = true ↔ v.base = w.base) ∧ (v.base = w.base ↔ v = w)) ∧
    ∀ n f g name args m m₁ a vs,
      Occurs (Machine.start r sink source limit) ⟨n + 2, .eval f, m⟩ →
      Expression.ofForm f = .call (.value g) name args → Expression.ofForm g = .self →
      m.control.activation = some a → Eval.arguments (eval (n + 1)) args m = .ok (some vs) m₁ →
      Starts ⟨n + 2, .eval f, m⟩ ⟨n + 1, .call a.receiver.mostDerived name vs, m₁⟩ ∧
      ∀ types, m₁.registry.chosen? a.receiver.mostDerived name types =
        m₁.registry.firstMethod? a.receiver.object.cls.line name types := by
  refine ⟨?_, fun _ _ _ _ _ _ h hf hv => h.whole_eval hf hv,
    fun _ _ _ _ _ h hf => h.whole_exec hf, fun _ _ _ _ _ h => h.whole_call, ?_, ?_, ?_⟩
  · intro m hm
    obtain ⟨k, hand, hsteps⟩ := hm.steps
    exact hsteps.whole.store
  · intro n f g name args m m₁ m₂ a v vs h hf hg hv hvs
    obtain ⟨hstarts, hwhole⟩ := h.whole_receiver hf hg hv hvs
    exact ⟨hstarts, hwhole, hwhole.chosen?_eq m₂.registry name⟩
  · intro m v w hm hv hw
    obtain ⟨k, hand, hsteps⟩ := hm.steps
    have hlayered : m.store.Layered := hsteps.layered
    refine ⟨hv.same_iff hlayered hw, hv.eq_of_base hlayered hw, ?_⟩
    rintro rfl
    rfl
  · intro n f g name args m m₁ a vs h hf hg ha hvs
    obtain ⟨hstarts, hwhole⟩ := h.whole_receiver hf (eval_self hg ha) rfl hvs
    refine ⟨hstarts, ?_⟩
    intro types
    rw [hwhole.chosen?_eq m₁.registry name types, View.object_eq a.receiver.sameObject_mostDerived]

/- A program whose inherited `main` calls a method on the receiver that the class overrides. -/

namespace Sample

def callTag : Form := .list [.atom "call", .atom "me", .atom "tag"]

def tagging (text : String) : Method :=
  ⟨"tag", .int, [], .list [.atom "return", .atom text]⟩

def inherited : Method := ⟨"main", .void, [], callTag⟩

def general : Class := ⟨⟨"base", [], [tagging "1", inherited]⟩, []⟩

def special : Class := ⟨⟨"main", [], [tagging "2"]⟩, general.line⟩

def overriding : Machine := Machine.start ⟨[special, general], []⟩ (.buffer "") (.queue []) none

def inheriting : Machine :=
  (after (Eval.create special) overriding).enterCall ⟨1, general, [special.own]⟩ inherited []

theorem occurs_callTag : Occurs overriding ⟨7, .eval callTag, inheriting⟩ := by
  have hmain : Awaits ⟨8, .call ⟨1, special, []⟩ "main" [], after (Eval.create special) overriding⟩
      ⟨8, .exec inherited.body, inheriting⟩ := .body rfl rfl rfl
  have hcall : Awaits ⟨8, .exec inherited.body, inheriting⟩ ⟨7, .eval callTag, inheriting⟩ :=
    .expression rfl
  have hlaunched : Occurs overriding ⟨8, .exec inherited.body, inheriting⟩ :=
    ⟨[], 8, _, ⟨special, _, overriding, _, rfl, rfl, rfl⟩, .single (.awaits hmain)⟩
  exact hlaunched.starts (.awaits hcall)

end Sample

/-- In the sample, `main` runs with its receiver seen as an instance of the parent, and its call on
the receiver runs the method of the class. -/
theorem sample_reaches_the_override :
    Sample.inheriting.control.activation =
      some ⟨⟨1, Sample.general, [Sample.special.own]⟩, Sample.inherited⟩ ∧
    Starts ⟨7, .eval Sample.callTag, Sample.inheriting⟩
      ⟨6, .call ⟨1, Sample.special, []⟩ "tag" [], Sample.inheriting⟩ ∧
    Sample.inheriting.registry.chosen? ⟨1, Sample.special, []⟩ "tag" [] =
      some (Sample.special.own, Sample.tagging "2") := by
  obtain ⟨-, -, -, -, -, -, hself⟩ :=
    objects_are_held_whole ⟨[Sample.special, Sample.general], []⟩ (.buffer "") (.queue []) none
  obtain ⟨hstarts, hchosen⟩ := hself 5 Sample.callTag (.atom "me") "tag" [] _ _ _ []
    Sample.occurs_callTag rfl rfl rfl rfl
  exact ⟨rfl, hstarts, (hchosen []).trans rfl⟩

end ObjectLang
