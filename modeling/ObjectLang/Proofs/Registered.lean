import ObjectLang.Proofs.Heap
import ObjectLang.Proofs.Loading

/-!
The classes of a run are registered: that of every object in the store, and with it all of its
ancestors. Each is found under its name and has a body that is read from declarations. The method
that runs is one that the class at its receiver's level declares.
-/

namespace ObjectLang

namespace Registry

def Rooted (r : Registry) : Prop :=
  ∀ c ∈ r.classes, ∀ d : Class, d.line <:+ c.line → d ∈ r.classes

namespace Rooted

variable {r r' : Registry}

theorem insert (h : r.Rooted) {c : Class}
    (hanc : c.ancestors = [] ∨ ∃ p ∈ r.classes, c.ancestors = p.line) : (r.insert c).Rooted := by
  have hold : ∀ d ∈ r.classes, d ∈ (r.insert c).classes := fun d hd => List.mem_append_left _ hd
  intro d hd e he
  cases List.mem_append.mp hd with
  | inl hd => exact hold e (h d hd e he)
  | inr hd =>
    rw [List.mem_singleton.mp hd] at he
    obtain heq | he := List.suffix_cons_iff.mp he
    · cases Class.line_inj (d := c) heq
      simp [Registry.insert]
    · obtain hanc | ⟨p, hp, hanc⟩ := hanc
      · simp [hanc, Class.line] at he
      · exact hold e (h p hp e (hanc ▸ he))

theorem declare (h : r.Rooted) {form : Form} (hd : r.declare form = .ok r') : r'.Rooted := by
  obtain ⟨t, rfl⟩ | ⟨name, decls, c, -, -, hanc, rfl⟩ := declare_cases hd
  · exact h
  · exact h.insert hanc

theorem grown (h : r.Rooted) {P : String → Prop} (hr : r.Grown P r') : r'.Rooted := by
  intro c hc d hd
  obtain hold | ⟨-, hexpand⟩ := hr.mem_or_expand hc
  · exact hr.mem (h c hold d hd)
  · obtain ⟨_, _, _, _, -, -, -, -, -, hanc⟩ := expand_eq_ok.mp hexpand
    obtain heq | hd := List.suffix_cons_iff.mp hd
    · cases Class.line_inj (d := c) heq
      exact hc
    · simp [hanc, Class.line] at hd

end Rooted

/-- What loading makes sure of and resolution keeps. -/
structure Orderly (r : Registry) : Prop where
  sound : r.Sound
  rooted : r.Rooted
  declared : r.Declared

theorem orderly_load {forms : List Form} {r : Registry} (h : load forms = .ok r) : r.Orderly := by
  obtain ⟨r₀, hr₀, hcomplete⟩ :=
    Schedule.inOrder.completes_of_load ((Schedule.load_inOrder forms).trans h)
  have hrooted : r₀.Rooted :=
    foldlM_keeps (fun _ _ _ hr hd => Rooted.declare hr hd) (by simp [Rooted, empty]) hr₀
  exact ⟨(sound_declareAll hr₀).grown hcomplete.grown, hrooted.grown hcomplete.grown,
    declared_load h⟩

theorem grown_resolve (r : Registry) (name : String) :
    r.Grown (fun _ => True) (after (resolve name) r) :=
  (r.resolved_resolve name).grown

theorem Orderly.resolve {r : Registry} (h : r.Orderly) (name : String) :
    (after (Registry.resolve name) r).Orderly :=
  ⟨h.sound.grown (r.grown_resolve name), h.rooted.grown (r.grown_resolve name),
    h.declared.extends ((grows_resolve name).after r)⟩

end Registry

structure Moment.Registered (p : Moment) : Prop where
  registry : p.machine.registry.Orderly
  classes : ∀ {i c}, p.machine.store.outline? i = some (.fields c) →
    c ∈ p.machine.registry.classes

theorem Step.registered {p q : Moment} (h : Step p q) (hp : p.Registered) : q.Registered := by
  obtain ⟨hregistry, hclasses⟩ := hp
  -- A frame that is pushed for a scope is none of an object.
  have hpush : ∀ {f : Frame} {i : FrameId} {c : Class}, (∀ cls, f.role ≠ .fields cls) →
      (p.machine.store.push f).outline? i = some (.fields c) →
        c ∈ p.machine.registry.classes := by
    intro f i c hrole hi
    obtain hi | ⟨-, heq⟩ := Store.outline?_push hi
    · exact hclasses hi
    · exact absurd (congrArg Outline.role heq).symm (hrole c)
  cases h with
  | print | read | plain | look | self | enterHandler | leave => exact ⟨hregistry, hclasses⟩
  | resolve name =>
    refine ⟨hregistry.resolve name, ?_⟩
    intro i c hi
    exact (Registry.grown_resolve _ name).mem (hclasses hi)
  | create hc hf =>
    refine ⟨hregistry, ?_⟩
    intro i d hi
    obtain hi | ⟨j, -, hj⟩ := Store.outline?_pushAll hi
    · exact hclasses hi
    · obtain ⟨e, hline, -, heq⟩ := Class.outline_fieldFrames hf hj
      rw [Outline.fields_inj heq]
      exact hregistry.rooted _ hc e hline
  | assign _ _ ha | raise _ ha =>
    obtain ⟨_, _, x, -, -, hx, hy⟩ := Store.assignment_eq_ok ha
    refine ⟨hregistry, ?_⟩
    intro i c hi
    rw [Store.outline?_set hx (Variable.assign_declared hy)] at hi
    exact hclasses hi
  | raiseAmbient _ _ hx ha =>
    refine ⟨hregistry, ?_⟩
    intro i c hi
    rw [Store.outline?_set hx (Variable.assign_declared ha)] at hi
    exact hclasses hi
  | enterLet hr => exact ⟨hregistry, hpush (by simp [hr])⟩
  | enterTry => exact ⟨hregistry, hpush nofun⟩
  | enterCall => exact ⟨hregistry, hpush nofun⟩

theorem registered_start {r : Registry} (h : r.Orderly) (sink : Sink) (source : Source)
    (limit : Option Nat) : Moment.Registered ⟨Machine.start r sink source limit, [], []⟩ := by
  refine ⟨h, ?_⟩
  intro i c hi
  obtain hi | ⟨-, heq⟩ := Store.outline?_push hi
  · simp [Store.empty, Store.outline?, Store.frame?] at hi
  · cases (congrArg Outline.role heq : FrameRole.fields c = .exception)

/-- A run adds to the registry only. -/
theorem Step.grown {p q : Moment} (h : Step p q) :
    p.machine.registry.Grown (fun _ => True) q.machine.registry := by
  cases h with
  | resolve name => exact Registry.grown_resolve _ name
  | _ => exact .refl _

def Moment.Declares (p : Moment) : Prop :=
  ∀ c ∈ p.machine.control :: p.waiting, ∀ a, c.activation = some a →
    a.method ∈ a.receiver.cls.own.methods

theorem Step.declares {p q : Moment} (h : Step p q) (hp : p.Declares) : q.Declares := by
  have hnow := hp _ List.mem_cons_self
  cases h with
  | print | read | resolve | plain | look | self | create | assign | raise | raiseAmbient =>
    exact hp
  | enterLet | enterTry | enterHandler => exact List.forall_mem_cons.mpr ⟨hnow, hp⟩
  | enterCall _ _ hs =>
    obtain ⟨-, hmem, -⟩ := Registry.selectMethod?_spec hs
    refine List.forall_mem_cons.mpr ⟨?_, hp⟩
    intro a ha
    cases ha
    exact hmem
  | leave => exact (List.forall_mem_cons.mp hp).2

section Runs

variable {r : Registry} {sink : Sink} {source : Source} {limit : Option Nat} {m : Machine}

theorem Reachable.orderly (h : r.Orderly)
    (hm : Reachable (Machine.start r sink source limit) m) : m.registry.Orderly := by
  obtain ⟨k, hand, hsteps⟩ := hm.steps
  exact (hsteps.keeps (fun _ _ => Step.registered) (registered_start h sink source limit)).registry

theorem Reachable.grown (hm : Reachable (Machine.start r sink source limit) m) :
    r.Grown (fun _ => True) m.registry := by
  obtain ⟨k, hand, hsteps⟩ := hm.steps
  exact hsteps.keeps (P := fun p => r.Grown (fun _ => True) p.machine.registry)
    (fun _ _ hs hp => hp.trans hs.grown) (.refl r)

/-- The class at the level of a view is registered. -/
theorem Reachable.mem_classes (h : r.Orderly)
    (hm : Reachable (Machine.start r sink source limit) m) {v : View}
    (hv : m.store.Holds v.object) : v.cls ∈ m.registry.classes := by
  obtain ⟨k, hand, hsteps⟩ := hm.steps
  have hregistered :=
    hsteps.keeps (fun _ _ => Step.registered) (registered_start h sink source limit)
  have hlayered : m.store.Layered := hsteps.layered
  have hline : v.cls.line <:+ v.object.cls.line := by
    rw [v.line_object]
    exact List.suffix_append _ _
  exact hregistered.classes (hlayered.below hv.last hline)

theorem Reachable.mem_methods (hm : Reachable (Machine.start r sink source limit) m)
    {a : Activation} (ha : m.control.activation = some a) :
    a.method ∈ a.receiver.cls.own.methods := by
  obtain ⟨k, hand, hsteps⟩ := hm.steps
  have hstart : Moment.Declares ⟨Machine.start r sink source limit, [], []⟩ := by
    intro c hc b hb
    rw [List.mem_singleton.mp hc] at hb
    cases hb
  exact hsteps.keeps (fun _ _ => Step.declares) hstart _ List.mem_cons_self a ha

/-- The store holds the receiver of the running method. -/
theorem Reachable.holds_receiver (hm : Reachable (Machine.start r sink source limit) m)
    {a : Activation} (ha : m.control.activation = some a) : m.store.Holds a.receiver.object := by
  obtain ⟨k, hand, hsteps⟩ := hm.steps
  exact hsteps.whole.receivers _ List.mem_cons_self a ha

/-- The machine on which `main` is about to be called has the object that it is called on. -/
theorem reachable_launched {c : Class} {frames : List Frame} (hc : r.find? "main" = some c)
    (hf : c.fieldFrames = .ok frames) :
    Reachable (Machine.start r sink source limit)
      { Machine.start r sink source limit with
        store := (Machine.start r sink source limit).store.pushAll frames } := by
  have hresolve : Registry.resolve "main" r = .ok c r := by
    refine (bind_ok (x := get) rfl _).trans ?_
    rw [hc]
    rfl
  have hmain : Eval.building (Registry.resolve "main") (Machine.start r sink source limit) =
      .ok c (Machine.start r sink source limit) := Eval.building_eq_ok.mpr ⟨r, hresolve, rfl⟩
  have hcreate : Eval.create c (Machine.start r sink source limit) =
      .ok ⟨1, c, []⟩ { Machine.start r sink source limit with
        store := (Machine.start r sink source limit).store.pushAll frames } :=
    bind_ok (Eval.ofExcept_eq_ok.mpr ⟨hf, rfl⟩) _
  have hlaunched : Launches 0 (Machine.start r sink source limit)
      ⟨0, .call ⟨1, c, []⟩ "main" [], { Machine.start r sink source limit with
        store := (Machine.start r sink source limit).store.pushAll frames }⟩ :=
    ⟨c, _, _, _, hmain, hcreate, rfl⟩
  exact .started ⟨[], 0, _, hlaunched, .refl⟩

end Runs

end ObjectLang
