import ObjectLang.Proofs.Declared
import ObjectLang.Proofs.Reachable

/-!
Types at run time: in every machine that a run reaches, each variable holds a value that its
declared type admits, and a method gives its caller a value that its declared type admits.
-/

namespace ObjectLang

/-- The declared type admits the value, and it is the tag of a null. The marker is no value of a
variable. -/
structure Variable.Typed (x : Variable) : Prop where
  admits : x.declared.admits x.value = true
  tagged : ∀ tag, x.value = .null tag → tag = some x.declared
  unmarked : x.value ≠ .exception

theorem TypeTag.admits_retag {t : TypeTag} {v : Value} (h : t.admits v = true) :
    t.admits (v.retag t) = true := by
  cases v <;> exact h

theorem Value.tag_of_retag {t : TypeTag} {v : Value} {tag : Option TypeTag}
    (h : v.retag t = .null tag) : tag = some t := by
  cases v <;> cases h
  rfl

theorem Value.retag_ne_exception {t : TypeTag} {v : Value} (h : v ≠ .exception) :
    v.retag t ≠ .exception := by
  cases v <;> simp_all [retag]

namespace Variable

theorem typed_zeroed {t : TypeTag} (h : ∃ name, t = TypeTag.ofName name) : (zeroed t).Typed := by
  obtain ⟨name, rfl⟩ := h
  unfold TypeTag.ofName
  split
  · exact ⟨rfl, nofun, nofun⟩
  · split
    · exact ⟨rfl, nofun, nofun⟩
    · split
      · exact ⟨rfl, nofun, nofun⟩
      · split
        · exact ⟨rfl, nofun, nofun⟩
        · refine ⟨rfl, fun tag h => ?_, nofun⟩
          cases h
          rfl

theorem typed_assign {x y : Variable} {v : Value} (h : x.assign v = .ok y)
    (hv : v ≠ .exception) : y.Typed := by
  obtain ⟨hadmits, rfl⟩ := assign_eq_ok.mp h
  exact ⟨TypeTag.admits_retag hadmits, fun _ => Value.tag_of_retag, Value.retag_ne_exception hv⟩

theorem typed_create {t : TypeTag} {v : Value} {x : Variable} (h : create t v = .ok x)
    (hv : v ≠ .exception) : x.Typed :=
  typed_assign h hv

theorem typed_of_made {x : Variable} (h : x.Made) (hx : x.value ≠ .exception) : x.Typed := by
  obtain ⟨ht, hz | ⟨v, hv⟩⟩ := h
  · rw [hz]
    exact typed_zeroed ht
  · refine typed_create hv fun he => hx ?_
    obtain ⟨-, hx⟩ := assign_eq_ok.mp hv
    rw [hx, he]
    rfl

end Variable

theorem typed_bindArguments {ps : List Param} {vs : List Value}
    {bindings : List (String × Variable)} (h : bindArguments ps vs = .ok bindings)
    (hvs : .exception ∉ vs) : ∀ b ∈ bindings, b.2.Typed := by
  induction ps generalizing vs bindings with
  | nil =>
    cases h
    simp
  | cons p ps ih =>
    cases vs with
    | nil =>
      cases h
      simp
    | cons v vs =>
      obtain ⟨x, hx, h⟩ := except_bind_eq_ok.mp h
      obtain ⟨rest, hrest, rfl⟩ := except_map_eq_ok.mp h
      simp only [List.mem_cons, not_or] at hvs
      intro b hb
      cases List.mem_cons.mp hb with
      | inl h =>
        subst h
        exact Variable.typed_create hx (Ne.symm hvs.1)
      | inr hb => exact ih hrest hvs.2 b hb

/- The fields of a new object. -/

theorem Field.typed_variable {f : Field} {x : Variable} (h : f.variable = .ok x)
    (ht : ∃ name, f.type = TypeTag.ofName name) : x.Typed := by
  unfold Field.variable at h
  split at h
  · refine Variable.typed_create h ?_
    rename_i l _
    cases l <;> nofun
  · cases h
    exact Variable.typed_zeroed ht

theorem Class.typed_fieldFrame {c : Class} {frame : Frame} (h : c.fieldFrame = .ok frame)
    (hc : c.own.Declared) : ∀ b ∈ frame.bindings, b.2.Typed := by
  obtain ⟨bindings, hb, rfl⟩ := except_map_eq_ok.mp h
  intro b hmem
  obtain ⟨f, hf, hmap⟩ := mem_of_mapM hb hmem
  obtain ⟨x, hx, rfl⟩ := except_map_eq_ok.mp hmap
  exact Field.typed_variable hx (hc.field_type f hf)

theorem Class.typed_fieldFrames {own : ClassBody} {ancestors : List ClassBody} {frames : List Frame}
    (h : fieldFramesFrom own ancestors = .ok frames) (hc : ∀ b ∈ own :: ancestors, b.Declared) :
    ∀ frame ∈ frames, ∀ b ∈ frame.bindings, b.2.Typed := by
  induction ancestors generalizing own frames with
  | nil =>
    obtain ⟨frame, hf, rfl⟩ := except_map_eq_ok.mp h
    intro frame' hmem
    rw [List.mem_singleton.mp hmem]
    exact typed_fieldFrame hf (hc own List.mem_cons_self)
  | cons p ps ih =>
    obtain ⟨fs, hfs, h⟩ := except_bind_eq_ok.mp h
    obtain ⟨frame, hf, rfl⟩ := except_map_eq_ok.mp h
    intro frame' hmem
    cases List.mem_append.mp hmem with
    | inl hmem => exact ih hfs (fun b hb => hc b (List.mem_cons_of_mem own hb)) frame' hmem
    | inr hmem =>
      rw [List.mem_singleton.mp hmem]
      exact typed_fieldFrame hf (hc own List.mem_cons_self)

theorem Frame.typed_forException : ∀ b ∈ forException.bindings, b.2.Typed := by
  intro b hb
  rw [List.mem_singleton.mp hb]
  exact ⟨rfl, nofun, nofun⟩

def Store.Typed (s : Store) : Prop := ∀ i f, s.frame? i = some f → ∀ b ∈ f.bindings, b.2.Typed

theorem Store.Typed.get? {s : Store} (h : s.Typed) {i : FrameId} {name : String} {x : Variable}
    (hx : s.get? i name = some x) : x.Typed :=
  All.get? h hx

structure Moment.Typed (p : Moment) : Prop where
  declared : p.machine.registry.Declared
  store : p.machine.store.Typed
  unmarked : .exception ∉ p.hand

theorem Step.typed {p q : Moment} (h : Step p q) (hp : p.Typed) : q.Typed := by
  obtain ⟨hdeclared, hstore, hmark⟩ := hp
  cases h with
  | print | read | enterHandler | leave => exact ⟨hdeclared, hstore, hmark⟩
  | resolve name =>
    exact ⟨hdeclared.extends ((Registry.grows_resolve name).after _), hstore, hmark⟩
  | plain hv =>
    have hne := Ne.symm (Value.ne_exception_of_isPlain hv)
    exact ⟨hdeclared, hstore, List.not_mem_cons_of_ne_of_not_mem hne hmark⟩
  | look hx =>
    have hne := Ne.symm (hstore.get? hx).unmarked
    exact ⟨hdeclared, hstore, List.not_mem_cons_of_ne_of_not_mem hne hmark⟩
  | self => exact ⟨hdeclared, hstore, List.not_mem_cons_of_ne_of_not_mem nofun hmark⟩
  | create hc hf =>
    refine ⟨hdeclared, Store.All.pushAll hstore (Class.typed_fieldFrames hf (hdeclared _ hc)), ?_⟩
    exact List.not_mem_cons_of_ne_of_not_mem nofun hmark
  | assign hv _ ha | raise hv ha =>
    obtain ⟨_, _, x, -, -, -, hx⟩ := Store.assignment_eq_ok ha
    have htyped := Variable.typed_assign hx fun he => hmark (he ▸ hv)
    exact ⟨hdeclared, Store.All.set hstore htyped, hmark⟩
  | raiseAmbient hv _ _ ha =>
    have htyped := Variable.typed_assign ha fun he => hmark (he ▸ hv)
    exact ⟨hdeclared, Store.All.set hstore htyped, hmark⟩
  | enterLet _ hm hv =>
    refine ⟨hdeclared, Store.All.push hstore fun b hb => ?_, hmark⟩
    refine Variable.typed_of_made (hm b hb) fun he => hmark ?_
    exact hv (List.mem_map.mpr ⟨b, hb, he⟩)
  | enterTry => exact ⟨hdeclared, Store.All.push hstore Frame.typed_forException, hmark⟩
  | enterCall _ hvs _ _ hb =>
    have htyped := typed_bindArguments hb fun he => hmark (hvs he)
    exact ⟨hdeclared, Store.All.push hstore htyped, hmark⟩

theorem typed_start {forms : List Form} {r : Registry} (h : Registry.load forms = .ok r)
    (sink : Sink) (source : Source) (limit : Option Nat) :
    Moment.Typed ⟨Machine.start r sink source limit, [], []⟩ := by
  refine ⟨Registry.declared_load h, ?_, List.not_mem_nil⟩
  have hempty : Store.empty.Typed := fun i f hf => by simp [Store.empty, Store.frame?] at hf
  exact Store.All.push hempty Frame.typed_forException

/-- The value that a finished body gives to the caller is the marker or fits the declared type. -/
theorem Registry.returnValue_typed {r : Registry} {method : Method} {done : Completion} {v : Value}
    (h : r.returnValue method done = .ok v) :
    v = .exception ∨ method.returns.admits v = true ∧
      ∀ tag, v = .null tag → tag = some method.returns := by
  obtain ⟨-, rfl⟩ | ⟨w, -, hr, rfl⟩ := returnValue_eq_ok h
  · exact .inl rfl
  · refine .inr ⟨TypeTag.admits_retag ?_, fun _ => Value.tag_of_retag⟩
    cases w with
    | null tag =>
      simp only [returnable, Bool.and_eq_true] at hr
      exact hr.1
    | _ => exact hr

/-- In every machine that runs of a loaded program pass through, all variables of all frames are
typed: fields, arguments, locals and messages alike. A method that is called gives the marker or a
value that its declared type admits, and a null that it gives has this type as its tag. -/
theorem runs_are_typed {forms : List Form} {r : Registry} (h : Registry.load forms = .ok r) :
    (∀ (sink : Sink) (source : Source) (limit : Option Nat) (m : Machine),
      Reachable (Machine.start r sink source limit) m →
      ∀ (i : FrameId) (f : Frame), m.store.frame? i = some f →
      ∀ (name : String) (x : Variable), (name, x) ∈ f.bindings → x.Typed) ∧
    ∀ (fuel : Nat) (receiver : View) (name : String) (vs : List Value) (m s : Machine) (v : Value),
      Eval.callMethod (exec fuel) receiver name vs m = .ok v s →
      ∃ view method,
        m.registry.selectMethod? receiver name (vs.map Value.runtimeType) = some (view, method) ∧
        (v = .exception ∨ method.returns.admits v = true ∧
          ∀ tag, v = .null tag → tag = some method.returns) := by
  constructor
  · intro sink source limit m hm i f hf name x hx
    obtain ⟨k, hand, hs⟩ := hm.steps
    have htyped := hs.keeps (fun _ _ => Step.typed) (typed_start h sink source limit)
    exact htyped.store i f hf (name, x) hx
  · intro fuel receiver name vs m s v hv
    obtain ⟨view, method, _, _, _, hs, -, -, -, hv, -⟩ :=
      (Eval.callMethod_eq_ok (restores_exec fuel)).mp hv
    exact ⟨view, method, hs, Registry.returnValue_typed hv⟩

/-- In the sample, the field of the object under `main` is one of these variables, and a call gives
a null. -/
theorem sample_is_typed :
    Registry.load Sample.forms = .ok Sample.start.registry ∧
      Reachable Sample.start Sample.entered ∧
      (∃ f, Sample.entered.store.frame? 1 = some f ∧
        ("next", ⟨.ofClass "main", .null (some (.ofClass "main"))⟩) ∈ f.bindings) ∧
      (∀ i f, Sample.entered.store.frame? i = some f →
        ∀ name x, (name, x) ∈ f.bindings → x.Typed) ∧
      ∃ s v, Eval.callMethod (exec 3) ⟨1, Sample.cls, []⟩ "nothing" [] Sample.entered = .ok v s ∧
        (v = .exception ∨ (TypeTag.ofClass "main").admits v = true ∧
          ∀ tag, v = .null tag → tag = some (.ofClass "main")) := by
  have hload : Registry.load Sample.forms = .ok Sample.start.registry := rfl
  have hentered : Reachable Sample.start Sample.entered := .started Sample.occurs_main
  obtain ⟨hstore, hcall⟩ := runs_are_typed hload
  obtain ⟨s, hs⟩ : ∃ s, Eval.callMethod (exec 3) ⟨1, Sample.cls, []⟩ "nothing" [] Sample.entered =
      .ok (.null (some (.ofClass "main"))) s := ⟨_, rfl⟩
  obtain ⟨view, method, hmethod, hv⟩ := hcall _ _ _ _ _ _ _ hs
  cases hmethod
  exact ⟨hload, hentered, ⟨_, rfl, .head _⟩, hstore _ _ _ _ hentered, s, _, hs, hv⟩

end ObjectLang
