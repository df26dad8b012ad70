import ObjectLang.Proofs.Step

/-!
Where objects are. An object has, for each class on its line, a frame with the fields that the class
declares, at the level of the class. Every view of it that a run has at hand, in a variable or as
the receiver of a method, sees the same frames.
-/

namespace ObjectLang

def Outline.fields (c : Class) : Outline := ⟨.fields c, c.own.fields.map fun f => (f.name, f.type)⟩

/- The frames of a new object. -/

theorem Field.variable_spec {f : Field} {x : Variable} (h : f.variable = .ok x) :
    x.declared = f.type ∧ x.value.isPlain = true := by
  unfold Field.variable at h
  split at h
  · refine ⟨Variable.create_declared h, ?_⟩
    cases Variable.create_value h with
    | inl hv => simp [hv]
    | inr hv => exact hv
  · cases h
    exact ⟨rfl, Value.isPlain_zero _⟩

theorem Field.bindings_spec {fields : List Field} {bindings : List (String × Variable)}
    (h : Field.bindings fields = .ok bindings) :
    bindings.map (fun b => (b.1, b.2.declared)) = fields.map (fun f => (f.name, f.type)) ∧
      ∀ b ∈ bindings, b.2.value.isPlain = true := by
  induction fields generalizing bindings with
  | nil =>
    cases h
    simp
  | cons f fields ih =>
    rw [Field.bindings, List.mapM_cons] at h
    obtain ⟨b, hb, h⟩ := except_bind_eq_ok.mp h
    obtain ⟨bs, hbs, h⟩ := except_bind_eq_ok.mp h
    cases h
    obtain ⟨x, hx, rfl⟩ := except_map_eq_ok.mp hb
    obtain ⟨hdeclared, hplain⟩ := Field.variable_spec hx
    obtain ⟨hmap, hrest⟩ := ih hbs
    exact ⟨by simp [hmap, hdeclared], List.forall_mem_cons.mpr ⟨hplain, hrest⟩⟩

namespace Class

theorem fieldFrame_spec {c : Class} {frame : Frame} (h : c.fieldFrame = .ok frame) :
    frame.outline = .fields c ∧ ∀ b ∈ frame.bindings, b.2.value.isPlain = true := by
  obtain ⟨bindings, hb, rfl⟩ := except_map_eq_ok.mp h
  obtain ⟨hmap, hplain⟩ := Field.bindings_spec hb
  exact ⟨by simp [Frame.outline, Outline.fields, hmap], hplain⟩

theorem line_inj {c d : Class} (h : c.line = d.line) : c = d := by
  obtain ⟨own, ancestors⟩ := c
  obtain ⟨own', ancestors'⟩ := d
  cases h
  rfl

/-- The frame of each class on the line stands at the level of the class. -/
theorem fieldFramesFrom_spec {own : ClassBody} {ancestors : List ClassBody} {frames : List Frame}
    (h : fieldFramesFrom own ancestors = .ok frames) :
    frames.length = ancestors.length + 1 ∧
      (∀ d : Class, d.line <:+ own :: ancestors →
        (frames[d.depth]?).map Frame.outline = some (.fields d)) ∧
      ∀ frame ∈ frames, ∀ b ∈ frame.bindings, b.2.value.isPlain = true := by
  induction ancestors generalizing own frames with
  | nil =>
    obtain ⟨frame, hf, rfl⟩ := except_map_eq_ok.mp h
    obtain ⟨houtline, hplain⟩ := fieldFrame_spec hf
    refine ⟨rfl, ?_, by simpa using hplain⟩
    intro d hd
    obtain hd | hd := List.suffix_cons_iff.mp hd
    · cases line_inj (d := ⟨own, []⟩) hd
      simp [depth, houtline]
    · simp [line] at hd
  | cons p ps ih =>
    obtain ⟨fs, hfs, h⟩ := except_bind_eq_ok.mp h
    obtain ⟨frame, hf, rfl⟩ := except_map_eq_ok.mp h
    obtain ⟨houtline, hplain⟩ := fieldFrame_spec hf
    obtain ⟨hlength, houtlines, hplains⟩ := ih hfs
    refine ⟨by simp [hlength], ?_, ?_⟩
    · intro d hd
      obtain hd | hd := List.suffix_cons_iff.mp hd
      · cases line_inj (d := ⟨own, p :: ps⟩) hd
        simp [depth, ← hlength, houtline]
      · have hdepth : d.depth < fs.length := by
          have hle := hd.length_le
          simp only [line, List.length_cons] at hle
          simp only [depth]
          omega
        rw [List.getElem?_append_left hdepth]
        exact houtlines d hd
    · intro g hg
      cases List.mem_append.mp hg with
      | inl hg => exact hplains g hg
      | inr hg =>
        rw [List.mem_singleton.mp hg]
        exact hplain

end Class

namespace Store

theorem frames_pushAll (s : Store) (fs : List Frame) :
    (s.pushAll fs).frames.toList = s.frames.toList ++ fs := by
  induction fs generalizing s with
  | nil => simp [pushAll]
  | cons f fs ih =>
    have hrest : (s.pushAll (f :: fs)).frames.toList = (s.push f).frames.toList ++ fs :=
      ih (s.push f)
    simp [hrest, push]

theorem frame?_pushAll (s : Store) (fs : List Frame) (i : Nat) :
    (s.pushAll fs).frame? (s.next + i) = fs[i]? := by
  rw [frame?, ← Array.getElem?_toList, frames_pushAll, List.getElem?_append_right (by simp [next])]
  simp [next]

end Store

/- Views of one object. -/

namespace View

def whole (v : View) : List ClassBody := v.derived.reverse ++ v.cls.line

def SameObject (v w : View) : Prop := w.base = v.base ∧ w.whole = v.whole

theorem sameObject_parent? {v w : View} (h : v.parent? = some w) : v.SameObject w := by
  obtain ⟨base, ⟨own, ancestors⟩, derived⟩ := v
  cases ancestors with
  | nil => cases h
  | cons p ps =>
    cases h
    simp [SameObject, whole, Class.line]

theorem sameObject_descend (base : FrameId) (c : Class) (derived : List ClassBody) :
    SameObject ⟨base, c, derived⟩ (descend base c derived) := by
  induction derived generalizing c with
  | nil => exact ⟨rfl, rfl⟩
  | cons d ds ih =>
    obtain ⟨hbase, hwhole⟩ := ih ⟨d, c.line⟩
    exact ⟨hbase, hwhole.trans (by simp [whole, Class.line])⟩

theorem sameObject_mostDerived (v : View) : v.SameObject v.mostDerived :=
  sameObject_descend v.base v.cls v.derived

theorem sameObject_upwardFrom {base : FrameId} {own : ClassBody}
    {derived ancestors : List ClassBody} {w : View}
    (h : w ∈ upwardFrom base own derived ancestors) :
    SameObject ⟨base, ⟨own, ancestors⟩, derived⟩ w := by
  induction ancestors generalizing own derived with
  | nil =>
    rw [List.mem_singleton.mp h]
    exact ⟨rfl, rfl⟩
  | cons p ps ih =>
    cases List.mem_cons.mp h with
    | inl h =>
      rw [h]
      exact ⟨rfl, rfl⟩
    | inr h =>
      obtain ⟨hbase, hwhole⟩ := ih h
      exact ⟨hbase, hwhole.trans (by simp [whole, Class.line])⟩

theorem sameObject_upward {v w : View} (h : w ∈ v.upward) : v.SameObject w :=
  sameObject_upwardFrom h

def Located (s : Store) (v : View) : Prop :=
  ∀ d : Class, d.line <:+ v.whole → s.outline? (v.base + d.depth) = some (.fields d)

namespace Located

variable {s s' : Store} {v w : View}

theorem preserves (h : v.Located s) (hs : s.Preserves s') : v.Located s' :=
  fun d hd => hs _ _ (h d hd)

theorem sameObject (h : v.Located s) (hw : v.SameObject w) : w.Located s := by
  intro d hd
  rw [hw.1]
  exact h d (hw.2 ▸ hd)

theorem frame (h : v.Located s) : s.outline? v.frame = some (.fields v.cls) :=
  h v.cls (List.suffix_append _ _)

theorem pushAll (s : Store) {c : Class} {frames : List Frame} (h : c.fieldFrames = .ok frames) :
    Located (s.pushAll frames) ⟨s.next, c, []⟩ := by
  intro d hd
  obtain ⟨-, houtlines, -⟩ := Class.fieldFramesFrom_spec h
  rw [Store.outline?, Store.frame?_pushAll]
  exact houtlines d hd

end Located

end View

def Value.Located (s : Store) (x : Value) : Prop := ∀ v, x = .object v → v.Located s

theorem Value.not_object_of_isPlain {x : Value} (h : x.isPlain = true) (v : View) :
    x ≠ .object v := by
  intro hv
  rw [hv] at h
  cases h

/- Arguments and the choice of a method. -/

theorem bindArguments_values {ps : List Param} {vs : List Value}
    {bindings : List (String × Variable)} (h : bindArguments ps vs = .ok bindings) :
    ∀ b ∈ bindings, b.2.value ∈ vs ∨ b.2.value.isPlain = true := by
  induction ps generalizing vs bindings with
  | nil =>
    cases h
    simp
  | cons p ps ih =>
    cases vs with
    | nil =>
      cases h
      simp
    | cons v vs =>
      obtain ⟨x, hx, h⟩ := except_bind_eq_ok.mp h
      obtain ⟨rest, hrest, rfl⟩ := except_map_eq_ok.mp h
      rw [List.forall_mem_cons]
      constructor
      · exact (Variable.create_value hx).imp_left fun hv => by simp [hv]
      · intro b hb
        exact (ih hrest b hb).imp_left (List.mem_cons_of_mem v)

theorem leastScored_mem {l : List (Nat × Method)} {x : Nat × Method} (h : leastScored l = some x) :
    x ∈ l := by
  induction l with
  | nil => cases h
  | cons y l ih =>
    unfold leastScored at h
    cases hl : leastScored l with
    | none =>
      simp only [hl, Option.some.injEq] at h
      simp [h]
    | some z =>
      simp only [hl] at h
      split at h
      · cases h
        exact List.mem_cons_of_mem y (ih hl)
      · cases h
        exact List.mem_cons_self

namespace Registry

theorem length_of_signatureScore? {r : Registry} {params arguments : List TypeTag}
    (h : (r.signatureScore? params arguments).isSome) : arguments.length = params.length := by
  induction params generalizing arguments with
  | nil =>
    cases arguments with
    | nil => rfl
    | cons a as => simp [signatureScore?] at h
  | cons p ps ih =>
    cases arguments with
    | nil => simp [signatureScore?] at h
    | cons a as =>
      obtain ⟨n, hn⟩ := Option.isSome_iff_exists.mp h
      simp only [signatureScore?, Option.bind_eq_bind, Option.bind_eq_some_iff] at hn
      obtain ⟨_, -, k, hk, -⟩ := hn
      have hrest : (r.signatureScore? ps as).isSome := by simp [hk]
      simp [ih hrest]

/-- The method that is chosen is declared at the view's class, and takes as many arguments. -/
theorem selectMethod?_spec {r : Registry} {receiver view : View} {name : String}
    {types : List TypeTag} {method : Method}
    (h : r.selectMethod? receiver name types = some (view, method)) :
    receiver.SameObject view ∧ method ∈ view.cls.own.methods ∧ method.name = name ∧
      types.length = method.params.length := by
  obtain ⟨w, hw, hbest⟩ := List.exists_of_findSome?_eq_some h
  obtain ⟨m, hm, heq⟩ := Option.map_eq_some_iff.mp hbest
  cases heq
  obtain ⟨⟨score, m⟩, hleast, rfl⟩ := Option.map_eq_some_iff.mp hm
  obtain ⟨n, hn, hscore⟩ := List.mem_filterMap.mp (leastScored_mem hleast)
  obtain ⟨k, hk, heq⟩ := Option.map_eq_some_iff.mp hscore
  cases heq
  obtain ⟨hmem, hname⟩ := List.mem_filter.mp hn
  have hsome : (r.signatureScore? m.signature types).isSome := by simp [hk]
  refine ⟨View.sameObject_upward hw, hmem, by simpa using hname, ?_⟩
  simpa [Method.signature] using length_of_signatureScore? hsome

end Registry

/- What a run knows of the objects that it can get at. -/

/-- `P` holds of the objects among the values of a run, and `Q` of the receivers of the methods under
way. -/
structure Moment.Sees (P Q : Store → View → Prop) (p : Moment) : Prop where
  hand : ∀ v, .object v ∈ p.hand → P p.machine.store v
  store : p.machine.store.All fun x => ∀ v, x.value = .object v → P p.machine.store v
  receivers : ∀ c ∈ p.machine.control :: p.waiting, ∀ a, c.activation = some a →
    Q p.machine.store a.receiver

/-- What makes `P` and `Q` hold along a run that starts with at least `n` frames: no step undoes
them, they hold of new objects and of what a receiver is turned into, and `Q` is about the object
and not about the view of it. -/
structure Lasting (n : Nat) (P Q : Store → View → Prop) : Prop where
  values : ∀ {p q : Moment} {v : View}, Step p q → P p.machine.store v → P q.machine.store v
  receivers : ∀ {p q : Moment} {v : View}, Step p q → Q p.machine.store v → Q q.machine.store v
  created : ∀ {s : Store} {c : Class} {frames : List Frame}, n ≤ s.next →
    c.fieldFrames = .ok frames → P (s.pushAll frames) ⟨s.next, c, []⟩
  self : ∀ {s : Store} {v : View}, Q s v → P s v.mostDerived
  called : ∀ {s : Store} {v : View}, P s v → Q s v
  sameObject : ∀ {s : Store} {v w : View}, Q s v → v.SameObject w → Q s w

namespace Moment.Sees

variable {n : Nat} {P Q : Store → View → Prop} {p q : Moment}

theorem receives (h : p.Sees P Q) (hl : Lasting n P Q) {v : View} (hv : p.Receives v) :
    Q p.machine.store v := by
  obtain hv | ⟨a, ha, hv⟩ := hv
  · exact hl.called (h.hand v hv)
  · exact hl.sameObject (h.receivers _ List.mem_cons_self a ha) (View.sameObject_parent? hv)

/-- A variable that takes a value at hand holds no other object. -/
theorem assigned (h : p.Sees P Q) (hl : Lasting n P Q) (hstep : Step p q) {x y : Variable}
    {v : Value} (hv : v ∈ p.hand) (hy : x.assign v = .ok y) :
    ∀ w, y.value = .object w → P q.machine.store w := by
  obtain ⟨-, rfl⟩ := Variable.assign_eq_ok.mp hy
  intro w hw
  obtain heq | hplain := Value.retag_eq x.declared v
  · rw [heq] at hw
    exact hl.values hstep (h.hand w (hw ▸ hv))
  · exact absurd hw (Value.not_object_of_isPlain hplain w)

end Moment.Sees

theorem Step.sees {n : Nat} {P Q : Store → View → Prop} (hl : Lasting n P Q) {p q : Moment}
    (h : Step p q) (hn : n ≤ p.machine.store.next) (hp : p.Sees P Q) : q.Sees P Q := by
  have hhand : ∀ v, .object v ∈ p.hand → P q.machine.store v :=
    fun v hv => hl.values h (hp.hand v hv)
  have hstore : p.machine.store.All fun x => ∀ v, x.value = .object v → P q.machine.store v :=
    hp.store.mono fun _ hx v hv => hl.values h (hx v hv)
  have hreceivers : ∀ c ∈ p.machine.control :: p.waiting, ∀ a, c.activation = some a →
      Q q.machine.store a.receiver := fun c hc a ha => hl.receivers h (hp.receivers c hc a ha)
  have hcontrol := (List.forall_mem_cons.mp hreceivers).1
  have hstep := h
  cases h with
  | print | read | resolve => exact ⟨hhand, hstore, hreceivers⟩
  | plain hplain =>
    refine ⟨fun v hv => ?_, hstore, hreceivers⟩
    cases List.mem_cons.mp hv with
    | inl hv => exact absurd hv.symm (Value.not_object_of_isPlain hplain v)
    | inr hv => exact hhand v hv
  | look hx =>
    refine ⟨fun v hv => ?_, hstore, hreceivers⟩
    cases List.mem_cons.mp hv with
    | inl hv => exact hp.store.get? hx v hv.symm
    | inr hv => exact hhand v hv
  | self ha =>
    refine ⟨fun v hv => ?_, hstore, hreceivers⟩
    cases List.mem_cons.mp hv with
    | inl hv =>
      cases hv
      exact hl.self (hcontrol _ ha)
    | inr hv => exact hhand v hv
  | create _ hf =>
    obtain ⟨-, -, hplain⟩ := Class.fieldFramesFrom_spec hf
    refine ⟨fun v hv => ?_, hstore.pushAll fun f hmem b hb v hv => ?_, hreceivers⟩
    · cases List.mem_cons.mp hv with
      | inl hv =>
        cases hv
        exact hl.created hn hf
      | inr hv => exact hhand v hv
    · exact absurd hv (Value.not_object_of_isPlain (hplain f hmem b hb) v)
  | assign hv _ ha | raise hv ha =>
    obtain ⟨_, _, x, -, -, -, hx⟩ := Store.assignment_eq_ok ha
    exact ⟨hhand, hstore.set (hp.assigned hl hstep hv hx), hreceivers⟩
  | raiseAmbient hv _ _ ha => exact ⟨hhand, hstore.set (hp.assigned hl hstep hv ha), hreceivers⟩
  | enterLet _ _ hv =>
    refine ⟨hhand, hstore.push fun b hb v hx => ?_, List.forall_mem_cons.mpr ⟨hcontrol, hreceivers⟩⟩
    exact hhand v (hx ▸ hv (List.mem_map_of_mem hb))
  | enterTry =>
    refine ⟨hhand, hstore.push fun b hb v hx => ?_, List.forall_mem_cons.mpr ⟨hcontrol, hreceivers⟩⟩
    rw [List.mem_singleton.mp hb] at hx
    cases hx
  | enterHandler =>
    exact ⟨hhand, hstore, List.forall_mem_cons.mpr ⟨hcontrol, hreceivers⟩⟩
  | enterCall hr hvs hm _ hb =>
    obtain ⟨hsame, -, -, -⟩ := Registry.selectMethod?_spec hm
    refine ⟨hhand, hstore.push fun b hmem v hx => ?_, List.forall_mem_cons.mpr ⟨?_, hreceivers⟩⟩
    · obtain hv | hv := bindArguments_values hb b hmem
      · exact hhand v (hvs (hx ▸ hv))
      · exact absurd hx (Value.not_object_of_isPlain hv v)
    · intro a ha
      cases ha
      exact hl.receivers hstep (hl.sameObject (hp.receives hl hr) hsame)
  | leave c => exact ⟨hhand, hstore, (List.forall_mem_cons.mp hreceivers).2⟩

/-- At the start there are no objects. -/
theorem sees_start (P Q : Store → View → Prop) (r : Registry) (sink : Sink) (source : Source)
    (limit : Option Nat) : Moment.Sees P Q ⟨Machine.start r sink source limit, [], []⟩ := by
  have hempty : Store.empty.All fun x =>
      ∀ v, x.value = .object v → P (Machine.start r sink source limit).store v := by
    intro i f hf
    simp [Store.empty, Store.frame?] at hf
  refine ⟨by simp, hempty.push ?_, ?_⟩
  · intro b hb v hv
    rw [List.mem_singleton.mp hb] at hv
    cases hv
  · intro c hc a ha
    rw [List.mem_singleton.mp hc] at ha
    cases ha

structure Moment.Located (p : Moment) : Prop where
  hand : ∀ x ∈ p.hand, x.Located p.machine.store
  store : p.machine.store.All fun x => x.value.Located p.machine.store
  receivers : ∀ c ∈ p.machine.control :: p.waiting, ∀ a, c.activation = some a →
    a.receiver.Located p.machine.store

theorem lasting_located : Lasting 0 (fun s v => v.Located s) (fun s v => v.Located s) where
  values h hv := hv.preserves h.preserves
  receivers h hv := hv.preserves h.preserves
  created _ hf := .pushAll _ hf
  self hv := hv.sameObject (View.sameObject_mostDerived _)
  called hv := hv
  sameObject hv hw := hv.sameObject hw

theorem Moment.located_iff {p : Moment} :
    p.Located ↔ p.Sees (fun s v => v.Located s) (fun s v => v.Located s) := by
  constructor
  · intro h
    exact ⟨fun v hv => h.hand _ hv v rfl, h.store, h.receivers⟩
  · intro h
    exact ⟨fun x hx v hv => h.hand v (hv ▸ hx), h.store, h.receivers⟩

theorem Step.located {p q : Moment} (h : Step p q) (hp : p.Located) : q.Located :=
  Moment.located_iff.mpr (h.sees lasting_located (Nat.zero_le _) (Moment.located_iff.mp hp))

theorem located_start (r : Registry) (sink : Sink) (source : Source) (limit : Option Nat) :
    Moment.Located ⟨Machine.start r sink source limit, [], []⟩ :=
  Moment.located_iff.mpr (sees_start _ _ r sink source limit)

end ObjectLang
