import ObjectLang.Proofs.Scope

/-!
The heap: the frames of fields in the store belong to objects, each to one level of one object. An
object takes consecutive places, one for each class on its line, and nothing that is allocated later
continues it.
-/

namespace ObjectLang

structure Instance where
  base : FrameId
  cls : Class

def Instance.levels (o : Instance) : List View := (View.upward ⟨o.base, o.cls, []⟩).reverse

namespace View

def object (v : View) : Instance := ⟨v.base, v.mostDerived.cls⟩

theorem derived_mostDerived (v : View) : v.mostDerived.derived = [] := by
  have hdescend : ∀ (base : FrameId) (c : Class) (ds : List ClassBody),
      (descend base c ds).derived = [] := by
    intro base c ds
    induction ds generalizing c with
    | nil => rfl
    | cons d ds ih => exact ih ⟨d, c.line⟩
  exact hdescend v.base v.cls v.derived

theorem line_object (v : View) : v.object.cls.line = v.whole := by
  have hwhole := (sameObject_mostDerived v).2
  rwa [whole, derived_mostDerived, List.reverse_nil, List.nil_append] at hwhole

theorem object_eq {v w : View} (h : v.SameObject w) : w.object = v.object := by
  have hline : w.object.cls.line = v.object.cls.line := by rw [line_object, line_object, h.2]
  simp only [object, h.1, Instance.mk.injEq, true_and]
  exact Class.line_inj hline

theorem object_of_derived {v : View} (h : v.derived = []) : v.object = ⟨v.base, v.cls⟩ := by
  simp only [object, mostDerived, h, descend]

theorem length_upwardFrom (base : FrameId) (own : ClassBody) (derived ancestors : List ClassBody) :
    (upwardFrom base own derived ancestors).length = ancestors.length + 1 := by
  induction ancestors generalizing own derived with
  | nil => rfl
  | cons p ps ih => simp [upwardFrom, ih]

/-- Each view of the list is one level further up. -/
theorem getElem?_upwardFrom {base : FrameId} {own : ClassBody} {derived ancestors : List ClassBody}
    {k : Nat} {w : View} (h : (upwardFrom base own derived ancestors)[k]? = some w) :
    w.base = base ∧ w.cls.line <:+ own :: ancestors ∧ w.level + k = ancestors.length := by
  induction ancestors generalizing own derived k with
  | nil =>
    obtain ⟨rfl, rfl⟩ : k = 0 ∧ _ = w := by simpa [upwardFrom, List.getElem?_singleton] using h
    exact ⟨rfl, List.suffix_refl _, rfl⟩
  | cons p ps ih =>
    cases k with
    | zero =>
      cases h
      exact ⟨rfl, List.suffix_refl _, rfl⟩
    | succ k =>
      obtain ⟨hbase, hline, hlevel⟩ := ih h
      refine ⟨hbase, hline.trans (List.suffix_cons _ _), ?_⟩
      simp only [List.length_cons]
      omega

theorem exists_mem_upwardFrom {own : ClassBody} {ancestors : List ClassBody} {d : Class}
    (base : FrameId) (derived : List ClassBody) (h : d.line <:+ own :: ancestors) :
    ∃ w ∈ upwardFrom base own derived ancestors, w.cls = d := by
  induction ancestors generalizing own derived with
  | nil =>
    obtain hd | hd := List.suffix_cons_iff.mp h
    · cases Class.line_inj (d := ⟨own, []⟩) hd
      exact ⟨_, List.mem_cons_self, rfl⟩
    · simp [Class.line] at hd
  | cons p ps ih =>
    obtain hd | hd := List.suffix_cons_iff.mp h
    · cases Class.line_inj (d := ⟨own, p :: ps⟩) hd
      exact ⟨_, List.mem_cons_self, rfl⟩
    · obtain ⟨w, hw, hcls⟩ := ih (own :: derived) hd
      exact ⟨w, List.mem_cons_of_mem _ hw, hcls⟩

end View

namespace Instance

theorem length_levels (o : Instance) : o.levels.length = o.cls.depth + 1 := by
  simp [levels, View.upward, View.length_upwardFrom, Class.depth]

/-- Level `i` is that of the class of depth `i` on the line. -/
theorem getElem?_levels {o : Instance} {i : Nat} {w : View} (h : o.levels[i]? = some w) :
    w.base = o.base ∧ w.cls.line <:+ o.cls.line ∧ w.level = i := by
  have hi : i < (View.upward ⟨o.base, o.cls, []⟩).length := by
    have hlt := (List.getElem?_eq_some_iff.mp h).1
    simpa [levels] using hlt
  rw [levels, List.getElem?_reverse hi] at h
  obtain ⟨hbase, hline, hlevel⟩ := View.getElem?_upwardFrom h
  refine ⟨hbase, hline, ?_⟩
  simp only [View.upward, View.length_upwardFrom] at hi hlevel
  omega

theorem exists_level (o : Instance) {d : Class} (h : d.line <:+ o.cls.line) :
    ∃ w ∈ o.levels, w.cls = d := by
  obtain ⟨w, hw, hcls⟩ := View.exists_mem_upwardFrom o.base [] h
  exact ⟨w, List.mem_reverse.mpr hw, hcls⟩

theorem mem_levels {o : Instance} {w : View} (h : w ∈ o.levels) :
    w.frame = o.base + w.cls.depth ∧ w.cls.line <:+ o.cls.line := by
  obtain ⟨i, hi⟩ := List.mem_iff_getElem?.mp h
  obtain ⟨hbase, hline, -⟩ := getElem?_levels hi
  exact ⟨by rw [View.frame, hbase]; rfl, hline⟩

end Instance

theorem Class.exists_at_depth {c : Class} {i : Nat} (h : i ≤ c.depth) :
    ∃ d : Class, d.line <:+ c.line ∧ d.depth = i := by
  obtain ⟨own, ancestors⟩ := c
  induction ancestors generalizing own with
  | nil => exact ⟨⟨own, []⟩, List.suffix_refl _, (Nat.le_zero.mp h).symm⟩
  | cons p ps ih =>
    by_cases hi : i = ps.length + 1
    · exact ⟨⟨own, p :: ps⟩, List.suffix_refl _, hi.symm⟩
    · have hle : i ≤ Class.depth ⟨p, ps⟩ := by
        simp only [depth, List.length_cons] at h ⊢
        omega
      obtain ⟨d, hline, hdepth⟩ := ih p hle
      exact ⟨d, hline.trans (List.suffix_cons _ _), hdepth⟩

/-- The frames of a new object are those of its levels in order. -/
theorem Class.outline_fieldFrames {c : Class} {frames : List Frame} {i : Nat} {o : Outline}
    (h : c.fieldFrames = .ok frames) (ho : (frames[i]?).map Frame.outline = some o) :
    ∃ d : Class, d.line <:+ c.line ∧ d.depth = i ∧ o = .fields d := by
  obtain ⟨hlength, houtlines, -⟩ := fieldFramesFrom_spec h
  obtain ⟨f, hf, -⟩ := Option.map_eq_some_iff.mp ho
  have hi : i < frames.length := (List.getElem?_eq_some_iff.mp hf).1
  have hle : i ≤ c.depth := by
    rw [depth]
    omega
  obtain ⟨d, hline, rfl⟩ := exists_at_depth hle
  rw [houtlines d hline] at ho
  cases ho
  exact ⟨d, hline, rfl, rfl⟩

theorem Outline.fields_inj {c d : Class} (h : Outline.fields c = .fields d) : c = d := by
  have hrole : FrameRole.fields c = .fields d := congrArg Outline.role h
  cases hrole
  rfl

namespace Store

theorem outline?_push {s : Store} {f : Frame} {i : FrameId} {o : Outline}
    (h : (s.push f).outline? i = some o) : s.outline? i = some o ∨ i = s.next ∧ o = f.outline := by
  obtain ⟨g, hg, rfl⟩ := Option.map_eq_some_iff.mp h
  obtain hg | ⟨rfl, rfl⟩ := frame?_push_eq_some hg
  · exact .inl (by rw [outline?, hg]; rfl)
  · exact .inr ⟨rfl, rfl⟩

theorem outline?_pushAll {s : Store} {fs : List Frame} {i : FrameId} {o : Outline}
    (h : (s.pushAll fs).outline? i = some o) :
    s.outline? i = some o ∨ ∃ j, i = s.next + j ∧ (fs[j]?).map Frame.outline = some o := by
  by_cases hi : i < s.next
  · obtain ⟨o', ho'⟩ := exists_outline? hi
    rw [Preserves.pushAll s fs i o' ho'] at h
    cases h
    exact .inl ho'
  · obtain ⟨j, rfl⟩ := Nat.exists_eq_add_of_le (Nat.le_of_not_lt hi)
    exact .inr ⟨j, rfl, by rwa [outline?, frame?_pushAll] at h⟩

theorem outline?_set {s : Store} {i : FrameId} {name : String} {x y : Variable}
    (hx : s.get? i name = some x) (hy : y.declared = x.declared) (j : FrameId) :
    (s.set i name y).outline? j = s.outline? j := by
  have hnext : (s.set i name y).next = s.next := by simp [set, next]
  cases h : s.outline? j with
  | some o => exact Preserves.set hx hy j o h
  | none =>
    cases h' : (s.set i name y).outline? j with
    | none => rfl
    | some o =>
      obtain ⟨o', ho'⟩ := exists_outline? (hnext ▸ lt_next_of_outline? h')
      rw [h] at ho'
      cases ho'

/-- Frames of fields hold what their classes declare, and under the fields of a derived class stand
those of its parent. -/
structure Layered (s : Store) : Prop where
  declared : ∀ {i o c}, s.outline? i = some o → o.role = .fields c → o = .fields c
  parent : ∀ {i own p ps}, s.outline? i = some (.fields ⟨own, p :: ps⟩) →
    ∃ j, i = j + 1 ∧ s.outline? j = some (.fields ⟨p, ps⟩)

/-- The store holds the object: the fields of its own class are in their place, and no further level
follows them. -/
structure Holds (s : Store) (o : Instance) : Prop where
  last : s.outline? (o.base + o.cls.depth) = some (.fields o.cls)
  ends : ∀ d, s.outline? (o.base + o.cls.depth + 1) = some (.fields d) → d.ancestors = []

/-- The second store has the frames of the first, and does not continue its last object. -/
structure Extends (s s' : Store) : Prop where
  preserves : s.Preserves s'
  fresh : ∀ d, s'.outline? s.next = some (.fields d) → d.ancestors = []

namespace Layered

variable {s : Store}

/-- Below a level stand all those of the ancestors. -/
theorem below (hs : s.Layered) {base : FrameId} {c d : Class}
    (hc : s.outline? (base + c.depth) = some (.fields c)) (hd : d.line <:+ c.line) :
    s.outline? (base + d.depth) = some (.fields d) := by
  obtain ⟨own, ancestors⟩ := c
  induction ancestors generalizing own with
  | nil =>
    obtain hd | hd := List.suffix_cons_iff.mp hd
    · cases Class.line_inj (d := ⟨own, []⟩) hd
      exact hc
    · simp [Class.line] at hd
  | cons p ps ih =>
    obtain hd | hd := List.suffix_cons_iff.mp hd
    · cases Class.line_inj (d := ⟨own, p :: ps⟩) hd
      exact hc
    · obtain ⟨j, hj, hp⟩ := hs.parent hc
      have hplace : j = base + Class.depth ⟨p, ps⟩ := by
        simp only [Class.depth, List.length_cons, ← Nat.add_assoc] at hj ⊢
        exact (Nat.succ.inj hj).symm
      exact ih p (hplace ▸ hp) hd

theorem depth_le (hs : s.Layered) {i : FrameId} {c : Class} (h : s.outline? i = some (.fields c)) :
    c.depth ≤ i := by
  obtain ⟨own, ancestors⟩ := c
  induction ancestors generalizing own i with
  | nil => exact Nat.zero_le i
  | cons p ps ih =>
    obtain ⟨j, rfl, hp⟩ := hs.parent h
    exact Nat.succ_le_succ (ih p hp)

theorem level (hs : s.Layered) {o : Instance} (ho : s.Holds o) {w : View} (hw : w ∈ o.levels) :
    s.outline? w.frame = some (.fields w.cls) := by
  obtain ⟨hframe, hline⟩ := Instance.mem_levels hw
  rw [hframe]
  exact hs.below ho.last hline

/-- One place holds one object, for its class is the last whose level follows. -/
theorem holds_unique (hs : s.Layered) {o o' : Instance} (ho : s.Holds o) (ho' : s.Holds o')
    (hbase : o'.base = o.base) : o' = o := by
  have hle : ∀ {o o' : Instance}, s.Holds o → s.Holds o' → o'.base = o.base →
      o'.cls.depth ≤ o.cls.depth := by
    intro o o' ho ho' hbase
    refine Nat.le_of_not_lt fun hlt => ?_
    obtain ⟨d, hline, hdepth⟩ := Class.exists_at_depth hlt
    have hlevel := hs.below ho'.last hline
    rw [hbase, hdepth] at hlevel
    have hnone := ho.ends d hlevel
    simp [Class.depth, hnone] at hdepth
  have hdepth := Nat.le_antisymm (hle ho ho' hbase) (hle ho' ho hbase.symm)
  have hlast := ho'.last
  rw [hbase, hdepth, ho.last] at hlast
  obtain ⟨base, cls⟩ := o
  obtain ⟨base', cls'⟩ := o'
  cases hbase
  cases Outline.fields_inj (Option.some.inj hlast)
  rfl

/-- Two levels in one place are the same level of the same object. -/
theorem levels_unique (hs : s.Layered) {o o' : Instance} (ho : s.Holds o) (ho' : s.Holds o')
    {w w' : View} (hw : w ∈ o.levels) (hw' : w' ∈ o'.levels) (h : w'.frame = w.frame) :
    o' = o ∧ w'.level = w.level := by
  have houtline := hs.level ho' hw'
  rw [h, hs.level ho hw] at houtline
  have hcls := Outline.fields_inj (Option.some.inj houtline)
  have hlevel : w'.level = w.level := by rw [View.level, View.level, hcls]
  refine ⟨hs.holds_unique ho ho' ?_, hlevel⟩
  have hplace := (Instance.mem_levels hw).1
  have hplace' := (Instance.mem_levels hw').1
  rw [h, ← hcls, hplace] at hplace'
  exact (Nat.add_right_cancel hplace').symm

/-- Every frame of fields is a level of an object: that of the last class whose fields follow. -/
theorem exists_holds (hs : s.Layered) {i : FrameId} {c : Class}
    (h : s.outline? i = some (.fields c)) :
    ∃ o, s.Holds o ∧ c.line <:+ o.cls.line ∧ o.base + c.depth = i := by
  -- On the places that are left to the end of the store.
  generalize hk : s.next - i = k
  induction k generalizing i c with
  | zero => exact absurd (lt_next_of_outline? h) (Nat.not_lt_of_le (Nat.le_of_sub_eq_zero hk))
  | succ k ih =>
    have hplace : i - c.depth + c.depth = i := Nat.sub_add_cancel (hs.depth_le h)
    by_cases hends : ∀ d, s.outline? (i + 1) = some (.fields d) → d.ancestors = []
    · exact ⟨⟨i - c.depth, c⟩, ⟨hplace.symm ▸ h, hplace.symm ▸ hends⟩, List.suffix_refl _, hplace⟩
    · simp only [Classical.not_forall] at hends
      obtain ⟨⟨own, ancestors⟩, hd, hne⟩ := hends
      cases ancestors with
      | nil => exact absurd rfl hne
      | cons p ps =>
        obtain ⟨j, hj, hp⟩ := hs.parent hd
        cases Nat.succ.inj hj
        rw [h] at hp
        cases Outline.fields_inj (Option.some.inj hp)
        obtain ⟨o, ho, hline, hbase⟩ := ih hd (by rw [← Nat.sub_sub, hk]; rfl)
        exact ⟨o, ho, (List.suffix_cons own _).trans hline, Nat.succ.inj hbase⟩

theorem congr {s' : Store} (hs : s.Layered) (h : ∀ i, s'.outline? i = s.outline? i) :
    s'.Layered := by
  constructor
  · intro i o c ho hc
    rw [h] at ho
    exact hs.declared ho hc
  · intro i own p ps hi
    rw [h] at hi
    simpa only [h] using hs.parent hi

/-- In a store that has grown, the parent of a class that was there is still in its place. -/
theorem parent_preserved {s' : Store} (hs : s.Layered) (h : s.Preserves s') {i : FrameId}
    {own p : ClassBody} {ps : List ClassBody}
    (hi : s.outline? i = some (.fields ⟨own, p :: ps⟩)) :
    ∃ j, i = j + 1 ∧ s'.outline? j = some (.fields ⟨p, ps⟩) := by
  obtain ⟨j, hj, hparent⟩ := hs.parent hi
  exact ⟨j, hj, h _ _ hparent⟩

/-- A frame that is not of fields is no level. -/
theorem push (hs : s.Layered) {f : Frame} (hf : ∀ cls, f.role ≠ .fields cls) :
    (s.push f).Layered := by
  constructor
  · intro i o c ho hc
    obtain ho | ⟨-, rfl⟩ := outline?_push ho
    · exact hs.declared ho hc
    · exact absurd hc (hf c)
  · intro i own p ps hi
    obtain hi | ⟨-, heq⟩ := outline?_push hi
    · exact hs.parent_preserved (.push s f) hi
    · exact absurd (congrArg Outline.role heq).symm (hf _)

/-- The levels of a new object come with those of its ancestors. -/
theorem pushAll (hs : s.Layered) {c : Class} {frames : List Frame}
    (hc : c.fieldFrames = .ok frames) : (s.pushAll frames).Layered := by
  constructor
  · intro i o d ho hrole
    obtain ho | ⟨k, -, hk⟩ := outline?_pushAll ho
    · exact hs.declared ho hrole
    · obtain ⟨e, -, -, rfl⟩ := Class.outline_fieldFrames hc hk
      cases hrole
      rfl
  · intro i own p ps hi
    obtain hi | ⟨k, rfl, hk⟩ := outline?_pushAll hi
    · exact hs.parent_preserved (.pushAll s frames) hi
    · obtain ⟨d, hline, hdepth, heq⟩ := Class.outline_fieldFrames hc hk
      cases Outline.fields_inj heq
      obtain ⟨-, houtlines, -⟩ := Class.fieldFramesFrom_spec hc
      have hframe := houtlines ⟨p, ps⟩ ((List.suffix_cons _ _).trans hline)
      refine ⟨s.next + ps.length, ?_, ?_⟩
      · rw [← hdepth]
        exact (Nat.add_assoc _ _ _).symm
      · rw [outline?, frame?_pushAll]
        exact hframe

end Layered

theorem Extends.holds {s s' : Store} (h : s.Extends s') {o : Instance} (ho : s.Holds o) :
    s'.Holds o := by
  refine ⟨h.preserves _ _ ho.last, ?_⟩
  intro d hd
  cases hnext : s.outline? (o.base + o.cls.depth + 1) with
  | some f =>
    rw [h.preserves _ _ hnext] at hd
    cases hd
    exact ho.ends d hnext
  | none =>
    have hlast := lt_next_of_outline? ho.last
    have hplace : o.base + o.cls.depth + 1 = s.next := by
      refine Nat.le_antisymm hlast (Nat.le_of_not_lt fun hlt => ?_)
      obtain ⟨f, hf⟩ := exists_outline? hlt
      rw [hnext] at hf
      cases hf
    exact h.fresh d (hplace ▸ hd)

theorem holds_pushAll (s : Store) {c : Class} {frames : List Frame} (h : c.fieldFrames = .ok frames) :
    (s.pushAll frames).Holds ⟨s.next, c⟩ := by
  obtain ⟨hlength, houtlines, -⟩ := Class.fieldFramesFrom_spec h
  constructor
  · rw [outline?, frame?_pushAll]
    exact houtlines c (List.suffix_refl _)
  · intro d hd
    have hend : frames[c.depth + 1]? = none := List.getElem?_eq_none (Nat.le_of_eq hlength)
    rw [outline?, Nat.add_assoc, frame?_pushAll, hend] at hd
    cases hd

theorem extends_pushAll (s : Store) {c : Class} {frames : List Frame}
    (h : c.fieldFrames = .ok frames) : s.Extends (s.pushAll frames) := by
  refine ⟨.pushAll s frames, ?_⟩
  intro d hd
  rw [outline?, ← Nat.add_zero s.next, frame?_pushAll] at hd
  obtain ⟨e, -, hdepth, heq⟩ := Class.outline_fieldFrames h hd
  rw [Outline.fields_inj heq]
  exact List.length_eq_zero_iff.mp hdepth

end Store

/- What the steps of a run do to the heap. -/

/-- A step changes no outline, adds one frame that is not of fields, or adds those of an object. -/
theorem Step.store_cases {p q : Moment} (h : Step p q) :
    (∀ i, q.machine.store.outline? i = p.machine.store.outline? i) ∨
      (∃ f : Frame, (∀ cls, f.role ≠ .fields cls) ∧
        q.machine.store = p.machine.store.push f) ∨
      ∃ c frames, Class.fieldFrames c = .ok frames ∧
        q.machine.store = p.machine.store.pushAll frames := by
  cases h with
  | print | read | resolve | plain | look | self | enterHandler | leave => exact .inl fun _ => rfl
  | create _ hf => exact .inr (.inr ⟨_, _, hf, rfl⟩)
  | assign _ _ ha | raise _ ha =>
    obtain ⟨_, _, x, -, -, hx, hy⟩ := Store.assignment_eq_ok ha
    exact .inl (Store.outline?_set hx (Variable.assign_declared hy))
  | raiseAmbient _ _ hx ha => exact .inl (Store.outline?_set hx (Variable.assign_declared ha))
  | enterLet hr => exact .inr (.inl ⟨_, by simp [hr], rfl⟩)
  | enterTry => exact .inr (.inl ⟨.forException, nofun, rfl⟩)
  | enterCall => exact .inr (.inl ⟨⟨.arguments, _⟩, nofun, rfl⟩)

theorem Step.extends {p q : Moment} (h : Step p q) :
    p.machine.store.Extends q.machine.store := by
  obtain hsame | ⟨f, hrole, hpush⟩ | ⟨c, frames, hc, hpush⟩ := h.store_cases
  · refine ⟨h.preserves, ?_⟩
    intro d hd
    rw [hsame, Store.outline?_next] at hd
    cases hd
  · refine ⟨h.preserves, ?_⟩
    intro d hd
    rw [hpush, Store.outline?_push_next] at hd
    exact absurd (congrArg Outline.role (Option.some.inj hd)) (hrole d)
  · rw [hpush]
    exact Store.extends_pushAll _ hc

theorem Step.layered {p q : Moment} (h : Step p q) (hp : p.machine.store.Layered) :
    q.machine.store.Layered := by
  obtain hsame | ⟨f, hrole, hpush⟩ | ⟨c, frames, hc, hpush⟩ := h.store_cases
  · exact hp.congr hsame
  · rw [hpush]
    exact hp.push hrole
  · rw [hpush]
    exact hp.pushAll hc

structure View.Whole (s : Store) (v : View) : Prop where
  derived : v.derived = []
  held : s.Holds v.object

theorem lasting_whole : Lasting 0 (fun s v => v.Whole s) (fun s v => s.Holds v.object) where
  values h hv := ⟨hv.derived, h.extends.holds hv.held⟩
  receivers h hv := h.extends.holds hv
  created _ hf := ⟨rfl, Store.holds_pushAll _ hf⟩
  self {_ v} hv := ⟨v.derived_mostDerived, by rwa [View.object_eq v.sameObject_mostDerived]⟩
  called hv := hv.held
  sameObject hv hw := by rwa [View.object_eq hw]

/- What is in scope beside fields. -/

def Store.Apart (s : Store) (i : FrameId) : Prop :=
  ∃ o, s.outline? i = some o ∧ ∀ cls, o.role ≠ .fields cls

/-- Of the frames in scope only the last is one of fields: that of the receiver. -/
def Control.Scoped (s : Store) (c : Control) : Prop :=
  ∃ above, c.scopes = above ++ (c.activation.map fun a => a.receiver.frame).toList ∧
    ∀ i ∈ c.ambient :: above, s.Apart i

theorem Control.Scoped.preserves {s s' : Store} {c : Control} (h : c.Scoped s)
    (hs : s.Preserves s') : c.Scoped s' := by
  obtain ⟨above, hscopes, happart⟩ := h
  refine ⟨above, hscopes, ?_⟩
  intro i hi
  obtain ⟨o, ho, hrole⟩ := happart i hi
  exact ⟨o, hs _ _ ho, hrole⟩

theorem Store.apart_push_next (s : Store) {f : Frame} (h : ∀ cls, f.role ≠ .fields cls) :
    (s.push f).Apart s.next :=
  ⟨_, outline?_push_next s f, h⟩

theorem Control.Scoped.enterScope {s : Store} {c : Control} {i : FrameId} (h : c.Scoped s)
    (hi : s.Apart i) : (c.enterScope i).Scoped s := by
  obtain ⟨above, hscopes, happart⟩ := h
  refine ⟨i :: above, by simp [Control.enterScope, hscopes], ?_⟩
  simp only [List.forall_mem_cons] at happart ⊢
  exact ⟨happart.1, hi, happart.2⟩

theorem Control.Scoped.enterTry {s : Store} {c : Control} {i : FrameId} (h : c.Scoped s)
    (hi : s.Apart i) : (c.enterTry i).Scoped s := by
  obtain ⟨above, hscopes, happart⟩ := h
  refine ⟨i :: above, by simp [Control.enterTry, hscopes], ?_⟩
  simp only [List.forall_mem_cons] at happart ⊢
  exact ⟨hi, hi, happart.2⟩

theorem Control.Scoped.enterCall {s : Store} {c : Control} {i : FrameId} (h : c.Scoped s)
    (hi : s.Apart i) (view : View) (method : Method) : (c.enterCall view method i).Scoped s := by
  obtain ⟨above, -, happart⟩ := h
  refine ⟨[i, c.ambient], rfl, ?_⟩
  simp only [List.forall_mem_cons] at happart ⊢
  exact ⟨happart.1, hi, happart.1, nofun⟩

theorem Step.scoped {p q : Moment} (h : Step p q)
    (hp : ∀ c ∈ p.machine.control :: p.waiting, c.Scoped p.machine.store) :
    ∀ c ∈ q.machine.control :: q.waiting, c.Scoped q.machine.store := by
  have hall : ∀ c ∈ p.machine.control :: p.waiting, c.Scoped q.machine.store :=
    fun c hc => (hp c hc).preserves h.preserves
  have hnow := (List.forall_mem_cons.mp hall).1
  cases h with
  | print | read | resolve | plain | look | self | create | assign | raise | raiseAmbient =>
    exact hall
  | enterLet hr =>
    refine List.forall_mem_cons.mpr ⟨hnow.enterScope (Store.apart_push_next _ ?_), hall⟩
    simp [hr]
  | enterTry =>
    exact List.forall_mem_cons.mpr ⟨hnow.enterTry (Store.apart_push_next _ nofun), hall⟩
  | enterHandler => exact List.forall_mem_cons.mpr ⟨hnow, hall⟩
  | enterCall =>
    exact List.forall_mem_cons.mpr ⟨hnow.enterCall (Store.apart_push_next _ nofun) _ _, hall⟩
  | leave c => exact (List.forall_mem_cons.mp hall).2

theorem heap_start (r : Registry) (sink : Sink) (source : Source) (limit : Option Nat) :
    (Machine.start r sink source limit).store.Layered ∧
      Control.start.Scoped (Machine.start r sink source limit).store := by
  have houtline : ∀ {i o}, (Machine.start r sink source limit).store.outline? i = some o →
      o = Frame.forException.outline := by
    intro i o ho
    obtain ho | ⟨-, ho⟩ := Store.outline?_push ho
    · simp [Store.empty, Store.outline?, Store.frame?] at ho
    · exact ho
  refine ⟨⟨?_, ?_⟩, [], rfl, ?_⟩
  · intro i o c ho hc
    rw [houtline ho] at hc
    cases hc
  · intro i own p ps hi
    have hrole : FrameRole.fields ⟨own, p :: ps⟩ = .exception :=
      congrArg Outline.role (houtline hi)
    cases hrole
  · intro i hi
    rw [List.mem_singleton.mp hi]
    refine Store.apart_push_next Store.empty fun cls hrole => ?_
    cases hrole

section Runs

variable {r : Registry} {sink : Sink} {source : Source} {limit : Option Nat}

theorem Steps.layered {p : Moment}
    (h : Steps ⟨Machine.start r sink source limit, [], []⟩ p) : p.machine.store.Layered :=
  h.keeps (P := fun p => p.machine.store.Layered) (fun _ _ => Step.layered)
    (heap_start r sink source limit).1

theorem Steps.scoped {p : Moment}
    (h : Steps ⟨Machine.start r sink source limit, [], []⟩ p) :
    p.machine.control.Scoped p.machine.store := by
  have hstart : ∀ c ∈ [Control.start], c.Scoped (Machine.start r sink source limit).store := by
    intro c hc
    rw [List.mem_singleton.mp hc]
    exact (heap_start r sink source limit).2
  exact h.keeps (P := fun p => ∀ c ∈ p.machine.control :: p.waiting, c.Scoped p.machine.store)
    (fun _ _ => Step.scoped) hstart _ List.mem_cons_self

theorem Steps.whole {p : Moment} (h : Steps ⟨Machine.start r sink source limit, [], []⟩ p) :
    p.Sees (fun s v => v.Whole s) (fun s v => s.Holds v.object) :=
  h.keeps (fun _ _ hs => hs.sees lasting_whole (Nat.zero_le _)) (sees_start _ _ r sink source limit)

end Runs

theorem Occurs.reaches {start : Machine} {t u : Task} (ht : Occurs start t) (h : Reaches t u) :
    Occurs start u ∧ t.machine.store.Preserves u.machine.store := by
  induction h with
  | refl => exact ⟨ht, .refl _⟩
  | tail _ hs ih => exact ⟨ih.1.starts hs, ih.2.trans (ih.1.preserves hs)⟩

/- What a write changes. -/

theorem Store.fieldsOf_congr {s s' : Store} {v : View} (h : s'.frame? v.frame = s.frame? v.frame) :
    s'.fieldsOf v = s.fieldsOf v := by
  simp only [fieldsOf, get?, h]

namespace Eval

theorem assign_frames {name : String} {v : Value} {m t : Machine} (h : assign name v m = .ok () t) :
    ∃ i, ∀ j, j ≠ i → t.store.frame? j = m.store.frame? j := by
  obtain ⟨m₁, m₂, hget, hk⟩ := bind_eq_ok.mp h
  cases hget
  cases ha : m.store.assignment name v m.control.scopes with
  | error e =>
    rw [ha] at hk
    cases e <;> cases hk
  | ok target =>
    rw [ha] at hk
    cases hk
    exact ⟨target.1, fun j hj => Store.frame?_set_of_ne m.store hj _ _⟩

theorem raise_frames {v : Value} {m t : Machine} (h : raise v m = .ok () t) :
    ∃ i, ∀ j, j ≠ i → t.store.frame? j = m.store.frame? j := by
  obtain ⟨m₁, m₂, hget, hk⟩ := bind_eq_ok.mp h
  cases hget
  cases hc : m.store.contains m.control.scopes exceptionName with
  | true =>
    rw [hc] at hk
    exact assign_frames hk
  | false =>
    cases hx : m.store.get? m.control.ambient exceptionName with
    | none =>
      simp only [hc, Bool.false_eq_true, if_false, hx] at hk
      cases hk
      exact ⟨0, fun _ _ => rfl⟩
    | some x =>
      simp only [hc, Bool.false_eq_true, if_false, hx] at hk
      obtain ⟨y, m₃, hy, hset⟩ := bind_eq_ok.mp hk
      obtain ⟨-, rfl⟩ := ofExcept_eq_ok.mp hy
      cases hset
      exact ⟨_, fun j hj => Store.frame?_set_of_ne _ hj _ _⟩

theorem create_eq_ok {c : Class} {v : View} {m t : Machine} (h : create c m = .ok v t) :
    ∃ frames, c.fieldFrames = .ok frames ∧ v = ⟨m.store.next, c, []⟩ ∧
      t = { m with store := m.store.pushAll frames } := by
  obtain ⟨frames, m₁, hof, hk⟩ := bind_eq_ok.mp h
  obtain ⟨hframes, rfl⟩ := ofExcept_eq_ok.mp hof
  cases hk
  exact ⟨frames, hframes, rfl, rfl⟩

end Eval

/-- Every object that a run can get at is in the store, a new one takes places of its own, and every
frame of fields is a level of an object. An object has a level for each class on its line, each with
the fields that the class itself declares. No two levels share a frame, and of the frames in scope,
also of the methods that wait for others, only that of the receiver holds fields. So a write changes
the fields of one level of one object at most. -/
theorem objects_are_separate {r : Registry} {sink : Sink} {source : Source} {limit : Option Nat}
    {m : Machine} (hm : Reachable (Machine.start r sink source limit) m) :
    (m.store.All fun x => ∀ v, x.value = .object v → m.store.Holds v.object) ∧
    (∀ a, m.control.activation = some a → m.store.Holds a.receiver.object) ∧
    (∀ c v t, Eval.create c m = .ok v t → t.store.Holds v.object ∧
      ∀ o, m.store.Holds o → t.store.Holds o ∧ o ≠ v.object) ∧
    (∀ i f c, m.store.frame? i = some f → f.role = .fields c →
      ∃ o w, m.store.Holds o ∧ w ∈ o.levels ∧ w.frame = i) ∧
    (∀ o, m.store.Holds o → o.levels.length = o.cls.depth + 1 ∧
      ∀ (i : Nat) (w : View), o.levels[i]? = some w → w.cls.depth = i ∧ w.cls.line <:+ o.cls.line ∧
        m.store.outline? w.frame = some (.fields w.cls)) ∧
    (∀ o o', m.store.Holds o → m.store.Holds o' → ∀ w ∈ o.levels, ∀ w' ∈ o'.levels,
      w'.frame = w.frame → o' = o ∧ w'.level = w.level) ∧
    m.control.Scoped m.store ∧
    (∀ t u, Occurs (Machine.start r sink source limit) t → Reaches t u → u.Passes m →
      t.machine.control.Scoped m.store) ∧
    (∀ i, m.store.Apart i → ∀ o, m.store.Holds o → ∀ w ∈ o.levels, w.frame ≠ i) ∧
    ∀ name x t, Eval.assign name x m = .ok () t ∨ Eval.raise x m = .ok () t →
      ∀ o o', m.store.Holds o → m.store.Holds o' → ∀ w ∈ o.levels, ∀ w' ∈ o'.levels,
        t.store.fieldsOf w ≠ m.store.fieldsOf w → o' ≠ o ∨ w'.level ≠ w.level →
          t.store.fieldsOf w' = m.store.fieldsOf w' := by
  obtain ⟨k, hand, hsteps⟩ := hm.steps
  have hlayered : m.store.Layered := hsteps.layered
  have hsees := hsteps.whole
  have hunique : ∀ o o', m.store.Holds o → m.store.Holds o' → ∀ w ∈ o.levels, ∀ w' ∈ o'.levels,
      w'.frame = w.frame → o' = o ∧ w'.level = w.level :=
    fun o o' ho ho' w hw w' hw' => hlayered.levels_unique ho ho' hw hw'
  refine ⟨hsees.store.mono fun x hx v hv => (hx v hv).held,
    hsees.receivers _ List.mem_cons_self, ?_, ?_, ?_, hunique, hsteps.scoped, ?_, ?_, ?_⟩
  · intro c v t hv
    obtain ⟨frames, hframes, rfl, rfl⟩ := Eval.create_eq_ok hv
    refine ⟨Store.holds_pushAll m.store hframes, ?_⟩
    intro o ho
    refine ⟨(Store.extends_pushAll m.store hframes).holds ho, ?_⟩
    rintro rfl
    exact Nat.not_lt_of_le (Nat.le_add_right _ _) (Store.lt_next_of_outline? ho.last)
  · intro i f c hf hc
    have hi : m.store.outline? i = some f.outline := by simp [Store.outline?, hf]
    rw [hlayered.declared hi hc] at hi
    obtain ⟨o, ho, hline, hplace⟩ := hlayered.exists_holds hi
    obtain ⟨w, hw, rfl⟩ := o.exists_level hline
    exact ⟨o, w, ho, hw, (Instance.mem_levels hw).1.trans hplace⟩
  · intro o ho
    refine ⟨o.length_levels, ?_⟩
    intro i w hw
    obtain ⟨-, hline, hlevel⟩ := Instance.getElem?_levels hw
    exact ⟨hlevel, hline, hlayered.level ho (List.mem_of_getElem? hw)⟩
  · intro t u ht hu hpasses
    obtain ⟨k', hand', hsteps', -⟩ := ht.steps
    obtain ⟨hoccurs, hpreserves⟩ := ht.reaches hu
    exact hsteps'.scoped.preserves (hpreserves.trans (hpasses.preserves hoccurs))
  · intro i hi o ho w hw heq
    obtain ⟨outline, houtline, hrole⟩ := hi
    rw [← heq, hlayered.level ho hw] at houtline
    cases houtline
    exact hrole w.cls rfl
  · intro name x t ht o o' ho ho' w hw w' hw' hchanged hne
    obtain ⟨i, hi⟩ := ht.elim Eval.assign_frames Eval.raise_frames
    -- The frame that the write goes to is the one that has changed, so it is not the other.
    have hframe : w.frame = i := by
      refine Decidable.of_not_not fun hframe => hchanged ?_
      exact Store.fieldsOf_congr (hi w.frame hframe)
    refine Store.fieldsOf_congr (hi w'.frame fun hframe' => ?_)
    obtain ⟨hobject, hlevel⟩ := hunique o o' ho ho' w hw w' hw' (hframe'.trans hframe.symm)
    exact hne.elim (fun h => h hobject) fun h => h hlevel

/- A program whose class declares a field of its parent once more, and makes a second object. -/

namespace Sample

def fill : Form :=
  .list [.atom "begin", .list [.atom "set", .atom "n", .atom "1"],
    .list [.atom "set", .atom "other", .list [.atom "new", .atom "main"]]]

def filling : Method := ⟨"main", .void, [], fill⟩

def parent : Class := ⟨⟨"base", [⟨"n", .int, none⟩], []⟩, []⟩

def child : Class :=
  ⟨⟨"main", [⟨"n", .int, none⟩, ⟨"other", .ofClass "main", none⟩], [filling]⟩, parent.line⟩

def pair : Machine := Machine.start ⟨[child, parent], []⟩ (.buffer "") (.queue []) none

def paired : Task :=
  ⟨8, .exec filling.body, (after (Eval.create child) pair).enterCall ⟨1, child, []⟩ filling []⟩

theorem occurs_paired : Occurs pair paired := by
  have hmain : Awaits ⟨8, .call ⟨1, child, []⟩ "main" [], after (Eval.create child) pair⟩
      ⟨8, .exec filling.body, paired.machine⟩ := .body rfl rfl rfl
  exact ⟨[], 8, _, ⟨child, _, pair, _, rfl, rfl, rfl⟩, .single (.awaits hmain)⟩

end Sample

/-- In the sample, an assignment to `n` changes the field of the running object at its own class,
and neither the field of that name that it inherits nor that of the other object. -/
theorem sample_objects_are_separate :
    ∃ m t, Reachable Sample.pair m ∧ m.store.Holds ⟨1, Sample.child⟩ ∧
      m.store.Holds ⟨4, Sample.child⟩ ∧ Eval.assign "n" (.int 7) m = .ok () t ∧
      t.store.fieldsOf ⟨1, Sample.child, []⟩ ≠ m.store.fieldsOf ⟨1, Sample.child, []⟩ ∧
      t.store.fieldsOf ⟨1, Sample.parent, [Sample.child.own]⟩ =
        m.store.fieldsOf ⟨1, Sample.parent, [Sample.child.own]⟩ ∧
      t.store.fieldsOf ⟨4, Sample.child, []⟩ = m.store.fieldsOf ⟨4, Sample.child, []⟩ := by
  have hm : Reachable Sample.pair Sample.paired.final := .ended Sample.occurs_paired
  obtain ⟨hvalues, hreceiver, -, -, -, -, -, -, -, hwrites⟩ := objects_are_separate hm
  have hone : Sample.paired.final.store.Holds ⟨1, Sample.child⟩ := hreceiver _ rfl
  have hother : Sample.paired.final.store.get? 2 "other" =
      some ⟨.ofClass "main", .object ⟨4, Sample.child, []⟩⟩ := rfl
  have htwo : Sample.paired.final.store.Holds ⟨4, Sample.child⟩ := hvalues.get? hother _ rfl
  have hassign : Eval.assign "n" (.int 7) Sample.paired.final =
      .ok () (after (Eval.assign "n" (.int 7)) Sample.paired.final) := rfl
  have hchanged : (after (Eval.assign "n" (.int 7)) Sample.paired.final).store.fieldsOf
      ⟨1, Sample.child, []⟩ ≠ Sample.paired.final.store.fieldsOf ⟨1, Sample.child, []⟩ := by
    intro h
    have hn : Value.int 7 = .int 1 :=
      congrArg (fun fields => (fields.map fun b => b.2.value).headD .void) h
    cases hn
  have hlevels : ∀ base, Instance.levels ⟨base, Sample.child⟩ =
      [⟨base, Sample.parent, [Sample.child.own]⟩, ⟨base, Sample.child, []⟩] := fun _ => rfl
  have hkept := hwrites "n" (.int 7) _ (.inl hassign) ⟨1, Sample.child⟩
  refine ⟨_, _, hm, hone, htwo, hassign, hchanged, ?_, ?_⟩
  · exact hkept ⟨1, Sample.child⟩ hone hone _ (by simp [hlevels]) _ (by simp [hlevels]) hchanged
      (.inr (by decide))
  · exact hkept ⟨4, Sample.child⟩ hone htwo _ (by simp [hlevels]) _ (by simp [hlevels]) hchanged
      (.inl (by simp))

end ObjectLang
