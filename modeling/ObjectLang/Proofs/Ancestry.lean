import ObjectLang.Proofs.Levels
import ObjectLang.Proofs.Lineage

/-!
Ancestry. The steps up from a class to its parent, the types that it accepts, the distances to its
ancestors and the levels of its objects all say the same of it. The names on a line are distinct,
for each of its classes is the one that is found under its name: were a name there twice, a class
would be its own ancestor.
-/

namespace ObjectLang

namespace Class

variable {c d p q : Class} {i j k : Nat} {name : String}

def ancestor? (c : Class) : Nat → Option Class
  | 0 => some c
  | k + 1 => (c.ancestor? k).bind parent?

theorem ancestor?_add (c : Class) (j k : Nat) :
    c.ancestor? (j + k) = (c.ancestor? j).bind fun p => p.ancestor? k := by
  induction k with
  | zero => cases h : c.ancestor? j <;> simp [ancestor?]
  | succ k ih => rw [← Nat.add_assoc, ancestor?, ih, Option.bind_assoc]; rfl

theorem parent?_eq_some : c.parent? = some p ↔ c.ancestors = p.line := by
  obtain ⟨own, ancestors⟩ := c
  cases ancestors with
  | nil => simp [parent?, line]
  | cons b bs =>
    constructor
    · rintro ⟨⟩
      rfl
    · intro h
      exact congrArg some (line_inj (c := ⟨b, bs⟩) h)

theorem ancestor?_eq_some : c.ancestor? k = some p ↔ c.line.drop k = p.line := by
  induction k generalizing p with
  | zero => exact ⟨fun h => congrArg line (Option.some.inj h), fun h => congrArg some (line_inj h)⟩
  | succ k ih =>
    rw [ancestor?, Option.bind_eq_some_iff, ← List.tail_drop]
    constructor
    · rintro ⟨d, hd, hp⟩
      rw [ih.mp hd]
      exact parent?_eq_some.mp hp
    · intro h
      cases hdrop : c.line.drop k with
      | nil =>
        rw [hdrop] at h
        cases h
      | cons b bs =>
        rw [hdrop] at h
        exact ⟨⟨b, bs⟩, ih.mpr hdrop, parent?_eq_some.mpr h⟩

theorem ancestor?_of_lt (h : k < c.line.length) :
    c.ancestor? k = some ⟨c.line[k], c.line.drop (k + 1)⟩ :=
  ancestor?_eq_some.mpr (List.drop_eq_getElem_cons h)

theorem depth_ancestor? (h : c.ancestor? k = some p) : p.depth + k = c.depth := by
  have hlength := congrArg List.length (ancestor?_eq_some.mp h)
  simp only [line, List.length_drop, List.length_cons] at hlength
  simp only [depth]
  omega

theorem isSome_ancestor? : (c.ancestor? k).isSome = true ↔ k ≤ c.depth := by
  constructor
  · intro h
    obtain ⟨p, hp⟩ := Option.isSome_iff_exists.mp h
    have hdepth := depth_ancestor? hp
    omega
  · intro h
    exact Option.isSome_iff_exists.mpr ⟨_, ancestor?_of_lt (Nat.lt_succ_of_le h)⟩

theorem name_at : (c.line[k]?).map ClassBody.name = some name ↔
    ∃ p, c.ancestor? k = some p ∧ p.name = name := by
  constructor
  · intro h
    obtain ⟨b, hb, rfl⟩ := Option.map_eq_some_iff.mp h
    obtain ⟨hlt, rfl⟩ := List.getElem?_eq_some_iff.mp hb
    exact ⟨_, ancestor?_of_lt hlt, rfl⟩
  · rintro ⟨p, hp, rfl⟩
    have hhead : (c.line.drop k)[0]? = some p.own := by rw [ancestor?_eq_some.mp hp]; rfl
    rw [List.getElem?_drop, Nat.add_zero] at hhead
    rw [hhead]
    rfl

/-- A class accepts itself and its ancestors. -/
theorem accepts_iff_ancestor :
    c.accepts (.ofClass name) = true ↔ ∃ k p, c.ancestor? k = some p ∧ p.name = name := by
  rw [accepts_ofClass]
  exact exists_congr fun k => name_at

/-- The accounts that there are of the ancestors of a class, and that they are one. The steps say
how each account is made of that of the parent. -/
structure Coherent (r : Registry) (c : Class) : Prop where
  distinct : ∀ {i j p q}, c.ancestor? i = some p → c.ancestor? j = some q → p.name = q.name → i = j
  counted : ∀ k, (c.ancestor? k).isSome = true ↔ k ≤ c.depth
  registered : ∀ {k p}, c.ancestor? k = some p →
    p ∈ r.classes ∧ r.find? p.name = some p ∧ p.depth + k = c.depth
  valid : ∀ t, t ∈ c.validTypes ↔
    t = .null ∨ t = .untyped ∨ ∃ k p, c.ancestor? k = some p ∧ t = .ofClass p.name
  accepted : ∀ t, c.accepts t = true ↔ t ∈ c.validTypes
  reached : ∀ a, c.accepts (.ofClass a) = true ↔ (c.distanceTo? a).isSome = true
  distance : ∀ a d, c.distanceTo? a = some d ↔ ∃ p, c.ancestor? d = some p ∧ p.name = a
  depth_step : c.depth = c.parent?.elim 0 fun p => p.depth + 1
  valid_step : ∀ t, t ∈ c.validTypes ↔ t = .ofClass c.name ∨ t = .null ∨ t = .untyped ∨
    ∃ p, c.parent? = some p ∧ t ∈ p.validTypes
  distance_step : ∀ a, c.distanceTo? a =
    if c.name = a then some 0 else (c.parent?.bind fun p => p.distanceTo? a).map (· + 1)

theorem mem_validTypes {t : TypeTag} : t ∈ c.validTypes ↔
    t = .null ∨ t = .untyped ∨ ∃ k p, c.ancestor? k = some p ∧ t = .ofClass p.name := by
  rw [← Registry.accepts_iff]
  cases t with
  | ofClass a =>
    rw [accepts_iff_ancestor]
    constructor
    · rintro ⟨k, p, hp, rfl⟩
      exact .inr (.inr ⟨k, p, hp, rfl⟩)
    · rintro (ht | ht | ⟨k, p, hp, ht⟩)
      · cases ht
      · cases ht
      · exact ⟨k, p, hp, (TypeTag.ofClass.inj ht).symm⟩
  | _ => simp [accepts]

theorem isSome_distanceTo? : (c.distanceTo? name).isSome = c.accepts (.ofClass name) := by
  rw [distanceTo?, List.findIdx?_isSome]
  rfl

/- Each account follows from that of the parent. -/

theorem depth_of_parent? : c.depth = c.parent?.elim 0 fun p => p.depth + 1 := by
  obtain ⟨own, ancestors⟩ := c
  cases ancestors <;> rfl

theorem mem_validTypes_of_parent? {t : TypeTag} : t ∈ c.validTypes ↔
    t = .ofClass c.name ∨ t = .null ∨ t = .untyped ∨
      ∃ p, c.parent? = some p ∧ t ∈ p.validTypes := by
  obtain ⟨own, ancestors⟩ := c
  cases ancestors with
  | nil => simp [validTypes, line, name, parent?]
  | cons b bs =>
    simp only [validTypes, line, name, parent?, List.map_cons, List.cons_append, List.mem_cons,
      List.mem_append, List.not_mem_nil, or_false, Option.some.injEq, exists_eq_left']
    grind

theorem distanceTo?_of_parent? : c.distanceTo? name =
    if c.name = name then some 0 else (c.parent?.bind fun p => p.distanceTo? name).map (· + 1) := by
  obtain ⟨own, ancestors⟩ := c
  cases ancestors <;> simp [distanceTo?, line, parent?, List.findIdx?_cons, Class.name]

end Class

namespace Registry

variable {r : Registry} {c d p q : Class} {i j k : Nat}

/-- The registries of a program: the loaded one, and what any request leaves, also when it fails. -/
inductive Arises (forms : List Form) : Registry → Prop
  | loaded {r : Registry} (h : load forms = .ok r) : Arises forms r
  | resolved {r : Registry} (h : Arises forms r) (name : String) :
      Arises forms (after (resolve name) r)
  | resolvedType {r : Registry} (h : Arises forms r) (t : TypeTag) :
      Arises forms (after (resolveType t) r)

theorem after_resolveType (t : TypeTag) (r : Registry) :
    after (resolveType t) r = r ∨ ∃ name, after (resolveType t) r = after (resolve name) r := by
  cases t with
  | ofClass name =>
    refine .inr ⟨name, ?_⟩
    cases h : resolve name r with
    | ok c r' =>
      rw [after_of_ok h]
      exact after_of_ok (bind_ok h _)
    | error e r' =>
      rw [after_of_error h]
      exact after_of_error (bind_error h _)
  | _ => exact .inl rfl

theorem Arises.orderly {forms : List Form} (h : Arises forms r) : r.Orderly := by
  induction h with
  | loaded h => exact orderly_load h
  | resolved _ name ih => exact ih.resolve name
  | @resolvedType r _ t ih =>
    obtain hsame | ⟨name, hname⟩ := after_resolveType t r
    · rwa [hsame]
    · rw [hname]
      exact ih.resolve name

namespace Orderly

variable (h : r.Orderly)

include h

theorem mem_ancestor? (hc : c ∈ r.classes) (hp : c.ancestor? k = some p) : p ∈ r.classes :=
  h.rooted c hc p (Class.ancestor?_eq_some.mp hp ▸ List.drop_suffix k c.line)

/-- Registered classes are told apart by their names. -/
theorem eq_of_name (hc : c ∈ r.classes) (hd : d ∈ r.classes) (hname : c.name = d.name) :
    c = d := by
  have hfound := h.sound.found c hc
  rw [hname, h.sound.found d hd] at hfound
  exact (Option.some.inj hfound).symm

theorem coherent (hc : c ∈ r.classes) : c.Coherent r := by
  have hdistinct : ∀ {i j p q}, c.ancestor? i = some p → c.ancestor? j = some q →
      p.name = q.name → i = j := by
    intro i j p q hp hq hname
    obtain rfl := h.eq_of_name (h.mem_ancestor? hc hp) (h.mem_ancestor? hc hq) hname
    have hi := Class.depth_ancestor? hp
    have hj := Class.depth_ancestor? hq
    omega
  refine ⟨hdistinct, fun k => Class.isSome_ancestor?, ?_, fun t => Class.mem_validTypes,
    fun t => accepts_iff, ?_, ?_, Class.depth_of_parent?,
    fun t => Class.mem_validTypes_of_parent?, fun a => Class.distanceTo?_of_parent?⟩
  · intro k p hp
    have hmem := h.mem_ancestor? hc hp
    exact ⟨hmem, h.sound.found p hmem, Class.depth_ancestor? hp⟩
  · intro a
    rw [Class.isSome_distanceTo?]
  · intro a d
    rw [distanceTo?_eq_some, Class.name_at, and_iff_left_iff_imp]
    rintro ⟨p, hp, rfl⟩ k hk hat
    obtain ⟨q, hq, hname⟩ := Class.name_at.mp hat
    exact absurd (hdistinct hq hp hname) (Nat.ne_of_lt hk)

theorem accepts_iff_ancestor (hc : c ∈ r.classes) (hd : d ∈ r.classes) :
    c.accepts (.ofClass d.name) = true ↔ ∃ k, c.ancestor? k = some d := by
  rw [Class.accepts_iff_ancestor]
  constructor
  · rintro ⟨k, p, hp, hname⟩
    obtain rfl := h.eq_of_name (h.mem_ancestor? hc hp) hd hname
    exact ⟨k, hp⟩
  · rintro ⟨k, hk⟩
    exact ⟨k, d, hk, rfl⟩

end Orderly

def Derives (r : Registry) (c d : { c // c ∈ r.classes }) : Prop :=
  c.1.accepts (.ofClass d.1.name) = true

namespace Orderly

variable (h : r.Orderly) {c d : { c // c ∈ r.classes }}

include h

theorem derives_iff : r.Derives c d ↔ ∃ k, c.1.ancestor? k = some d.1 :=
  h.accepts_iff_ancestor c.2 d.2

theorem isPartialOrder : IsPartialOrder { c // c ∈ r.classes } r.Derives where
  refl c := c.1.accepts_self
  trans c d e hcd hde := by
    obtain ⟨j, hj⟩ := h.derives_iff.mp hcd
    obtain ⟨k, hk⟩ := h.derives_iff.mp hde
    exact h.derives_iff.mpr ⟨j + k, by rw [Class.ancestor?_add, hj, Option.bind_some, hk]⟩
  antisymm c d hcd hdc := by
    obtain ⟨j, hj⟩ := h.derives_iff.mp hcd
    obtain ⟨k, hk⟩ := h.derives_iff.mp hdc
    have hup := Class.depth_ancestor? hj
    have hdown := Class.depth_ancestor? hk
    obtain rfl : j = 0 := by omega
    exact Subtype.ext (Option.some.inj hj)

/-- Of two ancestors of one class, the nearer one is derived from the other. -/
theorem derives_of_le {e : { c // c ∈ r.classes }} (hle : i ≤ j) (hd : c.1.ancestor? i = some d.1)
    (he : c.1.ancestor? j = some e.1) : r.Derives d e := by
  obtain ⟨k, rfl⟩ := Nat.exists_eq_add_of_le hle
  rw [Class.ancestor?_add, hd, Option.bind_some] at he
  exact h.derives_iff.mpr ⟨k, he⟩

theorem isChain (c : { c // c ∈ r.classes }) : IsChain r.Derives { d | r.Derives c d } := by
  intro d hd e he _
  obtain ⟨i, hi⟩ := h.derives_iff.mp hd
  obtain ⟨j, hj⟩ := h.derives_iff.mp he
  obtain hle | hle := Nat.le_total i j
  · exact .inl (h.derives_of_le hle hi hj)
  · exact .inr (h.derives_of_le hle hj hi)

end Orderly

end Registry

namespace View

variable {v w : View} {k l : Nat}

/-- Level `l` of an object is that of the ancestor of depth `l` of its class. -/
theorem atLevel?_eq_some (h : v.atLevel? l = some w) :
    l ≤ v.mostDerived.level ∧ v.mostDerived.cls.ancestor? (v.mostDerived.level - l) = some w.cls ∧
      w.level = l := by
  obtain ⟨k, hk⟩ := List.mem_iff_getElem?.mp (List.mem_of_find?_eq_some h)
  have hat : w.level = l := by simpa using List.find?_some h
  obtain ⟨-, hline, hlevel⟩ := getElem?_upwardFrom hk
  have hdepth : w.level + k = v.mostDerived.level := level_upward hk
  refine ⟨by omega, ?_, hat⟩
  have hsub : v.mostDerived.level - l = v.mostDerived.cls.line.length - w.cls.line.length := by
    simp only [level, Class.depth, Class.line, List.length_cons] at hdepth hat ⊢
    omega
  rw [hsub, Class.ancestor?_eq_some]
  exact (List.suffix_iff_eq_drop.mp hline).symm

/-- Between two levels of an object there are as many steps up. -/
theorem ancestor?_atLevel? {u : View} (hk : k ≤ l) (hw : v.atLevel? l = some w)
    (hu : v.atLevel? k = some u) : w.cls.ancestor? (l - k) = some u.cls := by
  obtain ⟨hle, hup, -⟩ := atLevel?_eq_some hw
  obtain ⟨-, hfar, -⟩ := atLevel?_eq_some hu
  have hsteps : v.mostDerived.level - k = v.mostDerived.level - l + (l - k) := by omega
  rwa [hsteps, Class.ancestor?_add, hup, Option.bind_some] at hfar

theorem mostDerived_of_derived (h : v.derived = []) : v.mostDerived = v := by
  obtain ⟨base, cls, derived⟩ := v
  cases h
  rfl

theorem isSome_atLevel? : (v.atLevel? l).isSome = true ↔ l ≤ v.mostDerived.level := by
  constructor
  · intro h
    obtain ⟨w, hw⟩ := Option.isSome_iff_exists.mp h
    exact (atLevel?_eq_some hw).1
  · intro h
    obtain ⟨w, hw, -⟩ := exists_atLevel? h
    rw [atLevel?, mostDerived_of_derived v.derived_mostDerived] at hw
    exact Option.isSome_iff_exists.mpr ⟨w, hw⟩

/-- A view accepts the classes of its own level and of those below. -/
theorem isInstanceOf_iff (h : v.atLevel? l = some w) (name : String) :
    w.isInstanceOf (.ofClass name) = true ↔
      ∃ k ≤ l, ∃ u, v.atLevel? k = some u ∧ u.cls.name = name := by
  obtain ⟨hle, -, hlevel⟩ := atLevel?_eq_some h
  rw [isInstanceOf, Class.accepts_iff_ancestor]
  constructor
  · rintro ⟨j, p, hp, rfl⟩
    have hj : p.depth + j = l := (Class.depth_ancestor? hp).trans hlevel
    obtain ⟨u, hu⟩ := Option.isSome_iff_exists.mp
      (isSome_atLevel?.mpr (show l - j ≤ v.mostDerived.level by omega))
    have hcls := ancestor?_atLevel? (Nat.sub_le l j) h hu
    rw [Nat.sub_sub_self (by omega), hp] at hcls
    exact ⟨l - j, Nat.sub_le l j, u, hu, by rw [Option.some.inj hcls]⟩
  · rintro ⟨k, hk, u, hu, rfl⟩
    exact ⟨l - k, u.cls, ancestor?_atLevel? hk h hu, rfl⟩

end View

/-- Ancestry is one relation. In a loaded registry, and after any requests, the accounts of the
ancestors of a class agree, and each follows from that of the parent. Acceptance is a partial order
on registered classes, in which those that a class accepts form a chain. An object has the levels up
to that of its class, and its view at a level accepts the classes of the levels from the base class
to that one. -/
theorem ancestry_is_coherent {forms : List Form} {r : Registry} (h : r.Arises forms) :
    (∀ c ∈ r.classes, c.Coherent r) ∧
      IsPartialOrder { c // c ∈ r.classes } r.Derives ∧
      (∀ c, IsChain r.Derives { d | r.Derives c d }) ∧
      ∀ v : View, v.mostDerived.cls ∈ r.classes → ∀ l,
        ((v.atLevel? l).isSome = true ↔ l ≤ v.mostDerived.cls.depth) ∧
        ∀ w, v.atLevel? l = some w →
          w.cls ∈ r.classes ∧ w.level = l ∧
          ∀ name, w.isInstanceOf (.ofClass name) = true ↔
            ∃ k ≤ l, ∃ u, v.atLevel? k = some u ∧ u.cls.name = name := by
  have horderly := h.orderly
  refine ⟨fun c hc => horderly.coherent hc, horderly.isPartialOrder, horderly.isChain, ?_⟩
  intro v hv l
  refine ⟨View.isSome_atLevel?, fun w hw => ?_⟩
  obtain ⟨-, hup, hlevel⟩ := View.atLevel?_eq_some hw
  exact ⟨horderly.mem_ancestor? hv hup, hlevel, View.isInstanceOf_iff hw⟩

/-- In the sample, after a request for a class that there is no template for; the view is that of an
object of the class `main` at the level of the class `base`. -/
theorem sample_ancestry_is_coherent :
    ∃ r, r.Arises Sample.pickForms ∧ Sample.lower ∈ r.classes ∧ Sample.lower.Coherent r ∧
      ∀ name, View.isInstanceOf ⟨1, Sample.upper, [Sample.lower.own]⟩ (.ofClass name) = true ↔
        ∃ k ≤ 0, ∃ u, View.atLevel? ⟨1, Sample.lower, []⟩ k = some u ∧ u.cls.name = name := by
  have hload : Registry.load Sample.pickForms = .ok Sample.picks.registry := rfl
  have harises : (after (Registry.resolve "box@int") Sample.picks.registry).Arises
      Sample.pickForms := (Registry.Arises.loaded hload).resolved "box@int"
  have hlower : Sample.lower ∈ (after (Registry.resolve "box@int") Sample.picks.registry).classes :=
    ((Registry.grows_resolve "box@int").after _).mem (by simp [Sample.picks, Machine.start])
  obtain ⟨hcoherent, -, -, hviews⟩ := ancestry_is_coherent harises
  exact ⟨_, harises, hlower, hcoherent _ hlower,
    ((hviews ⟨1, Sample.lower, []⟩ hlower 0).2 _ rfl).2.2⟩

end ObjectLang
